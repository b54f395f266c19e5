import Mathlib.Data.List.Chain
import TradeDesk.Async.Under
import TradeDesk.Loops.Tick

/-!
# Watch 6 and the snapshots between two ticks

A tick says what is gone by the newest snapshot it found, whoever wrote
that one. So what was held at one successful tick is reported by the next
as long as every snapshot stored between the two keeps it: the invariant
is that the newest snapshot holds what the last successful tick held, and
a tick in progress needs it only until it has read (`Undisturbed`).

A session's close that stores a snapshot without a position the last tick
saw breaks it, and so does a tick that stores one and then never returns:
the next tick compares with that snapshot and finds nothing gone.
-/

namespace TradeDesk.Loops

open TradeDesk.Async

/-! ## What a snapshot holds -/

/-- The newest snapshot has a position in it. -/
def Ledger.Holds (l : Ledger) (symbol : String) : Prop :=
  ∃ q, (symbol, q) ∈ l.latestPositions ∧ q ≠ 0

/-- The newest snapshot still has every position it had. -/
def Keeps (l l' : Ledger) : Prop := ∀ s, l.Holds s → l'.Holds s

/-- The broker lists every symbol of an account once. -/
def OneRow : (q : LoopQuery) → LoopAnswer q → Prop
  | .account _, .ok a => ((a : AccountSnapshot).positions.map (·.symbol)).Nodup
  | _, _ => True

theorem setItem_new {α : Type} {d : List (String × α)} {key : String} {value : α}
    (h : key ∉ d.map (·.1)) : setItem d key value = d ++ [(key, value)] := by
  unfold setItem
  rw [if_neg]
  simp only [List.any_eq_true, beq_iff_eq, not_exists, not_and]
  exact fun e he hk => h (List.mem_map.mpr ⟨e, he, hk⟩)

/-- Items with distinct keys are their dictionary. -/
theorem foldl_setItem {α : Type} : ∀ {items d : List (String × α)},
    ((d ++ items).map (·.1)).Nodup →
    items.foldl (fun d e => setItem d e.1 e.2) d = d ++ items := by
  intro items
  induction items with
  | nil => exact fun _ => (List.append_nil _).symm
  | cons e items ih =>
    intro d hnd
    have hnew : e.1 ∉ d.map (·.1) := by
      rw [List.map_append, List.map_cons] at hnd
      exact fun hin => (List.nodup_append.mp hnd).2.2 _ hin _ List.mem_cons_self rfl
    have happ : d ++ e :: items = (d ++ [e]) ++ items := by
      rw [List.append_assoc, List.singleton_append]
    rw [List.foldl_cons, setItem_new hnew, happ]
    exact ih (happ ▸ hnd)

theorem dictOf_nodup {α : Type} {items : List (String × α)} (h : (items.map (·.1)).Nodup) :
    dictOf items = items := foldl_setItem (d := []) h

theorem Ledger.latestPositions_record (l : Ledger) (a : AccountSnapshot) :
    (l.recordAccount a).latestPositions =
      dictOf (a.positions.map fun p => (p.symbol, p.quantity)) := by
  unfold Ledger.latestPositions Ledger.recordAccount
  rw [List.getLast?_concat]

theorem Holds.of_same {l l' : Ledger} (h : l.accountSnapshots = l'.accountSnapshots) : Keeps l l' := by
  intro s hs
  unfold Ledger.Holds Ledger.latestPositions at hs ⊢
  rwa [h] at hs

/-- What an account holds, the snapshot of it holds. -/
theorem holds_record {l : Ledger} {a : AccountSnapshot}
    (hrow : (a.positions.map (·.symbol)).Nodup) {s : String} (hs : s ∈ a.held) :
    (l.recordAccount a).Holds s := by
  obtain ⟨p, hp, rfl⟩ := List.mem_map.mp hs
  obtain ⟨hmem, hq⟩ := List.mem_filter.mp hp
  refine ⟨p.quantity, ?_, by simpa using hq⟩
  rw [Ledger.latestPositions_record, dictOf_nodup]
  · exact List.mem_map.mpr ⟨p, hmem, rfl⟩
  · rw [List.map_map]
    exact hrow

/-! ## What a tick says is gone -/

/-- The positions a trip's detail names as gone. -/
def TripDetail.gone : TripDetail → List String
  | .stopFill gone _ => gone
  | _ => []

/-- The trip is one of watch 6 and names the symbol as gone. -/
def Trip.NamesGone (t : Trip) (symbol : String) : Prop :=
  t.watch = 6 ∧ t.name = "stop_fill" ∧ symbol ∈ t.detail.gone

instance (t : Trip) (symbol : String) : Decidable (t.NamesGone symbol) :=
  inferInstanceAs (Decidable (_ ∧ _ ∧ _))

/-- Watch 6 of the tick reports the symbol as gone. -/
def ReportsGone (result : TickResult) (symbol : String) : Prop :=
  ∃ t ∈ result.trips, t.NamesGone symbol

instance (result : TickResult) (symbol : String) : Decidable (ReportsGone result symbol) :=
  inferInstanceAs (Decidable (∃ t ∈ result.trips, _))

/-- What the account of a tick held. -/
def TickResult.held (result : TickResult) : List String :=
  (result.view.map fun v => v.account.held).getD []

/-- What the earlier tick held and the later does not, the later reports. -/
def GoneReported (later earlier : TickResult) : Prop :=
  ∀ s ∈ earlier.held, s ∉ later.held → ReportsGone later s

instance (later earlier : TickResult) : Decidable (GoneReported later earlier) :=
  inferInstanceAs (Decidable (∀ s ∈ earlier.held, _))

theorem mem_goneSince {prior : List (String × ℤ)} {account : AccountSnapshot} {s : String} {q : ℤ}
    (hp : (s, q) ∈ prior) (hq : q ≠ 0) (hs : s ∉ account.held) : s ∈ goneSince prior account := by
  unfold goneSince
  rw [List.mem_mergeSort]
  refine List.mem_map.mpr ⟨(s, q), List.mem_filter.mpr ⟨hp, ?_⟩, rfl⟩
  simpa using ⟨hq, hs⟩

theorem stopFillTrips_gone {view : BookView} {prior : List (String × ℤ)} {s : String} {q : ℤ}
    (hp : (s, q) ∈ prior) (hq : q ≠ 0) (hs : s ∉ view.account.held) :
    ∃ t ∈ stopFillTrips view prior, t.NamesGone s := by
  have hgone := mem_goneSince hp hq hs
  refine ⟨⟨6, "stop_fill", .stopFill (goneSince prior view.account)
    (view.orphanedStops.map orphanText).mergeSort⟩, List.mem_append_left _ ?_, rfl, rfl, hgone⟩
  rw [if_neg fun h => by rw [h.1] at hgone; cases hgone]
  exact List.mem_singleton.mpr rfl

/-- **Watch 6.** A position of the snapshot before that the account has no
more is among the gone. -/
theorem evaluateWatches_gone {view : BookView} {prior : List (String × ℤ)} {hwm reserve : ℚ}
    {rules : Rules} {alerts : List ClockAlert} {trips : List Trip}
    (h : evaluateWatches view prior hwm rules reserve alerts = .ok trips) {s : String} {q : ℤ}
    (hp : (s, q) ∈ prior) (hq : q ≠ 0) (hs : s ∉ view.account.held) :
    ∃ t ∈ trips, t.NamesGone s := by
  obtain ⟨t, hmem, hnames⟩ := stopFillTrips_gone hp hq hs
  refine ⟨t, ?_, hnames⟩
  obtain ⟨crossed, _, h⟩ := except_bind_ok h
  cases h
  exact List.mem_append_left _ (List.mem_append_right _ hmem)

/-! ## What a tick finds when others write beside it -/

/-- The ledger after the last snapshot of a history. -/
def lastRecord : LoopHistory → Option Ledger
  | [] => none
  | .asked _ _ :: h => lastRecord h
  | .wrote a b :: h => if a.accountSnapshots = b.accountSnapshots then lastRecord h else some b

/-- A snapshot of the history lost a position the one before it held. -/
def Dropped (h : LoopHistory) : Prop := ∃ a b, .wrote a b ∈ h ∧ ¬ Keeps a b

/-- The newest snapshot holds what `A` names, unless the tick itself has
dropped some of it, and what the tick's own snapshot holds. -/
structure Undisturbed (A : List String) (h : LoopHistory) (l : Ledger) : Prop where
  before : ¬ Dropped h → ∀ s ∈ A, l.Holds s
  after : ∀ b, lastRecord h = some b → Keeps b l

section

variable {A : List String} {h : LoopHistory} {l l' : Ledger}

theorem not_dropped_of_unwritten (hw : ¬ Wrote h) : ¬ Dropped h :=
  fun ⟨a, b, hab, _⟩ => hw ⟨a, b, hab⟩

theorem unwritten_asked {q : LoopQuery} {x : LoopAnswer q} (hw : ¬ Wrote h) :
    ¬ Wrote (.asked q x :: h) := by
  rintro ⟨a, b, hab⟩
  rcases List.mem_cons.mp hab with he | hab
  · cases he
  · exact hw ⟨a, b, hab⟩

theorem Undisturbed.keeps (hu : Undisturbed A h l) (hk : Keeps l l') : Undisturbed A h l' :=
  ⟨fun hd s hs => hk s (hu.before hd s hs), fun b hb s hs => hk s (hu.after b hb s hs)⟩

theorem Undisturbed.asked {q : LoopQuery} {x : LoopAnswer q} (hu : Undisturbed A h l) :
    Undisturbed A (.asked q x :: h) l :=
  ⟨fun hd => hu.before fun ⟨a, b, hab, hk⟩ => hd ⟨a, b, List.mem_cons_of_mem _ hab, hk⟩, hu.after⟩

/-- A tick's own writes never disturb it. -/
theorem Undisturbed.wrote (hu : Undisturbed A h l) : Undisturbed A (.wrote l l' :: h) l' := by
  constructor
  · intro hd s hs
    have hk : Keeps l l' := by
      by_contra hk
      exact hd ⟨l, l', List.mem_cons_self, hk⟩
    refine hk s (hu.before (fun ⟨a, b, hab, hk⟩ => ?_) s hs)
    exact hd ⟨a, b, List.mem_cons_of_mem _ hab, hk⟩
  · intro b hb
    rw [lastRecord] at hb
    split at hb
    next hsame => exact fun s hs => Holds.of_same hsame s (hu.after b hb s hs)
    · cases hb
      exact fun s hs => hs

/-- Beside loops that keep what is held. -/
abbrev Beside {α : Type} (A : List String) (R : Except Exc α → LoopHistory → Prop) :
    LoopM α → LoopHistory → Prop := Under OneRow (Undisturbed A) R

theorem beside_broker {α : Type} {q : LoopQuery} {as : LoopAnswer q → Except Exc α}
    {R : Except Exc α → LoopHistory → Prop}
    (hR : ∀ a, OneRow q a → R (as a) (.asked q a :: h)) : Beside A R (broker q as) h :=
  under_query_bind fun a ha => ⟨fun _ hu => hu.asked, under_check (hR a ha)⟩

theorem beside_update_bind {α : Type} {u : Ledger → Ledger} {f : Unit → LoopM α}
    {R : Except Exc α → LoopHistory → Prop} (hf : ∀ l, Beside A R (f ()) (.wrote l (u l) :: h)) :
    Beside A R (Prog.update u >>= f) h :=
  under_update_bind fun l hu => ⟨hu.wrote, hf l⟩

/-! ### Until the account is read -/

/-- A part of a tick before its first write. -/
def StillUnwritten {α : Type} (_ : Except Exc α) (h : LoopHistory) : Prop := ¬ Wrote h

theorem firstHash_unwritten {e : Exc} (hw : ¬ Wrote h) :
    Beside A StillUnwritten (firstHash e) h := by
  unfold firstHash accountHashes
  refine (beside_broker (R := StillUnwritten) fun a _ => unwritten_asked hw).bind
    (fun hashes h hw => ?_) fun e h hw => hw
  cases hashes with
  | nil => exact hw
  | cons x xs => exact hw

theorem tickHash_unwritten {accountHash : Option String} (hw : ¬ Wrote h) :
    Beside A StillUnwritten (tickHash accountHash) h := by
  unfold tickHash
  split
  · exact firstHash_unwritten hw
  · split
    · exact firstHash_unwritten hw
    · exact hw

/-- The view is of a snapshot the tick stored. -/
def Recorded (view : BookView) (h : LoopHistory) : Prop :=
  ∃ b, lastRecord h = some b ∧ ∀ s ∈ view.account.held, b.Holds s

/-- A part of a tick that records the account, or fails with nothing
written. -/
def Recording (r : Except Exc BookView) (h : LoopHistory) : Prop :=
  match r with
  | .ok view => Recorded view h
  | .error _ => ¬ Wrote h

theorem lastRecord_same {a b : Ledger} (hsame : a.accountSnapshots = b.accountSnapshots) :
    lastRecord (.wrote a b :: h) = lastRecord h := by
  rw [lastRecord, if_pos hsame]

theorem lastRecord_account (a : AccountSnapshot) :
    lastRecord (.wrote l (l.recordAccount a) :: h) = some (l.recordAccount a) := by
  rw [lastRecord, if_neg]
  intro he
  have := congrArg List.length he
  simp [Ledger.recordAccount] at this

theorem reconcile_recording {cfg : LoopSettings} {accountHash : String} {now : Instant}
    (hw : ¬ Wrote h) : Beside A Recording (reconcile cfg accountHash now) h := by
  unfold reconcile
  -- the account
  refine (beside_broker (R := fun r h => ¬ Wrote h ∧
    ∀ a, r = .ok a → (a.positions.map (·.symbol)).Nodup) fun x hx => ⟨unwritten_asked hw, ?_⟩).bind
    (fun account h hr => ?_) fun e h hr => hr.1
  · rintro a rfl
    exact hx
  obtain ⟨hw, hrow⟩ := hr
  -- the orders
  refine (beside_broker (R := StillUnwritten) fun _ _ => unwritten_asked hw).bind
    (fun orders h hw => ?_) fun e h hw => hw
  -- the snapshot, and the orders' rows
  refine beside_update_bind fun l => beside_update_bind fun l' => ?_
  have hsame : l'.accountSnapshots = (l'.recordOrders accountHash orders now).accountSnapshots := rfl
  exact ⟨l.recordAccount account, (lastRecord_same hsame).trans (lastRecord_account account),
    fun s hs => holds_record (hrow account rfl) hs⟩

/-! ### The whole tick -/

/-- Every position of `A` is in the snapshot a tick compares with. -/
def Covers (A : List String) (prior : List (String × ℤ)) : Prop :=
  ∀ s ∈ A, ∃ q, (s, q) ∈ prior ∧ q ≠ 0

theorem tickRead_recording {cfg : LoopSettings} {accountHash : Option String} {now : Instant}
    (hw : ¬ Wrote h) :
    Beside A (fun r h => match r with
      | .ok (prior, view) => Covers A prior ∧ Recorded view h
      | .error _ => ¬ Wrote h) (tickRead cfg accountHash now) h := by
  unfold tickRead
  refine (tickHash_unwritten hw).bind (fun accountHash h hw => ?_) fun e h hw => hw
  refine under_get_bind fun l hu => ?_
  have hcovers : Covers A l.latestPositions := hu.before (not_dropped_of_unwritten hw)
  exact (reconcile_recording hw).bind (fun view h hr => ⟨hcovers, hr⟩) fun e h hw => hw

/-- How a tick ends, if what the last one held was `A`. -/
def TickEnd (A : List String) (r : Except Exc TickResult) (h : LoopHistory) : Prop :=
  match r with
  | .ok result => match result.view with
    | some view => (∀ s ∈ A, s ∉ view.account.held → ReportsGone result s) ∧ Recorded view h
    | none => ¬ Dropped h
  | .error _ => True

theorem Recorded.asked {view : BookView} {q : LoopQuery} {x : LoopAnswer q}
    (hr : Recorded view h) : Recorded view (.asked q x :: h) := hr

theorem Recorded.same {view : BookView} (hr : Recorded view h)
    (hsame : l.accountSnapshots = l'.accountSnapshots) : Recorded view (.wrote l l' :: h) := by
  obtain ⟨b, hb, hheld⟩ := hr
  exact ⟨b, (lastRecord_same hsame).trans hb, hheld⟩

theorem quotesAreStale_recorded {view : BookView} {symbols : List String} {now : Instant}
    (hr : Recorded view h) :
    Beside A (fun _ h => Recorded view h) (quotesAreStale symbols now) h := by
  unfold quotesAreStale
  refine (beside_broker (R := fun _ h => Recorded view h) fun _ _ => hr.asked).bind
    (fun first h hr => ?_) fun e h hr => hr
  cases first with
  | some stale => exact hr
  | none =>
    exact (beside_broker (R := fun _ h => Recorded view h) fun _ _ => hr.asked).bind
      (fun second h hr => hr) fun e h hr => hr

theorem tickStale_recorded {view : BookView} {phase : SessionPhase} {symbols : List String}
    {now : Instant} (hr : Recorded view h) :
    Beside A (fun _ h => Recorded view h) (tickStale phase symbols now) h := by
  unfold tickStale
  split
  · exact quotesAreStale_recorded hr
  · exact hr

theorem tickReport_end {cfg : LoopSettings} {now : Instant} {window : Option MarketWindow}
    {prior : List (String × ℤ)} {view : BookView} (hcovers : Covers A prior)
    (hr : Recorded view h) :
    Beside A (TickEnd A) (tickReport cfg now window prior view) h := by
  unfold tickReport
  refine (tickStale_recorded hr).bind (S := TickEnd A) (fun stale h hr => ?_) fun e h _ => trivial
  refine under_get_bind fun l _ => ?_
  refine (under_check (R := fun _ h => Recorded view h) hr).bind (fun marking h hr => ?_)
    fun e h _ => trivial
  refine (under_scan (R := fun _ h => Recorded view h) fun _ => hr).bind (fun alerts h hr => ?_)
    fun e h _ => trivial
  refine (under_check (R := fun r h => Recorded view h ∧
    r = evaluateWatches view prior marking.hwm cfg.rules cfg.reserve alerts) ⟨hr, rfl⟩).bind
    (fun watched h hr => ?_) fun e h _ => trivial
  obtain ⟨hr, hwatched⟩ := hr
  refine beside_update_bind fun l => ⟨fun s hs hgone => ?_, hr.same rfl⟩
  obtain ⟨q, hp, hq⟩ := hcovers s hs
  obtain ⟨t, hmem, hnames⟩ := evaluateWatches_gone hwatched.symm hp hq hgone
  exact ⟨t, List.mem_append_right _ hmem, hnames⟩

theorem runTick_end {cfg : LoopSettings} {accountHash : Option String} {now : Instant}
    {window : Option MarketWindow} :
    Beside A (TickEnd A) (runTick cfg accountHash now window) [] := by
  unfold runTick
  refine ((tickRead_recording fun ⟨a, b, hab⟩ => by cases hab).attempt
    (S := fun r h => match r with
      | .ok (.ok (prior, view)) => Covers A prior ∧ Recorded view h
      | .ok (.error _) => ¬ Wrote h
      | .error _ => False) fun r h hr => ?_).bind (fun r h hr => ?_) fun e h hr => hr.elim
  · cases r with
    | ok pv => exact hr
    | error e => exact hr
  · cases r with
    | ok pv => exact tickReport_end hr.1 hr.2
    | error e =>
      cases e
      case unauthorized =>
        refine beside_update_bind fun l => ?_
        rintro ⟨a, b, hab, hk⟩
        rcases List.mem_cons.mp hab with he | hab
        · cases he
          exact hk (Holds.of_same rfl)
        · exact hr ⟨a, b, hab⟩
      all_goals exact trivial

end

/-! ## Runs of the loops -/

/-- A tick that read the account, and what it says. -/
def success? (t : LoopTask) : Option TickResult :=
  match t.tag, t.prog with
  | .tick _ _ _, .ret (some result) => if result.view.isSome then some result else none
  | _, _ => none

/-- The successful ticks of a trace, most recent first. -/
def successes : List LoopAct → List TickResult
  | [] => []
  | .leave t :: acts => (success? t).toList ++ successes acts
  | _ :: acts => successes acts

/-- No job overlaps itself: a tick starts when no other is in progress. -/
def OneTick : LoopAct → LoopPool → Prop
  | .start o, p => o.isTick = true → ∀ t ∈ p.tasks, t.tag.isTick = false
  | _, _ => True

/-- **Only a tick that returns drops a position** from the newest snapshot:
no snapshot of another loop does, and a tick that has done so is neither
stopped nor left with an exception. -/
def DropsReturn : LoopAct → LoopPool → Prop
  | .step t _, p => t.tag.isTick = false → ∀ f k, t.prog = .write f k → Keeps p.store (f p.store)
  | .leave t, _ => t.tag.isTick = true → ∀ e, t.prog = .raise e → ¬ Dropped t.hist
  | .stop t, _ => t.tag.isTick = true → ¬ Dropped t.hist
  | _, _ => True

/-- What the last successful tick held. -/
def lastHeld : List TickResult → List String
  | [] => []
  | r :: _ => r.held

/-- How a loop that ends as `r` after `h` leaves the watch over `A`. -/
def LoopEnd (A : List String) (r : Except Exc (Option TickResult)) (h : LoopHistory) : Prop :=
  match r with
  | .ok (some result) => TickEnd A (.ok result) h
  | .ok none => False
  | .error _ => True

/-- How many of the loops in progress are ticks. -/
def ticksIn (ts : List LoopTask) : ℕ := (ts.map fun t => t.tag.isTick).count true

/-- **The watch over `A`.** At most one tick is in progress. It is
undisturbed, and where there is none the newest snapshot holds `A`. -/
structure Watched (A : List String) (p : LoopPool) : Prop where
  one : ticksIn p.tasks ≤ 1
  tick : ∀ t ∈ p.tasks, t.tag.isTick = true →
    Beside A (LoopEnd A) t.prog t.hist ∧ Undisturbed A t.hist p.store
  idle : (∀ t ∈ p.tasks, t.tag.isTick = false) → ∀ s ∈ A, p.store.Holds s

theorem tick_end {A : List String} {cfg : LoopSettings} {o : Loop} (ho : o.isTick = true) :
    Beside A (LoopEnd A) (o.prog cfg) [] := by
  cases o with
  | tick accountHash now window =>
    exact runTick_end.bind (fun result h hr => hr) fun e h _ => trivial
  | sessionClose | reconcile | seedHwm => cases ho

section

variable {A : List String} {s s' : Ledger} {t t' : LoopTask} {ts pre post : List LoopTask}

/-- Beside the one tick there is none. -/
theorem others_not_tick (h : ticksIn (pre ++ t :: post) ≤ 1) (ht : t.tag.isTick = true) :
    ∀ u ∈ pre ++ post, u.tag.isTick = false := by
  intro u hu
  by_contra hne
  rw [Bool.not_eq_false] at hne
  have hpos : 0 < ticksIn (pre ++ post) :=
    List.count_pos_iff.mpr (List.mem_map.mpr ⟨u, hu, hne⟩)
  unfold ticksIn at h hpos
  rw [List.map_append, List.count_append] at hpos
  rw [List.map_append, List.map_cons, ht, List.count_append, List.count_cons_self] at h
  omega

theorem ticksIn_less (h : ticksIn (pre ++ t :: post) ≤ 1) : ticksIn (pre ++ post) ≤ 1 := by
  unfold ticksIn at h ⊢
  rw [List.map_append, List.count_append] at h ⊢
  rw [List.map_cons, List.count_cons] at h
  omega

theorem ticksIn_start {o : Loop} {q : LoopM (Option TickResult)} (h : ticksIn ts ≤ 1)
    (hone : o.isTick = true → ∀ t ∈ ts, t.tag.isTick = false) :
    ticksIn (ts ++ [⟨o, q, []⟩]) ≤ 1 := by
  unfold ticksIn at h ⊢
  rw [List.map_append, List.count_append]
  cases ho : o.isTick with
  | false => simpa [ho] using h
  | true =>
    have hzero : (ts.map fun t => t.tag.isTick).count true = 0 := by
      rw [List.count_eq_zero]
      intro hin
      obtain ⟨u, hu, hut⟩ := List.mem_map.mp hin
      rw [hone ho u hu] at hut
      cases hut
    rw [hzero]
    simp [ho]

/-- A loop starts. -/
theorem Watched.start {cfg : LoopSettings} {o : Loop} (hw : Watched A ⟨s, ts⟩)
    (hone : o.isTick = true → ∀ t ∈ ts, t.tag.isTick = false) :
    Watched A ⟨s, ts ++ [⟨o, o.prog cfg, []⟩]⟩ where
  one := ticksIn_start hw.one hone
  tick u hu hut := by
    rcases List.mem_append.mp hu with hu | hu
    · exact hw.tick u hu hut
    · obtain rfl := List.mem_singleton.mp hu
      refine ⟨tick_end hut, fun _ => hw.idle (hone hut), fun b hb => ?_⟩
      cases hb
  idle hnone := hw.idle fun u hu => hnone u (List.mem_append_left _ hu)

/-- A loop takes a step. -/
theorem Watched.step {c : Config Ledger LoopQuery LoopAnswer Exc (Option TickResult)}
    (hw : Watched A ⟨s, pre ++ t :: post⟩)
    (hkeep : t.tag.isTick = false → ∀ f k, t.prog = .write f k → Keeps s (f s))
    (hstep : Step OneRow ⟨t.prog, t.hist, s⟩ c) :
    Watched A ⟨c.store, pre ++ ⟨t.tag, c.prog, c.hist⟩ :: post⟩ := by
  have hone : ticksIn (pre ++ ⟨t.tag, c.prog, c.hist⟩ :: post) ≤ 1 := by
    have := hw.one
    unfold ticksIn at this ⊢
    simpa only [List.map_append, List.map_cons] using this
  have hmid : t ∈ pre ++ t :: post := by simp
  by_cases ht : t.tag.isTick = true
  · -- the tick itself
    obtain ⟨hb, hu⟩ := hw.tick t hmid ht
    have hothers := others_not_tick hw.one ht
    refine ⟨hone, fun u hu' hut => ?_, fun hnone => ?_⟩
    · rcases mem_middle hu' with rfl | hin
      · exact hb.step hu hstep
      · rw [hothers u hin] at hut
        cases hut
    · have := hnone ⟨t.tag, c.prog, c.hist⟩ (by simp)
      rw [ht] at this
      cases this
  · -- another loop, beside a tick or not
    rw [Bool.not_eq_true] at ht
    have hk : Keeps s c.store := by
      obtain ⟨tag, prog, hist⟩ := t
      cases hstep with
      | read | ask => exact fun _ h => h
      | write f k => exact hkeep ht f k rfl
    refine ⟨hone, fun u hu' hut => ?_, fun hnone a ha => hk a (hw.idle (fun u hu => ?_) a ha)⟩
    · rcases mem_middle hu' with rfl | hin
      · rw [ht] at hut
        cases hut
      · obtain ⟨hb, hu⟩ := hw.tick u (mem_of_others hin) hut
        exact ⟨hb, hu.keeps hk⟩
    · rcases mem_middle hu with rfl | hin
      · exact ht
      · exact hnone u (by
          rcases List.mem_append.mp hin with h | h
          · exact List.mem_append_left _ h
          · exact List.mem_append_right _ (List.mem_cons_of_mem _ h))

/-- A loop is gone, and the newest snapshot holds what is to be watched
next. -/
theorem Watched.gone {B : List String} (hw : Watched A ⟨s, pre ++ t :: post⟩)
    (hother : t.tag.isTick = false → B = A)
    (hheld : t.tag.isTick = true → ∀ a ∈ B, s.Holds a) : Watched B ⟨s, pre ++ post⟩ := by
  refine ⟨ticksIn_less hw.one, fun u hu hut => ?_, fun hnone => ?_⟩
  · cases ht : t.tag.isTick with
    | false =>
      rw [hother ht]
      exact hw.tick u (mem_of_others hu) hut
    | true =>
      rw [others_not_tick hw.one ht u hu] at hut
      cases hut
  · cases ht : t.tag.isTick with
    | true => exact hheld ht
    | false =>
      rw [hother ht]
      refine hw.idle fun u hu => ?_
      rcases mem_middle hu with rfl | hin
      · exact ht
      · exact hnone u hin

end

theorem successes_leave {t : LoopTask} {acts : List LoopAct} :
    successes (.leave t :: acts) = (success? t).toList ++ successes acts := rfl

theorem successes_start {o : Loop} {acts : List LoopAct} :
    successes (.start o :: acts) = successes acts := rfl

/-- A step ends nothing. -/
theorem successes_steps {steps acts : List LoopAct} (hsteps : ∀ a ∈ steps, a.IsStep) :
    successes (steps ++ acts) = successes acts := by
  induction steps with
  | nil => rfl
  | cons a steps ih =>
    have htail := ih fun b hb => hsteps b (List.mem_cons_of_mem a hb)
    cases a with
    | step t others => exact htail
    | start | leave | stop | env => exact (hsteps _ List.mem_cons_self).elim

theorem not_tick_success (ht : t.tag.isTick = false) : success? t = none := by
  unfold success?
  split
  next htag _ =>
    rw [htag] at ht
    cases ht
  · rfl

theorem mem_lastHeld {results : List TickResult} {r : TickResult} {a : String}
    (hr : r ∈ results.head?) (ha : a ∈ r.held) : a ∈ lastHeld results := by
  cases results with
  | nil => cases hr
  | cons x xs =>
    cases hr
    exact ha

/-- A tick that leaves has reported and holds what it stored, or it has no
result and dropped nothing, unless an exception came after. -/
theorem tick_left (ht : t.tag.isTick = true) (hended : t.ended = true)
    (hb : Beside A (LoopEnd A) t.prog t.hist) :
    (∃ result view, success? t = some result ∧ result.view = some view ∧
      (∀ a ∈ A, a ∉ view.account.held → ReportsGone result a) ∧ Recorded view t.hist) ∨
    success? t = none ∧ (¬ Dropped t.hist ∨ ∃ e, t.prog = .raise e) := by
  obtain ⟨tag, prog, hist⟩ := t
  cases tag with
  | sessionClose | reconcile | seedHwm => cases ht
  | tick accountHash now window =>
    cases prog with
    | read | write | ask => cases hended
    | raise e => exact Or.inr ⟨rfl, Or.inr ⟨e, rfl⟩⟩
    | ret r =>
      cases r with
      | none => exact hb.elim
      | some result =>
        have hb : TickEnd A (.ok result) hist := hb
        unfold TickEnd at hb
        unfold success?
        simp only at hb ⊢
        cases hview : result.view with
        | none =>
          rw [hview] at hb
          exact Or.inr ⟨rfl, Or.inl hb⟩
        | some view =>
          rw [hview] at hb
          exact Or.inl ⟨result, view, rfl, hview, hb.1, hb.2⟩

/-- **No disappearing position goes unreported**, of two successful ticks in
a row, as long as only ticks that return drop a position. -/
theorem gone_reported {cfg : LoopSettings} {init : Ledger} {acts : List LoopAct} {p : LoopPool}
    (htrace : LoopTrace cfg OneRow (fun a p => OneTick a p ∧ DropsReturn a p) init acts p) :
    (successes acts).IsChain GoneReported := by
  suffices h : (successes acts).IsChain GoneReported ∧ Watched (lastHeld (successes acts)) p from h.1
  induction htrace with
  | idle =>
    exact ⟨List.IsChain.nil, Nat.zero_le 1, fun t ht => (by cases ht), fun _ a ha => (by cases ha)⟩
  | @move acts p q a hrun hc hmove ih =>
    obtain ⟨hchain, hw⟩ := ih
    obtain ⟨hone, hdrops⟩ := hc
    cases hmove with
    | start o s ts => exact ⟨hchain, hw.start hone⟩
    | step pre post hstep => exact ⟨hchain, hw.step hdrops hstep⟩
    | stop pre post hended =>
      refine ⟨hchain, hw.gone (fun _ => rfl) fun ht => ?_⟩
      exact (hw.tick _ (by simp) ht).2.before (hdrops ht)
    | env he => exact he.elim
    | @leave t s pre post hended =>
      cases ht : t.tag.isTick with
      | false =>
        have hnone : success? t = none := not_tick_success ht
        have hsame : successes (.leave t :: acts) = successes acts := by
          rw [successes_leave, hnone]
          rfl
        rw [hsame]
        exact ⟨hchain, hw.gone (fun _ => rfl) fun ht' => by rw [ht] at ht'; cases ht'⟩
      | true =>
        obtain ⟨hb, hu⟩ := hw.tick t (by simp) ht
        rcases tick_left ht hended hb with ⟨result, view, hs, hview, hreports, hrec⟩ | ⟨hs, hd⟩
        · -- a successful tick: it reports, and the watch is over what it held
          have hcons : successes (.leave t :: acts) = result :: successes acts := by
            rw [successes_leave, hs]
            rfl
          have hheld : result.held = view.account.held := by
            unfold TickResult.held
            rw [hview]
            rfl
          rw [hcons]
          refine ⟨List.isChain_cons.mpr ⟨fun earlier he a ha hna => ?_, hchain⟩, hw.gone (fun ht' => ?_) fun _ a ha => ?_⟩
          · refine hreports a ?_ (hheld ▸ hna)
            exact mem_lastHeld he ha
          · rw [ht] at ht'
            cases ht'
          · obtain ⟨b, hb, hbheld⟩ := hrec
            exact hu.after b hb a (hbheld a (hheld ▸ ha))
        · -- a blind tick, or one that failed: the watch goes on
          have hsame : successes (.leave t :: acts) = successes acts := by
            rw [successes_leave, hs]
            rfl
          rw [hsame]
          refine ⟨hchain, hw.gone (fun _ => rfl) fun _ => hu.before ?_⟩
          rcases hd with hd | ⟨e, he⟩
          · exact hd
          · exact hdrops ht e he

/-! ## A close between two ticks -/

section

def tenShares : List Position := [⟨"AAA", "EQUITY", 10, some 50, 500, 0, 10⟩]

/-- A ledger with a high-water mark and nothing else. -/
def seededLedger : Ledger where
  accountSnapshots := []
  orderSnapshots := []
  ticks := []
  sessionStatus := [⟨dayNumber 2026 9 25, 1500, 1500, 0, 0, .ok, 1500, false, none⟩]

def tickAt (h m : ℤ) : Loop := .tick (some "h1") (fromMonday h m) none

def closeAt (h m : ℤ) : Loop := .sessionClose (some "h1") (fromMonday h m) none

/-- Where a loop of that hour ends over that account. -/
def endOf (o : Loop) (h m : ℤ) (positions : List Position) (l : Ledger) :
    Config Ledger LoopQuery LoopAnswer Exc (Option TickResult) :=
  runWith (brokerWith (fromMonday h m) positions) (o.prog engineSettings) [] l

theorem brokerWith_oneRow (now : Instant) (positions : List Position)
    (h : (positions.map (·.symbol)).Nodup) : ∀ q, OneRow q (brokerWith now positions q) := by
  intro q
  cases q with
  | account => exact h
  | accountHashes | orders | quotes | postClose => trivial

/-- What the tick before the close saw. -/
def beforeClose : Ledger := (endOf (tickAt 15 47) 15 47 tenShares seededLedger).store

/-- What the close left: the shares were sold between the two. -/
def afterClose : Ledger := (endOf (closeAt 16 4) 16 4 [] beforeClose).store

/-- A stop fills between the last tick of a day and its close. The close
stores an account without the shares, and the first tick of the next day
reports nothing. -/
theorem gone_unreported : ¬ ∀ (cfg : LoopSettings) (init : Ledger) (acts : List LoopAct)
    (p : LoopPool), LoopTrace cfg OneRow OneTick init acts p →
    (successes acts).IsChain GoneReported := by
  intro hall
  have hstart : ∀ o s, OneTick (.start o) ⟨s, []⟩ := fun o s _ t ht => by cases ht
  have hidle : LoopTrace engineSettings OneRow OneTick seededLedger [] ⟨seededLedger, []⟩ := .idle
  obtain ⟨steps, hsteps, h⟩ := hidle.whole (o := tickAt 15 47)
    (brokerWith_oneRow (fromMonday 15 47) tenShares (by decide))
    (hstart _ _) (fun _ _ _ => trivial) fun _ => trivial
  obtain ⟨steps', hsteps', h'⟩ := h.whole (o := closeAt 16 4)
    (brokerWith_oneRow (fromMonday 16 4) [] List.nodup_nil)
    (hstart _ _) (fun _ _ _ => trivial) fun _ => trivial
  obtain ⟨steps'', hsteps'', h''⟩ := h'.whole (o := tickAt 33 47)
    (brokerWith_oneRow (fromMonday 33 47) [] List.nodup_nil)
    (hstart _ _) (fun _ _ _ => trivial) fun _ => trivial
  have hchain := hall _ _ _ _ h''
  rw [successes_leave, successes_steps hsteps'', successes_start, successes_leave,
    successes_steps hsteps', successes_start, successes_leave, successes_steps hsteps,
    successes_start] at hchain
  revert hchain
  show ¬ List.IsChain GoneReported (
    (success? (.at_ (tickAt 33 47) (endOf (tickAt 33 47) 33 47 [] afterClose))).toList ++
    ((success? (.at_ (closeAt 16 4) (endOf (closeAt 16 4) 16 4 [] beforeClose))).toList ++
    ((success? (.at_ (tickAt 15 47) (endOf (tickAt 15 47) 15 47 tenShares seededLedger))).toList ++
      [])))
  decide +kernel

/-- Without the close the same tick reports the shares. -/
theorem gone_reported_next_day : ∃ acts p,
    LoopTrace engineSettings OneRow (fun a p => OneTick a p ∧ DropsReturn a p) seededLedger acts p ∧
    (successes acts).length = 2 ∧ (successes acts).IsChain GoneReported := by
  have hstart : ∀ o s, OneTick (.start o) ⟨s, []⟩ ∧ DropsReturn (.start o) ⟨s, []⟩ :=
    fun o s => ⟨fun _ t ht => (by cases ht), trivial⟩
  have hstep : ∀ {h m} (u : LoopTask) q, u.tag = tickAt h m →
      OneTick (.step u []) q ∧ DropsReturn (.step u []) q := fun u q hu =>
    ⟨trivial, fun hf => by rw [hu] at hf; cases hf⟩
  have hleave : ∀ {o : Loop} {c : Config Ledger LoopQuery LoopAnswer Exc (Option TickResult)},
      (success? (.at_ o c)).isSome → ∀ q, OneTick (.leave (.at_ o c)) q ∧
        DropsReturn (.leave (.at_ o c)) q := fun hs q =>
    ⟨trivial, fun _ e he => by simp [success?, he] at hs⟩
  have hidle : LoopTrace engineSettings OneRow (fun a p => OneTick a p ∧ DropsReturn a p)
      seededLedger [] ⟨seededLedger, []⟩ := .idle
  obtain ⟨steps, hsteps, h⟩ := hidle.whole (o := tickAt 15 47)
    (brokerWith_oneRow (fromMonday 15 47) tenShares (by decide))
    (hstart _ _) hstep (hleave (by decide +kernel))
  obtain ⟨steps', hsteps', h'⟩ := h.whole (o := tickAt 33 47)
    (brokerWith_oneRow (fromMonday 33 47) [] List.nodup_nil)
    (hstart _ _) hstep (hleave (by decide +kernel))
  refine ⟨_, _, h', ?_, gone_reported h'⟩
  rw [successes_leave, successes_steps hsteps', successes_start, successes_leave,
    successes_steps hsteps, successes_start]
  show ((success? (.at_ (tickAt 33 47) (endOf (tickAt 33 47) 33 47 [] beforeClose))).toList ++
    ((success? (.at_ (tickAt 15 47) (endOf (tickAt 15 47) 15 47 tenShares seededLedger))).toList ++
      [])).length = 2
  decide +kernel

end

end TradeDesk.Loops
