import TradeDesk.Desk.Effects

/-!
# Stops tighten, except across an extension

The level a position leaves at is read off the call its chain of
extensions is at: the call's invalidation, or its last tightening's, and
for shares never under the stop stored at the entry. A tightening stands
between the level and the last price, so it only ever tightens. An
extension starts again from the invalidation its caller gives, and nothing
compares that with the level it replaces. So no stop of a run loosens
exactly when no extension loosens one (`stops_iff`).
-/

namespace TradeDesk.Desk

open TradeDesk.Async

variable {cfg : Settings} {op : Op} {Adm : ∀ q, Answer q → Prop} {h : History} {a b r s t : Store}
variable {init : Store} {log : List Entry} {x y : PaperPosition} {c : Call} {n : NewCall}
variable {d : Direction} {i j : ℚ}

/-! ## The level in effect -/

/-- The level a position leaves at under this invalidation. -/
def levelAt (x : PaperPosition) (inval : ℚ) : ℚ :=
  if x.instrument = .shares then shareTrigger x.stopTrigger inval else inval

/-- The direction of a position's current call and the level in effect, read
as the exits of a watch read them. -/
def exitLevel (x : PaperPosition) : Look (Option (Direction × ℚ)) := do
  match ← getCall (← currentCallId x.callId) with
  | none => return none
  | some call => return some (call.direction, levelAt x (← effectiveInvalidation call))

/-- An invalidation has not moved away from the underlying's price. -/
def NotAway : Direction → ℚ → ℚ → Prop
  | .up, old, new => old ≤ new
  | .down, old, new => new ≤ old

/-- A share stop is not lower; the level of an option has not moved away. -/
def NotLooser : Instrument → Direction → ℚ → ℚ → Prop
  | .shares, _, old, new => old ≤ new
  | _, d, old, new => NotAway d old new

/-- The level of `x` in `t` is not looser than it was in `r`. -/
def LevelKept (r t : Store) (x : PaperPosition) : Prop :=
  ∃ d old new, (exitLevel x).eval r = .ok (some (d, old)) ∧
    (exitLevel x).eval t = .ok (some (d, new)) ∧ NotLooser x.instrument d old new

/-- A position open at both times is the same position, at a level no
looser the second time. -/
def StopsKept (earlier later : Store) : Prop :=
  ∀ x ∈ earlier.openPositions, ∀ y ∈ later.openPositions, y.proposalId = x.proposalId →
    y = x ∧ LevelKept earlier later x

/-- The statement, if it inserts an extension, gives it an invalidation no
looser for any position on the extended call than the level in effect. -/
def TightExtension (a b : Store) : Prop :=
  ∀ (c : NewCall) (old : Call), old ∈ a.calls → c.extendsCallId = some old.id → b = a.addCall c →
    ∀ x ∈ a.openPositions, a.currentCall x.callId = old.id →
      NotLooser x.instrument c.direction (levelAt x (a.effective old)) (levelAt x c.invalidation)

theorem NotAway.refl (d : Direction) (i : ℚ) : NotAway d i i := by
  cases d <;> exact le_refl i

theorem NotAway.trans {l : ℚ} (hij : NotAway d i j) (hjl : NotAway d j l) : NotAway d i l := by
  cases d with
  | up => exact le_trans hij hjl
  | down => exact le_trans hjl hij

theorem NotLooser.refl (k : Instrument) (d : Direction) (i : ℚ) : NotLooser k d i i := by
  cases k with
  | shares => exact le_refl i
  | call | put => exact NotAway.refl d i

theorem NotLooser.trans {k : Instrument} {l : ℚ} (hij : NotLooser k d i j)
    (hjl : NotLooser k d j l) : NotLooser k d i l := by
  cases k with
  | shares => exact le_trans hij hjl
  | call | put => exact NotAway.trans hij hjl

theorem shareTrigger_mono {stop : Option ℚ} (hij : i ≤ j) :
    shareTrigger stop i ≤ shareTrigger stop j :=
  max_le_max_left _ (ceilCents_mono hij)

/-- A tighter invalidation is a level no looser; shares ride up calls. -/
theorem NotAway.levelAt (hdir : d = .down ↔ x.instrument = .put) (hij : NotAway d i j) :
    NotLooser x.instrument d (levelAt x i) (levelAt x j) := by
  unfold Desk.levelAt
  cases d with
  | down =>
    rw [hdir.mp rfl]
    exact hij
  | up =>
    cases hk : x.instrument with
    | shares => exact shareTrigger_mono hij
    | call => exact hij
    | put => exact absurd (hdir.mpr hk) (by decide)

/-- A tightening has not moved away. -/
theorem between_notAway {l : ℚ} (hb : between d i j l) : NotAway d i j := by
  cases d with
  | up => exact le_of_lt hb.1
  | down => exact le_of_lt hb.2

/-! ## Reading it in a well-formed ledger -/

/-- A position's call is there, and its chain ends in one of its direction. -/
theorem WF.currentCall_of_open (hs : WF s) (hx : x ∈ s.openPositions) : ∃ c ∈ s.calls,
    c.id = s.currentCall x.callId ∧ (c.direction = .down ↔ x.instrument = .put) := by
  obtain ⟨p, hp, _, e, _, _, rfl⟩ := hs.mem_openPositions.mp hx
  obtain ⟨c, hc, hcid, _, _, hdir⟩ := hs.proposalCall p hp
  obtain ⟨d, hd, hdid, _, hdd⟩ := hs.currentCall_mem hc
  refine ⟨d, hd, hdid.trans (congrArg _ hcid), ?_⟩
  rw [hdd]
  exact hdir

theorem WF.exitLevel_eval (hs : WF s) (hc : c ∈ s.calls) (hid : c.id = s.currentCall x.callId) :
    (exitLevel x).eval s = .ok (some (c.direction, levelAt x (s.effective c))) := by
  have hcall : s.call? (s.currentCall x.callId) = some c := hid ▸ hs.call?_mem hc
  unfold exitLevel
  rw [Reads.eval_bind, hs.currentCallId_eval]
  show (getCall (s.currentCall x.callId) >>= _).eval s = _
  rw [Reads.eval_bind]
  show Reads.eval (match s.call? (s.currentCall x.callId) with
    | none => _
    | some call => _) s = _
  rw [hcall]
  rfl

/-- A level that is there is not looser than itself. -/
theorem WF.levelKept_refl (hs : WF s) (hx : x ∈ s.openPositions) : LevelKept s s x := by
  obtain ⟨c, hc, hid, _⟩ := hs.currentCall_of_open hx
  exact ⟨_, _, _, hs.exitLevel_eval hc hid, hs.exitLevel_eval hc hid, .refl _ _ _⟩

theorem LevelKept.trans (hrs : LevelKept r s x) (hst : LevelKept s t x) : LevelKept r t x := by
  obtain ⟨d, old, mid, hr, hs, hold⟩ := hrs
  obtain ⟨d', mid', new, hs', ht, hnew⟩ := hst
  cases hs.symm.trans hs'
  exact ⟨d, old, new, hr, ht, hold.trans hnew⟩

/-- Two positions of one proposal are one. -/
theorem WF.position_unique (hs : WF s) (hx : x ∈ s.openPositions) (hy : y ∈ s.openPositions)
    (hid : y.proposalId = x.proposalId) : y = x :=
  List.inj_on_of_nodup_map hs.openPositions_nodup hy hx hid

/-! ## One statement -/

/-- Tightenings are of calls that are there. -/
def TightensCalls (s : Store) : Prop :=
  ∀ t ∈ s.callTightenings, ∃ c ∈ s.calls, c.id = t.callId

theorem extension?_addCall {k : ℕ} (hne : n.extendsCallId ≠ some k) :
    (a.addCall n).extension? k = a.extension? k := by
  unfold Store.extension? Store.addCall
  rw [List.find?_append, List.find?_cons_of_neg (by simpa using hne)]
  simp

theorem currentCall_addCall {k : ℕ} (hne : n.extendsCallId ≠ some k) :
    (a.addCall n).currentCall k = a.currentCall k := by
  unfold Store.currentCall
  rw [extension?_addCall hne]

theorem currentCall_extended {k : ℕ} (hnone : a.extension? k = none)
    (hext : n.extendsCallId = some k) :
    (a.addCall n).currentCall k = (insertedCall a n).id := by
  have hfind : (a.addCall n).extension? k = some (insertedCall a n) := by
    unfold Store.extension? Store.addCall at *
    rw [List.find?_append, hnone, List.find?_cons_of_pos (by simpa using hext)]
    rfl
  unfold Store.currentCall
  rw [hfind]

/-- A new call has not been tightened yet. -/
theorem TightensCalls.effective_new (ht : TightensCalls a) :
    (a.addCall n).effective (insertedCall a n) = n.invalidation := by
  have hnone : a.lastTightening? (insertedCall a n).id = none := by
    unfold Store.lastTightening?
    rw [List.getLast?_eq_none_iff, List.filter_eq_nil_iff]
    intro t htm hid
    obtain ⟨c, hc, hct⟩ := ht t htm
    have hid : t.callId = nextId (a.calls.map (·.id)) := beq_iff_eq.mp hid
    exact nextId_not_mem _ (List.mem_map.mpr ⟨c, hc, hct.trans hid⟩)
  unfold Store.effective
  have hkept : (a.addCall n).lastTightening? (insertedCall a n).id = none := hnone
  rw [hkept]
  rfl

theorem effective_addTightening {k : ℕ} {now : Instant} :
    (a.addTightening k i now).effective c = if c.id = k then i else a.effective c := by
  unfold Store.effective Store.lastTightening? Store.addTightening
  dsimp only
  rw [List.filter_append]
  by_cases hck : c.id = k
  · rw [if_pos hck, List.filter_cons_of_pos (by simpa using hck.symm), List.filter_nil,
      List.getLast?_concat]
  · rw [if_neg hck, List.filter_cons_of_neg (by simpa using fun he => hck he.symm),
      List.filter_nil, List.append_nil]

/-- A level is kept where its call and its tightenings are. -/
theorem WF.levelKept_of_effective (ha : WF a) (hb : WF b) (hx : x ∈ a.openPositions)
    (hcalls : ∀ c ∈ a.calls, c ∈ b.calls)
    (hcur : b.currentCall x.callId = a.currentCall x.callId)
    (heff : ∀ c ∈ a.calls, NotAway c.direction (a.effective c) (b.effective c)) :
    LevelKept a b x := by
  obtain ⟨c, hc, hid, hdir⟩ := ha.currentCall_of_open hx
  exact ⟨_, _, _, ha.exitLevel_eval hc hid, hb.exitLevel_eval (hcalls c hc) (hid.trans hcur.symm),
    (heff c hc).levelAt hdir⟩

/-- The level before and after an extension of the call a position is on. -/
theorem WF.exitLevel_extended (ha : WF a) (hb : WF (a.addCall n)) (ht : TightensCalls a)
    {old : Call} (hold : old ∈ a.calls) (hnone : old.extendsCallId = none)
    (hnoext : a.extension? old.id = none) (hext : n.extendsCallId = some old.id)
    (hx : a.currentCall x.callId = old.id) :
    (exitLevel x).eval a = .ok (some (old.direction, levelAt x (a.effective old))) ∧
      (exitLevel x).eval (a.addCall n) =
        .ok (some (n.direction, levelAt x n.invalidation)) := by
  -- the extended call extends nothing, so the position's own call is it
  have hown : x.callId = old.id := by
    unfold Store.currentCall at hx
    cases he : a.extension? x.callId with
    | none =>
      rw [he] at hx
      exact hx
    | some e =>
      rw [he] at hx
      obtain ⟨hemem, hext⟩ := extension?_some he
      rw [ha.call_unique hemem hold hx, hnone] at hext
      cases hext
  refine ⟨ha.exitLevel_eval hold hx.symm, ?_⟩
  rw [hb.exitLevel_eval (List.mem_append_right _ (List.mem_singleton.mpr rfl))
    (by rw [hown, currentCall_extended hnoext hext]; rfl)]
  exact congrArg (fun e => Except.ok (some (n.direction, levelAt x e))) ht.effective_new

/-- **One statement loosens no stop**, unless it is an extension that
does. -/
theorem DeskWrite.levelKept (hdw : DeskWrite cfg op h a b) (ha : WF a) (ht : TightensCalls a)
    (hx : x ∈ a.openPositions) (hc : TightExtension a b) : LevelKept a b x := by
  have hb := hdw.wf ha
  cases hdw with
  | call c hnew =>
    exact ha.levelKept_of_effective hb hx (fun _ hm => List.mem_append_left _ hm)
      (currentCall_addCall fun he => by rw [hnew.original] at he; cases he)
      fun _ _ => .refl _ _
  | extension old t i last spy bench hold hid _ hnone hnoext _ _ _ _ _ =>
    by_cases hcur : a.currentCall x.callId = old.id
    · obtain ⟨hbefore, hafter⟩ := ha.exitLevel_extended hb ht hold hnone (hid ▸ hnoext) rfl hcur
      exact ⟨_, _, _, hbefore, hafter, hc _ old hold rfl rfl x hx hcur⟩
    · refine ha.levelKept_of_effective hb hx (fun _ hm => List.mem_append_left _ hm)
        (currentCall_addCall fun he => hcur ?_) fun _ _ => .refl _ _
      -- an extension of the position's own call is an extension of its current one
      have hown : old.id = x.callId := Option.some.inj he
      unfold Store.currentCall
      rw [← hown, hid, hnoext]
  | @tighten now callId text h a call new last hcall hid _ _ _ _ hbetween =>
    refine ha.levelKept_of_effective hb hx (fun _ hm => hm) rfl fun c hcm => ?_
    rw [effective_addTightening]
    by_cases hck : c.id = callId
    · obtain rfl := ha.call_unique hcm hcall (hck.trans hid.symm)
      rw [if_pos hck]
      exact between_notAway hbetween
    · rw [if_neg hck]
      exact .refl _ _
  | proposal | exitRequest | posted | dropped | buy | filled | mark | sell | exitDone | resolve =>
    exact ha.levelKept_of_effective hb hx (fun _ hm => hm) rfl fun _ _ => .refl _ _

theorem DeskWrite.tightensCalls (hdw : DeskWrite cfg op h a b) (ht : TightensCalls a) :
    TightensCalls b := by
  cases hdw with
  | call | extension =>
    exact fun t htm => (ht t htm).imp fun _ hc => ⟨List.mem_append_left _ hc.1, hc.2⟩
  | tighten call new last hcall hid _ _ _ _ _ =>
    intro t htm
    rcases List.mem_append.mp htm with htm | htm
    · exact ht t htm
    · rw [List.mem_singleton.mp htm]
      exact ⟨call, hcall, hid⟩
  | proposal | exitRequest | posted | dropped | buy | filled | mark | sell | exitDone | resolve =>
    exact ht

/-- A position that opens belongs to a proposal that had bought nothing. -/
theorem DeskWrite.opened (hdw : DeskWrite cfg op h a b) (ha : WF a) (hx : x ∈ b.openPositions) :
    x ∈ a.openPositions ∨ a.buys x.proposalId = [] := by
  cases hdw with
  | proposal c plan _ _ _ =>
    rw [openPositions_addProposal ha] at hx
    exact Or.inl hx
  | posted p veto mid _ _ _ _ =>
    rw [openPositions_stampPosted] at hx
    exact Or.inl hx
  | buy p ask stop hp hl _ =>
    rcases (Touch.fill hp hl rfl rfl rfl).mem_openPositions ha hx with hx | ⟨e, _, rfl⟩
    · exact Or.inl hx
    · exact Or.inr hl.buys
  | sell p e price reason hp hl _ =>
    rcases (Touch.sell hp hl (f := ⟨p.id, _, .sell, e.quantity, price, reason, none, none⟩) rfl rfl
      hl.fits).mem_openPositions ha hx with hx | ⟨_, he, _⟩
    · exact Or.inl hx
    · cases he
  | call | extension | tighten | exitRequest | exitDone | dropped | filled | mark | resolve =>
    exact Or.inl hx

/-- A purchase is never taken back. -/
theorem DeskWrite.buys_ne_nil (hdw : DeskWrite cfg op h a b) {k : ℕ} (hk : a.buys k ≠ []) :
    b.buys k ≠ [] := by
  cases hdw with
  | buy | sell =>
    rw [Store.buys_addFill]
    exact fun he => hk (List.append_eq_nil_iff.mp he).1
  | call | proposal | extension | tighten | exitRequest | posted | dropped | filled | mark |
    exitDone | resolve => exact hk

/-! ## Runs -/

/-- What is so of every store of a run and every later one: a position of
the earlier stays bought, and while it is open its level is kept. -/
def Carried (r t : Store) : Prop :=
  StopsKept r t ∧ ∀ x ∈ r.openPositions, t.buys x.proposalId ≠ []

theorem WF.carried_refl (hs : WF s) : Carried s s := by
  refine ⟨fun x hx y hy hid => ⟨hs.position_unique hx hy hid, hs.levelKept_refl hx⟩,
    fun x hx => ?_⟩
  obtain ⟨p, _, l, e, hl, he, rfl⟩ := hs.mem_openPositions.mp hx
  show s.buys p.id ≠ []
  rw [hl.buys]
  cases l <;> simp_all [Life.entry?, Life.buys]

theorem Carried.step (hr : Carried r a) (hdw : DeskWrite cfg op h a b) (ha : WF a)
    (ht : TightensCalls a) (hc : TightExtension a b) : Carried r b := by
  refine ⟨fun x hx y hy hid => ?_, fun x hx => hdw.buys_ne_nil (hr.2 x hx)⟩
  rcases hdw.opened ha hy with hya | hnone
  · obtain ⟨rfl, hkept⟩ := hr.1 x hx y hya hid
    exact ⟨rfl, hkept.trans (hdw.levelKept ha ht hya hc)⟩
  · rw [hid] at hnone
    exact absurd hnone (hr.2 x hx)

theorem Carried.world (hr : Carried r a) (hs : WF a) (hw : World a b) : Carried r b := by
  obtain ⟨_, _, _, _, _, rfl⟩ := hw
  refine ⟨fun x hx y hy hid => ?_, hr.2⟩
  obtain ⟨rfl, hkept⟩ := hr.1 x hx y hy hid
  have hy' : y ∈ a.openPositions := hy
  exact ⟨rfl, hkept.trans (hs.levelKept_of_effective (hs.of_same rfl rfl rfl rfl) hy'
    (fun _ hm => hm) rfl fun _ _ => .refl _ _)⟩

/-- **When no stop loosens.** Along a run from an empty ledger a position
keeps its level from every state to every later one, exactly if no
extension inserted gives a position on the extended call a looser one. -/
theorem stops_iff (hrun : Run cfg Adm init log s) (hf : Fresh init) :
    (visited log).Pairwise (fun later earlier => StopsKept earlier later) ↔
      EveryWrite TightExtension log := by
  have hinit : TightensCalls init := fun t ht => by
    rw [hf.tightenings] at ht
    cases ht
  have hworld : ∀ a b, TightensCalls a → World a b → TightensCalls b := fun a b ht hw => by
    obtain ⟨_, _, _, _, _, rfl⟩ := hw
    exact ht
  have htight := (hrun.throughout hf.sound hinit (fun _ _ _ _ _ _ ht hdw => hdw.tightensCalls ht)
    hworld).2
  constructor
  · intro hall e he a b hmem c old hold hext hb x hx hcur
    obtain ⟨h, _, _, _, ha, hdw⟩ := hrun.wrote hf.sound e he a b hmem
    have ht := (htight e he a b hmem).1
    obtain ⟨old', hold', hid, hnone, hnoext, _⟩ := hdw.extended hext hb
    obtain rfl := ha.call_unique hold' hold hid
    have hbwf := hdw.wf ha
    rw [hb] at hbwf
    obtain ⟨hbefore, hafter⟩ := ha.exitLevel_extended hbwf ht hold hnone hnoext hext hcur
    have hxb : x ∈ b.openPositions := by
      rw [hb]
      exact hx
    obtain ⟨-, d, l, l', hl, hl', hnl⟩ := visited_wrote hall he hmem x hx x hxb rfl
    rw [hb, hafter] at hl'
    rw [hbefore] at hl
    simp only [Except.ok.injEq, Option.some.injEq, Prod.mk.injEq] at hl hl'
    rw [hl'.1, hl'.2, hl.2]
    exact hnl
  · intro hc
    refine (hrun.ordered (T := Carried) (J := TightensCalls) (C := fun _ => TightExtension)
      hf.sound hinit (fun _ _ _ _ _ _ ht hdw => hdw.tightensCalls ht) hworld
      (fun _ ha _ => ha.carried_refl)
      (fun _ _ _ _ _ ha ht hdw hc hr => hr.step hdw ha ht hc)
      (fun _ _ _ ha hw hr => hr.world ha hw) hc).imp fun hr => hr.1

/-- A position whose call was tightened to 48 and resolved at its horizon. -/
def tightened : Store :=
  Script.play deskSettings [scoreAt 57 0] (twoDaysOn
    (Script.play deskSettings (buying ++ [tightenAt 10 30 1 "48"]) openingStore))

theorem tightened_run : ∃ log, Run deskSettings AnyAnswer openingStore log tightened := by
  obtain ⟨log, hrun, _⟩ := Script.goes_on (buying ++ [tightenAt 10 30 1 "48"]) opening_run
  obtain ⟨log', hrun', _⟩ := Script.goes_on [scoreAt 57 0] (hrun.world twoDaysOn_world)
  exact ⟨log', hrun'⟩

/-- The position after the call is extended at 47. -/
def extendedAt47 : Config Store Query Answer Exc Unit :=
  runWith (extendAt 58 0 1 "47").2 ((extendAt 58 0 1 "47").1.prog deskSettings) [] tightened

/-- The extension lowers the position's stop from 48 to 47. -/
theorem stop_loosened : ¬ ∀ cfg Adm init log s, Run cfg Adm init log s → Fresh init →
    (visited log).Pairwise fun later earlier => StopsKept earlier later := by
  intro hall
  obtain ⟨log, hrun⟩ := tightened_run
  have hpair := hall _ _ _ _ _ (hrun.play (extendAt 58 0 1 "47") fun _ => trivial) openingStore_fresh
  have hstates : states extendedAt47.hist = [extendedAt47.store, tightened] := by decide +kernel
  unfold visited at hpair
  rw [List.flatMap_cons] at hpair
  have hkept : StopsKept tightened extendedAt47.store := by
    have := (List.pairwise_append.mp hpair).1
    rw [show states (runWith (extendAt 58 0 1 "47").2 ((extendAt 58 0 1 "47").1.prog deskSettings) []
      tightened).hist = [extendedAt47.store, tightened] from hstates] at this
    exact (List.pairwise_cons.mp this).1 _ List.mem_cons_self
  have hlevels : ∃ x ∈ tightened.openPositions, x ∈ extendedAt47.store.openPositions ∧
      x.instrument = .shares ∧ (exitLevel x).eval tightened = .ok (some (.up, 48)) ∧
      (exitLevel x).eval extendedAt47.store = .ok (some (.up, 47)) := by
    decide +kernel
  obtain ⟨x, hx, hx', hshares, hold, hnew⟩ := hlevels
  obtain ⟨_, d, old, new, hold', hnew', hkeep⟩ := hkept x hx x hx' rfl
  obtain ⟨rfl, rfl⟩ : Direction.up = d ∧ (48 : ℚ) = old := by
    have := hold.symm.trans hold'
    simpa using this
  obtain rfl : (47 : ℚ) = new := by
    have := hnew.symm.trans hnew'
    simpa using this
  rw [hshares] at hkeep
  have : (48 : ℚ) ≤ 47 := hkeep
  revert this
  decide +kernel

/-- Until then the stop had only been tightened. -/
theorem stops_iff_tightened : ∃ log, Run deskSettings AnyAnswer openingStore log tightened ∧
    tightened.openPositions.length = 1 ∧
    ((visited log).Pairwise (fun later earlier => StopsKept earlier later) ↔
      EveryWrite TightExtension log) := by
  obtain ⟨log, hrun⟩ := tightened_run
  exact ⟨log, hrun, by decide +kernel, stops_iff hrun openingStore_fresh⟩

end TradeDesk.Desk
