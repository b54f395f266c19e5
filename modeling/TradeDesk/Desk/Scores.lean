import TradeDesk.Desk.FirstTouch
import TradeDesk.Desk.Run
import TradeDesk.Desk.Writes

/-!
# What a score depends on

A score is written once and never changed, by whichever pass comes to it
first. It does not matter which: `resolve` looks at no bar from before the
item's session, and at none after the session that decides, so it answers
the same on every later state of its series (`resolve_later`). The window a
pass reads starts at the earliest of all open items, which is a cut before
the session (`scoredOn_own`), and the other items of the pass write rows of
their own. What a pass leaves for an item is a function of the item and its
three series (`score_scored`).
-/

namespace TradeDesk.Desk

open TradeDesk.Async

variable {item : Item} {bars bars' spy spy' bench bench' : List DailyBar}

/-! ## Later states of a series -/

/-- A later state of a series: bars from before the session may be gone, and
bars dated after all there were may have come. -/
structure Later (session : Date) (old new : List DailyBar) : Prop where
  split : ∃ (keep : DailyBar → Bool) (more : List DailyBar), new = old.filter keep ++ more ∧
    (∀ b ∈ old, session ≤ b.date → keep b = true) ∧ ∀ b ∈ more, ∀ a ∈ old, a.date < b.date

theorem Later.refl (session : Date) (old : List DailyBar) : Later session old old :=
  ⟨fun _ => true, [], by simp, fun _ _ _ => rfl, fun _ h => by cases h⟩

/-- Bars of later dates. -/
theorem Later.append {session : Date} {old more : List DailyBar}
    (h : ∀ b ∈ more, ∀ a ∈ old, a.date < b.date) : Later session old (old ++ more) :=
  ⟨fun _ => true, more, by simp, fun _ _ _ => rfl, h⟩

private theorem find?_keep {keep q : DailyBar → Bool} {xs : List DailyBar}
    (h : ∀ b ∈ xs, q b = true → keep b = true) : (xs.filter keep).find? q = xs.find? q := by
  induction xs with
  | nil => rfl
  | cons x xs ih =>
    have ih := ih fun b hb => h b (List.mem_cons_of_mem x hb)
    by_cases hx : keep x = true
    · rw [List.filter_cons_of_pos hx, List.find?_cons, List.find?_cons, ih]
    · have hq : q x = false := by
        rw [Bool.eq_false_iff]
        exact fun hq => hx (h x List.mem_cons_self hq)
      rw [List.filter_cons_of_neg hx, ih, List.find?_cons, hq]

/-- From the session on, a bar that is there stays. -/
theorem Later.barOn {session d : Date} {old new : List DailyBar} {b : DailyBar}
    (h : Later session old new) (hd : session ≤ d) (hb : barOn old d = some b) :
    barOn new d = some b := by
  obtain ⟨keep, more, rfl, hkeep, hmore⟩ := h.split
  obtain ⟨hmem, hdate⟩ := barOn_some hb
  have hnone : more.reverse.find? (fun b => b.date == d) = none := by
    rw [List.find?_eq_none]
    intro x hx heq
    have hlt := hmore x (List.mem_reverse.mp hx) b hmem
    rw [hdate, beq_iff_eq.mp heq] at hlt
    exact lt_irrefl _ hlt
  unfold Desk.barOn at hb ⊢
  rw [List.reverse_append, List.find?_append, hnone, Option.none_or, ← List.filter_reverse,
    find?_keep fun x hx heq => hkeep x (List.mem_reverse.mp hx) ?_]
  · exact hb
  · rw [beq_iff_eq.mp heq]
    exact hd

/-- The sessions so far stay, in front. -/
theorem Later.sessions (h : Later item.session spy spy') :
    sessionsOf item spy <+: sessionsOf item spy' := by
  obtain ⟨keep, more, rfl, hkeep, _⟩ := h.split
  have hsame : sessionsOf item (spy.filter keep) = sessionsOf item spy := by
    unfold sessionsOf
    rw [List.filter_map, List.filter_map, List.filter_filter]
    congr 1
    refine List.filter_congr fun b hb => ?_
    dsimp only [Function.comp_apply]
    by_cases hle : item.session ≤ b.date
    · rw [hkeep b hb hle, Bool.and_true]
    · rw [decide_eq_false hle, Bool.false_and]
  refine ⟨sessionsOf item more, ?_⟩
  rw [← hsame]
  unfold sessionsOf
  rw [List.map_append, List.filter_append]

theorem firstDays_prefix {days days' : List Date} (h : days <+: days') (n : ℤ) :
    firstDays days n <+: firstDays days' n := by
  have hlen := h.length_le
  unfold firstDays
  refine (List.take_prefix_take_left ?_).trans (h.take _)
  split <;> omega

theorem Later.window (h : Later item.session spy spy') : window item spy <+: window item spy' :=
  firstDays_prefix h.sessions _

/-! ## The same answer -/

/-- What was found is found again. -/
theorem Found.later {f : Finding} (hf : Found item bars spy bench f)
    (hbars : Later item.session bars bars') (hspy : Later item.session spy spy')
    (hbench : Later item.session bench bench') : Found item bars' spy' bench' f := by
  have hday {i : ℕ} {d : Date} (h : (Desk.window item spy)[i]? = some d) :
      (Desk.window item spy')[i]? = some d ∧ item.session ≤ d := by
    obtain ⟨rest, hrest⟩ := hspy.window
    have hi := (List.getElem?_eq_some_iff.mp h).1
    rw [← hrest, List.getElem?_append_left hi]
    have hmem := mem_window (List.mem_of_getElem? h)
    exact ⟨h, of_decide_eq_true (List.mem_filter.mp hmem).2⟩
  have hstart : item.session ≤ f.start :=
    of_decide_eq_true (List.mem_filter.mp (List.mem_of_head? hf.session)).2
  have hsession : (sessionsOf item spy').head? = some f.start := by
    obtain ⟨rest, hrest⟩ := hspy.sessions
    obtain ⟨tail, htail⟩ := List.head?_eq_some_iff.mp hf.session
    rw [← hrest, htail]
    rfl
  refine ⟨hsession, hbars.barOn hstart hf.first, hspy.barOn hstart hf.spyFirst,
    hbench.barOn hstart hf.benchFirst, fun i hi => ?_, (hday hf.day).1,
    hbars.barOn (hday hf.day).2 hf.bar, hf.exit⟩
  obtain ⟨d, b, hd, hb, hpass⟩ := hf.passes i hi
  exact ⟨d, b, (hday hd).1, hbars.barOn (hday hd).2 hb, hpass⟩

/-- **An answer stays.** -/
theorem resolve_later {r : Resolution} (hbars : Later item.session bars bars')
    (hspy : Later item.session spy spy') (hbench : Later item.session bench bench')
    (h : resolve item bars spy bench = .ok (some r)) :
    resolve item bars' spy' bench' = .ok (some r) := by
  obtain ⟨f, hf, hdone⟩ := resolve_found.mp h
  obtain ⟨hzero, s, bb, hs, hbb, rfl⟩ := done_some hdone
  have hle : item.session ≤ f.day :=
    of_decide_eq_true (List.mem_filter.mp (mem_window (List.mem_of_getElem? hf.day))).2
  exact resolve_found.mpr ⟨f, hf.later hbars hspy hbench,
    done_ok (hspy.barOn hle hs) (hbench.barOn hle hbb) hzero⟩

/-! ## A window that starts earlier -/

private theorem barOn_since (bars : List DailyBar) {session d : Date} (h : session ≤ d) :
    barOn (bars.filter fun b => session ≤ b.date) d = barOn bars d := by
  unfold barOn
  rw [← List.filter_reverse]
  refine find?_keep fun x _ heq => ?_
  rw [beq_iff_eq.mp heq]
  exact decide_eq_true h

private theorem sessionsOf_since (spy : List DailyBar) :
    sessionsOf item (spy.filter fun b => item.session ≤ b.date) = sessionsOf item spy := by
  unfold sessionsOf
  rw [List.filter_map, List.filter_map, List.filter_filter]
  congr 1
  refine List.filter_congr fun b _ => ?_
  exact Bool.and_self _

private theorem firstExit_congr (k : ℤ) {days : List Date}
    (h : ∀ d ∈ days, barOn bars' d = barOn bars d) :
    firstExit item bars' k days = firstExit item bars k days := by
  induction days generalizing k with
  | nil => rfl
  | cons d days ih =>
    unfold firstExit
    rw [h d List.mem_cons_self, ih (k + 1) fun x hx => h x (List.mem_cons_of_mem d hx)]

/-- Bars from before the session are not looked at. -/
theorem resolve_since (item : Item) (bars spy bench : List DailyBar) :
    resolve item (bars.filter fun b => item.session ≤ b.date)
      (spy.filter fun b => item.session ≤ b.date) (bench.filter fun b => item.session ≤ b.date) =
      resolve item bars spy bench := by
  have hwindow : Desk.window item (spy.filter fun b => item.session ≤ b.date) =
      Desk.window item spy := by
    unfold Desk.window
    rw [sessionsOf_since]
  have hfrom {d : Date} (hd : d ∈ sessionsOf item spy) : item.session ≤ d :=
    of_decide_eq_true (List.mem_filter.mp hd).2
  rw [resolve_eq, resolve_eq, sessionsOf_since, hwindow,
    firstExit_congr 1 fun d hd => barOn_since bars (hfrom (mem_window hd))]
  cases hhead : (sessionsOf item spy).head? with
  | none => rfl
  | some start =>
    have hstart := hfrom (List.mem_of_head? hhead)
    dsimp only
    rw [barOn_since bars hstart, barOn_since spy hstart, barOn_since bench hstart]
    cases hexit : firstExit item bars 1 (Desk.window item spy) with
    | none => rfl
    | some found =>
      obtain ⟨day, e⟩ := found
      obtain ⟨j, b, _, hday, _⟩ := (firstExit_from 1 _).mp hexit
      have hle := hfrom (mem_window (List.mem_of_getElem? hday))
      have hdone (ref : Reference) : done item ref (spy.filter fun b => item.session ≤ b.date)
          (bench.filter fun b => item.session ≤ b.date) day e.how e.price e.atOpen =
          done item ref spy bench day e.how e.price e.atOpen := by
        unfold done
        rw [barOn_since spy hle, barOn_since bench hle]
      simp only [hdone]

/-- All bars of a symbol. -/
def allBars (s : Store) (symbol : String) : List DailyBar := s.barsFor symbol none none

theorem barsFor_since (s : Store) (symbol : String) (d : Date) :
    s.barsFor symbol (some d) none = (allBars s symbol).filter fun b => d ≤ b.date := by
  unfold allBars Store.barsFor
  dsimp only
  rw [List.filter_map, List.filter_filter]
  congr 1
  refine List.filter_congr fun b _ => ?_
  dsimp only [Function.comp_apply]
  rw [Bool.and_true, Bool.and_comm]

/-- What an item is scored to on all the bars there are. -/
def ownScore (s : Store) (item : Item) : Except Exc (Option Resolution) :=
  resolve item (allBars s item.symbol) (allBars s "SPY") (allBars s item.benchmark)

/-- The window of the pass does not matter to an item in it. -/
theorem scoredOn_own {s : Store} {earliest : Date} (h : earliest ≤ item.session) :
    scoredOn s earliest item = ownScore s item := by
  have hcut (symbol : String) : (s.barsFor symbol (some earliest) none).filter
      (fun b => item.session ≤ b.date) =
      (allBars s symbol).filter fun b => item.session ≤ b.date := by
    rw [barsFor_since, List.filter_filter]
    refine List.filter_congr fun b _ => ?_
    by_cases hb : item.session ≤ b.date
    · rw [decide_eq_true hb, decide_eq_true (h.trans hb)]
      rfl
    · rw [decide_eq_false hb]
      rfl
  unfold scoredOn ownScore
  rw [← resolve_since, hcut, hcut, hcut, resolve_since]

/-! ## A pass -/

/-- What `load_open_items` answers. -/
def openItems (s : Store) : List Item :=
  (s.pitches.filter fun p => !s.pitchWithdrawals.contains p.id && !s.resolved .pitch p.id).map
    pitchItem ++ (s.calls.filter fun c => !s.resolved .call c.id).map callItem

theorem loadOpenItems_eval (s : Store) : loadOpenItems.eval s = .ok (openItems s) := rfl

/-- The primary keys of the two ledgers. -/
structure PrimaryKeys (s : Store) : Prop where
  pitches : (s.pitches.map (·.id)).Nodup
  calls : (s.calls.map (·.id)).Nodup

/-- An item's row is found under these. -/
def Item.key (item : Item) : ItemKind × ℕ := (item.kind, item.itemId)

private theorem keys_nodup {α : Type} {xs : List α} (id : α → ℕ) (h : (xs.map id).Nodup)
    (p : α → Bool) (kind : ItemKind) : ((xs.filter p).map fun x => (kind, id x)).Nodup := by
  have hids : ((xs.filter p).map id).Nodup := h.sublist (List.filter_sublist.map id)
  have hmap := hids.map (f := fun i => (kind, i)) fun i j hij => (Prod.mk.inj hij).2
  rw [List.map_map] at hmap
  exact hmap

theorem openItems_keys {s : Store} (h : PrimaryKeys s) : ((openItems s).map Item.key).Nodup := by
  unfold openItems
  rw [List.map_append, List.map_map, List.map_map]
  refine List.Nodup.append (keys_nodup _ h.pitches _ .pitch) (keys_nodup _ h.calls _ .call) ?_
  intro key hp hc
  obtain ⟨p, _, rfl⟩ := List.mem_map.mp hp
  obtain ⟨c, _, hkey⟩ := List.mem_map.mp hc
  cases congrArg Prod.fst hkey

theorem openItems_unresolved {s : Store} (h : item ∈ openItems s) :
    s.resolution? item.kind item.itemId = none := by
  have hfree {kind : ItemKind} {i : ℕ} (hf : s.resolved kind i = false) :
      s.resolution? kind i = none := by
    unfold Store.resolution?
    rw [List.find?_eq_none]
    unfold Store.resolved at hf
    rw [List.any_eq_false] at hf
    exact fun r hr => hf r hr
  rcases List.mem_append.mp h with h | h
  · obtain ⟨p, hp, rfl⟩ := List.mem_map.mp h
    have hres : s.resolved .pitch p.id = false := by
      simpa using (Bool.and_eq_true_iff.mp (List.mem_filter.mp hp).2).2
    exact hfree hres
  · obtain ⟨c, hc, rfl⟩ := List.mem_map.mp h
    have hres : s.resolved .call c.id = false := by simpa using (List.mem_filter.mp hc).2
    exact hfree hres

theorem withResolution_resolution? (s : Store) (r : Resolution) (kind : ItemKind) (i : ℕ) :
    (s.withResolution r).resolution? kind i =
      (s.resolution? kind i).or (if r.kind = kind ∧ r.itemId = i then some r else none) := by
  unfold Store.resolution? Store.withResolution
  rw [List.find?_append, List.find?_cons, List.find?_nil]
  by_cases hkey : r.kind = kind ∧ r.itemId = i
  · rw [if_pos hkey, hkey.1, hkey.2]
    simp
  · rw [if_neg hkey]
    have hfalse : (r.kind == kind && r.itemId == i) = false := by
      rw [Bool.eq_false_iff]
      intro h
      exact hkey (by simpa using h)
    rw [hfalse]

/-- A pass under way: the items before the rest have their own scores, the
rest have none yet. -/
structure Scoring (s : Store) (earliest : Date) (rest : List Item) (s' : Store) : Prop where
  suffix : rest <:+ openItems s
  early : ∀ item ∈ rest, earliest ≤ item.session
  passed : ∀ item ∈ openItems s, item ∉ rest → ∀ r,
    s'.resolution? item.kind item.itemId = some r ↔ ownScore s item = .ok (some r)
  ahead : ∀ item ∈ rest, s'.resolution? item.kind item.itemId = none

/-- What a pass leaves for the items it found open: nothing but their own
scores, and all of them if it comes to its end. -/
def Scored (s : Store) (ended : Prop) (s' : Store) : Prop := ∀ item ∈ openItems s,
  (∀ r, s'.resolution? item.kind item.itemId = some r → ownScore s item = .ok (some r)) ∧
    (ended → ∀ r, ownScore s item = .ok (some r) →
      s'.resolution? item.kind item.itemId = some r)

theorem Scoring.scored {s s' : Store} {earliest : Date} {rest : List Item} {ended : Prop}
    (h : Scoring s earliest rest s') (hrest : ended → rest = []) : Scored s ended s' := by
  intro item hitem
  by_cases hin : item ∈ rest
  · constructor
    · intro r hr
      rw [h.ahead item hin] at hr
      cases hr
    · intro hended
      rw [hrest hended] at hin
      cases hin
  · exact ⟨fun r => (h.passed item hitem hin r).mp, fun _ r => (h.passed item hitem hin r).mpr⟩

/-- The turn of an item that is resolved. -/
private theorem Scoring.wrote {s s' : Store} {earliest : Date} {rest : List Item} {r : Resolution}
    (hkeys : ((openItems s).map Item.key).Nodup) (h : Scoring s earliest (item :: rest) s')
    (hown : ownScore s item = .ok (some r)) :
    s'.resolution? r.kind r.itemId = none ∧ Scoring s earliest rest (s'.addResolution r) := by
  obtain ⟨hkind, hid⟩ := resolve_item hown
  have hnone : s'.resolution? r.kind r.itemId = none := by
    rw [hkind, hid]
    exact h.ahead item List.mem_cons_self
  refine ⟨hnone, ?_⟩
  rw [addResolution_of hnone]
  obtain ⟨pre, hpre⟩ := h.suffix
  have hin : item ∈ openItems s := hpre ▸ List.mem_append_right _ List.mem_cons_self
  -- another item has another key, and its row is left alone
  have hother {x : Item} (hx : x ∈ openItems s) (hne : x ≠ item) :
      (s'.withResolution r).resolution? x.kind x.itemId = s'.resolution? x.kind x.itemId := by
    rw [withResolution_resolution?, if_neg, Option.or_none]
    rintro ⟨hk, hi⟩
    refine hne (List.inj_on_of_nodup_map hkeys hx hin ?_)
    unfold Item.key
    rw [← hk, ← hi, hkind, hid]
  have hnot : item ∉ rest := by
    have hnd : (item :: rest).Nodup := hkeys.of_map _ |>.sublist (hpre ▸ List.sublist_append_right _ _)
    exact (List.nodup_cons.mp hnd).1
  refine ⟨(List.suffix_cons item rest).trans h.suffix,
    fun x hx => h.early x (List.mem_cons_of_mem item hx), fun x hx hout r' => ?_, fun x hx => ?_⟩
  · by_cases hne : x = item
    · rw [hne, withResolution_resolution?, h.ahead item List.mem_cons_self,
        if_pos ⟨hkind, hid⟩, hown]
      simp
    · rw [hother hx hne]
      exact h.passed x hx (fun hmem => (List.mem_cons.mp hmem).elim hne hout) r'
  · have hmem : x ∈ openItems s := hpre ▸ List.mem_append_right _ (List.mem_cons_of_mem item hx)
    rw [hother hmem fun heq => hnot (heq ▸ hx)]
    exact h.ahead x (List.mem_cons_of_mem item hx)

/-- The turn of an item that cannot be resolved yet. -/
private theorem Scoring.skipped {s s' : Store} {earliest : Date} {rest : List Item}
    (h : Scoring s earliest (item :: rest) s') (hown : ownScore s item = .ok none) :
    Scoring s earliest rest s' := by
  refine ⟨(List.suffix_cons item rest).trans h.suffix,
    fun x hx => h.early x (List.mem_cons_of_mem item hx), fun x hx hout r => ?_,
    fun x hx => h.ahead x (List.mem_cons_of_mem item hx)⟩
  by_cases hne : x = item
  · rw [hne, h.ahead item List.mem_cons_self, hown]
    simp
  · exact h.passed x hx (fun hmem => (List.mem_cons.mp hmem).elim hne hout) r

/-- **A pass leaves every item its own score**, whatever it finds open
beside it. -/
theorem score_scored {Adm : ∀ q, Answer q → Prop} {h : History} {s : Store} (hkeys : PrimaryKeys s) :
    Always Adm (fun _ _ _ => True) (fun r _ s' => Scored s (∃ rep, r = .ok rep) s') score h s := by
  have hnodup := openItems_keys hkeys
  refine always_score (I := fun earliest rest _ s' => Scoring s earliest rest s') (fun hempty => ?_)
    (fun earliest items hitems hle => ?_) (fun earliest item rest h' s' _ hI => ?_)
    fun earliest rep h' s' hI => hI.scored fun _ => rfl
  · intro item hitem
    rw [loadOpenItems_eval] at hempty
    rw [Except.ok.inj hempty] at hitem
    cases hitem
  · rw [loadOpenItems_eval] at hitems
    cases hitems
    exact ⟨List.suffix_refl _, hle, fun _ hin hout => absurd hin hout,
      fun _ => openItems_unresolved⟩
  · rw [scoredOn_own (hI.early item List.mem_cons_self)]
    cases hres : ownScore s item with
    | error e =>
      refine hI.scored ?_
      rintro ⟨rep, hrep⟩
      cases hrep
    | ok res =>
      cases res with
      | none => exact hI.skipped hres
      | some r =>
        obtain ⟨hnone, hnext⟩ := hI.wrote hnodup hres
        unfold ScoreTurn
        dsimp only
        rw [if_pos hnone]
        exact ⟨trivial, hnext⟩

/-- **A score does not depend on when it is computed, or with what.** Once
`resolve` gives an answer it gives the same on every later state of the
three series; and of two passes that find an item open, the second over the
same series or later ones, the second leaves it no resolution but the one
the first did, and that one if it comes to its end, whatever else was open
and whatever ran before. -/
theorem scores_stable :
    (∀ (item : Item) (bars bars' spy spy' bench bench' : List DailyBar) (r : Resolution),
      Later item.session bars bars' → Later item.session spy spy' →
      Later item.session bench bench' → resolve item bars spy bench = .ok (some r) →
      resolve item bars' spy' bench' = .ok (some r)) ∧
    ∀ (Adm : ∀ q, Answer q → Prop) (item : Item) (s₁ s₁' s₂ s₂' : Store)
      (h₁ h₁' h₂ h₂' : History) (x₁ x₂ : Except Exc ScoreReport) (r : Resolution),
      PrimaryKeys s₁ → PrimaryKeys s₂ → item ∈ openItems s₁ → item ∈ openItems s₂ →
      (∀ symbol, Later item.session (allBars s₁ symbol) (allBars s₂ symbol)) →
      Runs Adm score h₁ s₁ x₁ h₁' s₁' → Runs Adm score h₂ s₂ x₂ h₂' s₂' →
      s₁'.resolution? item.kind item.itemId = some r →
      (∀ r', s₂'.resolution? item.kind item.itemId = some r' → r' = r) ∧
        ((∃ rep, x₂ = .ok rep) → s₂'.resolution? item.kind item.itemId = some r) := by
  constructor
  · intro item bars bars' spy spy' bench bench' r hbars hspy hbench h
    exact resolve_later hbars hspy hbench h
  · intro Adm item s₁ s₁' s₂ s₂' h₁ h₁' h₂ h₂' x₁ x₂ r hkeys₁ hkeys₂ hopen₁ hopen₂ hlater hrun₁
      hrun₂ hres
    have hfirst := (Always.runs (score_scored hkeys₁) hrun₁ item hopen₁).1 r hres
    have hsecond : ownScore s₂ item = .ok (some r) :=
      resolve_later (hlater _) (hlater _) (hlater _) hfirst
    obtain ⟨honly, hall⟩ := Always.runs (score_scored hkeys₂) hrun₂ item hopen₂
    refine ⟨fun r' hr' => ?_, fun hend => hall hend r hsecond⟩
    have hsame := hsecond.symm.trans (honly r' hr')
    exact (Option.some.inj (Except.ok.inj hsame)).symm

/-- A pitch on AAA filed under this id. -/
def pitchedAs (id : ℕ) : Pitch where
  id
  analyst := .technical
  filedAt := fromMonday 9 0
  session := dayNumber 2026 9 28
  symbol := "AAA"
  direction := .up
  target := 110
  invalidation := 90
  horizonDays := 5
  conviction := 3
  benchmark := "SPY"

/-- The pitches, and a session on which AAA goes through their target. -/
def filedAs (ids : List ℕ) : Store where
  calls := []
  callTightenings := []
  resolutions := []
  pitches := ids.map pitchedAs
  pitchWithdrawals := []
  paperBook := none
  bookStartDate := 0
  proposals := []
  proposalOutcomes := []
  paperFills := []
  paperMarks := []
  exitRequests := []
  bars := [("AAA", ⟨dayNumber 2026 9 28, 100, 112, 99, 111⟩),
    ("SPY", ⟨dayNumber 2026 9 28, 500, 502, 499, 501⟩)]
  universeRows := []
  accountSnapshots := []

/-- A pass over them. -/
def passOver (ids : List ℕ) : Config Store Query Answer Exc ScoreReport :=
  runWith (quoting (fromMonday 16 0) 111) score [] (filedAs ids)

/-- The pitch on its own, in a pass with another, and on a later bar. -/
theorem scores_stable_filed : ∃ r, (passOver [1]).store.resolution? .pitch 1 = some r ∧
    (passOver [2, 1]).store.resolution? .pitch 1 = some r ∧
    resolve (pitchItem (pitchedAs 1)) (allBars (filedAs [1]) "AAA" ++
      [⟨dayNumber 2026 9 29, 80, 81, 79, 80⟩]) (allBars (filedAs [1]) "SPY")
      (allBars (filedAs [1]) "SPY") = .ok (some r) := by
  have hruns (ids : List ℕ) (hok : (passOver ids).prog.ended?.any Except.isOk = true) :
      ∃ rep h, Runs AnyAnswer score [] (filedAs ids) (.ok rep) h (passOver ids).store := by
    obtain ⟨x, hx⟩ := runWith_ended (quoting (fromMonday 16 0) 111) score [] (filedAs ids)
    have hany : ∀ q, AnyAnswer q (quoting (fromMonday 16 0) 111 q) := fun _ => trivial
    obtain ⟨h, hrun⟩ := runWith_runs hany hx rfl
    unfold passOver at hok
    rw [hx] at hok
    cases x with
    | error e => cases hok
    | ok rep => exact ⟨rep, h, hrun⟩
  obtain ⟨rep₁, h₁, hrun₁⟩ := hruns [1] (by decide +kernel)
  obtain ⟨rep₂, h₂, hrun₂⟩ := hruns [2, 1] (by decide +kernel)
  obtain ⟨hlater, hpasses⟩ := scores_stable
  let r : Resolution := ⟨.pitch, 1, dayNumber 2026 9 28, 100, dayNumber 2026 9 28, .target, 110,
    10, 1 / 5, 1 / 5⟩
  have hfirst : (passOver [1]).store.resolution? .pitch 1 = some r := by decide +kernel
  have hsecond := hpasses AnyAnswer (pitchItem (pitchedAs 1)) (filedAs [1]) _ (filedAs [2, 1]) _
    [] h₁ [] h₂ (.ok rep₁) (.ok rep₂) r ⟨by decide, by decide⟩ ⟨by decide, by decide⟩
    (by decide +kernel) (by decide +kernel) (fun symbol => Later.refl _ _) hrun₁ hrun₂ hfirst
  refine ⟨r, hfirst, hsecond.2 ⟨rep₂, rfl⟩, ?_⟩
  exact hlater _ _ _ _ _ _ _ r (.append (by decide +kernel)) (.refl _ _) (.refl _ _)
    (by decide +kernel)

end TradeDesk.Desk
