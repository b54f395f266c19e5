import TradeDesk.Loops.Gone
import Mathlib.Data.List.Nodup

/-!
# Stop coverage

Watches 4, 5 and 6 are four computations over a map that keeps one stop a
symbol: the naked, the partial, the orphaned, and the symbols with more than
one. Together they leave nothing out (`stopCoverage_exact`): no trip means
that every position has its one stop, of its own size, and that no stop
stands alone.

The map is built order by order. Under a symbol stand the resting sell stops
of that symbol (`lookup_stopsBySymbol`), so the view's questions about the
map are questions about the orders.
-/

namespace TradeDesk.Loops

open TradeDesk.Async

variable {account : AccountSnapshot} {orders : List OrderRow} {readAt : Instant} {s : String}

/-! ## Stops by symbol -/

/-- The resting single-leg sell stops of a symbol. -/
def sellStopsOn (orders : List OrderRow) (s : String) : List OrderRow :=
  orders.filter fun o => o.isSellStop && o.symbol == s

theorem lookup_setItem {α : Type} (d : List (String × α)) (key : String) (value : α) (s : String) :
    (setItem d key value).lookup s = if s = key then some value else d.lookup s := by
  unfold setItem
  split
  next hmem =>
    rw [List.any_eq_true] at hmem
    obtain ⟨e, he, hkey⟩ := hmem
    rw [beq_iff_eq] at hkey
    induction d with
    | nil => cases he
    | cons x d ih =>
      rw [List.map_cons, List.lookup_cons, List.lookup_cons]
      by_cases hx : x.1 = key
      · rw [if_pos (beq_iff_eq.mpr hx)]
        by_cases hs : s = key
        · rw [if_pos hs, beq_iff_eq.mpr hs]
        · rw [if_neg hs, beq_eq_false_iff_ne.mpr hs, hx, beq_eq_false_iff_ne.mpr hs]
          -- other items with this key are not looked at
          dsimp only
          clear ih he
          induction d with
          | nil => rfl
          | cons y d ih =>
            rw [List.map_cons, List.lookup_cons, List.lookup_cons]
            by_cases hy : y.1 = key
            · rw [if_pos (beq_iff_eq.mpr hy), beq_eq_false_iff_ne.mpr hs, hy,
                beq_eq_false_iff_ne.mpr hs]
              exact ih
            · rw [if_neg (by simpa using hy), ih]
      · rw [if_neg (by simpa using hx)]
        have hin : e ∈ d := by
          rcases List.mem_cons.mp he with rfl | hin
          · exact absurd hkey hx
          · exact hin
        by_cases hs : s = x.1
        · rw [beq_iff_eq.mpr hs]
          dsimp only
          rw [if_neg (fun heq => hx (hs ▸ heq))]
        · rw [beq_eq_false_iff_ne.mpr hs]
          exact ih hin
  next hnew =>
    rw [List.lookup_append, List.lookup_cons, List.lookup_nil]
    by_cases hs : s = key
    · have hnone : d.lookup s = none := by
        rw [List.lookup_eq_none_iff]
        intro e he
        simp only [List.any_eq_true, beq_iff_eq, not_exists, not_and] at hnew
        simpa [hs] using fun heq => hnew e he heq.symm
      rw [hnone, if_pos hs, beq_iff_eq.mpr hs]
      rfl
    · rw [if_neg hs, beq_eq_false_iff_ne.mpr hs]
      simp

theorem setItem_old {α : Type} {d : List (String × α)} {key : String} {value : α}
    (h : key ∈ d.map (·.1)) :
    setItem d key value = d.map fun e => if e.1 == key then (key, value) else e := by
  obtain ⟨e, he, hkey⟩ := List.mem_map.mp h
  unfold setItem
  exact if_pos (List.any_eq_true.mpr ⟨e, he, by simpa using hkey⟩)

/-- The keys of a dictionary are distinct, whatever is set in it. -/
theorem setItem_keys_nodup {α : Type} {d : List (String × α)} (key : String) (value : α)
    (h : (d.map (·.1)).Nodup) : ((setItem d key value).map (·.1)).Nodup := by
  by_cases hmem : key ∈ d.map (·.1)
  · have hkeys : (setItem d key value).map (·.1) = d.map (·.1) := by
      rw [setItem_old hmem, List.map_map]
      refine List.map_congr_left fun x _ => ?_
      by_cases hx : x.1 = key
      · simp [hx]
      · simp [hx]
    rw [hkeys]
    exact h
  · rw [setItem_new hmem, List.map_append]
    exact List.Nodup.append h (List.nodup_singleton key) (by simpa using hmem)

/-- One more order under its symbol. -/
def addOrder (d : List (String × List OrderRow)) (o : OrderRow) : List (String × List OrderRow) :=
  setItem d o.symbol ((d.lookup o.symbol).getD [] ++ [o])

/-- What a map of orders keeps of the orders it was built from. -/
structure Grouped (orders : List OrderRow) (d : List (String × List OrderRow)) : Prop where
  nodup : (d.map (·.1)).Nodup
  under : ∀ s, (d.lookup s).getD [] = orders.filter fun o => o.symbol == s
  nonempty : ∀ e ∈ d, e.2 ≠ []
  total : (d.map fun e => e.2.length).sum = orders.length

private theorem total_replace {d : List (String × List OrderRow)} {key : String}
    {old : List OrderRow} (new : List OrderRow) (h : (d.map (·.1)).Nodup) (hold : d.lookup key = some old) :
    ((d.map fun e => if e.1 == key then (key, new) else e).map fun e => e.2.length).sum +
      old.length = (d.map fun e => e.2.length).sum + new.length := by
  induction d with
  | nil => cases hold
  | cons x d ih =>
    rw [List.map_cons, List.nodup_cons] at h
    rw [List.lookup_cons] at hold
    rw [List.map_cons, List.map_cons, List.map_cons, List.sum_cons, List.sum_cons]
    by_cases hx : key = x.1
    · -- the key stands here, and nowhere after
      have hrest : (d.map fun e => if e.1 == key then (key, new) else e) = d := by
        refine (List.map_congr_left fun y hy => ?_).trans (List.map_id d)
        refine if_neg fun heq => h.1 ?_
        rw [← hx, ← beq_iff_eq.mp heq]
        exact List.mem_map_of_mem hy
      rw [beq_iff_eq.mpr hx] at hold
      cases hold
      rw [hrest, if_pos (beq_iff_eq.mpr hx.symm)]
      dsimp only
      omega
    · rw [beq_eq_false_iff_ne.mpr hx] at hold
      have hother : ¬ (x.1 == key) = true := by simpa using fun heq => hx heq.symm
      have hsum := ih h.2 hold
      rw [if_neg hother]
      omega

private theorem total_setItem {d : List (String × List OrderRow)} {key : String}
    (o : OrderRow) (h : (d.map (·.1)).Nodup) :
    ((setItem d key ((d.lookup key).getD [] ++ [o])).map fun e => e.2.length).sum =
      (d.map fun e => e.2.length).sum + 1 := by
  cases hl : d.lookup key with
  | none =>
    have hnew : key ∉ d.map (·.1) := by
      intro hmem
      obtain ⟨e, he, heq⟩ := List.mem_map.mp hmem
      rw [List.lookup_eq_none_iff] at hl
      simpa [heq] using hl e he
    rw [setItem_new hnew]
    simp
  | some old =>
    have hmem : key ∈ d.map (·.1) := by
      obtain ⟨before, _, rfl, _⟩ := List.lookup_eq_some_iff.mp hl
      simp
    have hsum := total_replace (old ++ [o]) h hl
    rw [setItem_old hmem, Option.getD_some]
    rw [List.length_append, List.length_singleton] at hsum
    omega

theorem Grouped.add {d : List (String × List OrderRow)} (h : Grouped orders d) (o : OrderRow) :
    Grouped (orders ++ [o]) (addOrder d o) where
  nodup := setItem_keys_nodup _ _ h.nodup
  under := by
    intro s
    unfold addOrder
    rw [lookup_setItem, List.filter_append]
    by_cases hs : s = o.symbol
    · rw [if_pos hs, Option.getD_some, h.under, hs]
      simp
    · rw [if_neg hs, h.under]
      simp [Ne.symm hs]
  nonempty := by
    intro e he
    unfold addOrder setItem at he
    split at he
    · obtain ⟨x, hx, rfl⟩ := List.mem_map.mp he
      split
      · simp
      · exact h.nonempty x hx
    · rcases List.mem_append.mp he with he | he
      · exact h.nonempty e he
      · rw [List.mem_singleton.mp he]
        simp
  total := by
    unfold addOrder
    rw [total_setItem o h.nodup, h.total, List.length_append, List.length_singleton]

theorem grouped_foldl (orders : List OrderRow) : Grouped orders (orders.foldl addOrder []) := by
  induction orders using List.reverseRecOn with
  | nil => exact ⟨List.nodup_nil, fun _ => rfl, fun _ h => (List.not_mem_nil h).elim, rfl⟩
  | append_singleton orders o ih =>
    rw [List.foldl_append]
    exact ih.add o

/-- The map before its lists are sorted. -/
def stopGroups (orders : List OrderRow) : List (String × List OrderRow) :=
  (orders.filter (·.isSellStop)).foldl addOrder []

theorem stopsBySymbol_eq (orders : List OrderRow) : stopsBySymbol orders =
    (stopGroups orders).map fun e => (e.1, e.2.mergeSort OrderRow.earlier) := rfl

theorem lookup_map_snd {α β : Type} (d : List (String × α)) (f : α → β) (s : String) :
    (d.map fun e => (e.1, f e.2)).lookup s = (d.lookup s).map f := by
  induction d with
  | nil => rfl
  | cons e d ih =>
    rw [List.map_cons, List.lookup_cons, List.lookup_cons]
    cases s == e.1 with
    | false => exact ih
    | true => rfl

theorem mem_of_lookup {α : Type} {d : List (String × α)} {v : α} (h : d.lookup s = some v) :
    (s, v) ∈ d := by
  obtain ⟨before, _, rfl, _⟩ := List.lookup_eq_some_iff.mp h
  exact List.mem_append_right _ List.mem_cons_self

theorem lookup_of_mem {α : Type} {d : List (String × α)} {v : α} (hnd : (d.map (·.1)).Nodup)
    (h : (s, v) ∈ d) : d.lookup s = some v := by
  cases hl : d.lookup s with
  | none =>
    rw [List.lookup_eq_none_iff] at hl
    simpa using hl (s, v) h
  | some w =>
    have hsame := List.inj_on_of_nodup_map hnd (mem_of_lookup hl) h rfl
    rw [(Prod.mk.inj hsame).2]

/-- Under a symbol stand its resting sell stops, the earliest first; a symbol
without any is not there. -/
theorem lookup_stopsBySymbol (orders : List OrderRow) (s : String) :
    (stopsBySymbol orders).lookup s = if sellStopsOn orders s = [] then none
      else some ((sellStopsOn orders s).mergeSort OrderRow.earlier) := by
  have hg := grouped_foldl (orders.filter (·.isSellStop))
  have hunder := hg.under s
  rw [List.filter_filter] at hunder
  have hsame : (orders.filter fun o => o.symbol == s && o.isSellStop) = sellStopsOn orders s :=
    List.filter_congr fun o _ => Bool.and_comm _ _
  rw [hsame] at hunder
  have hsorted := lookup_map_snd (stopGroups orders)
    (fun rows : List OrderRow => rows.mergeSort OrderRow.earlier) s
  rw [stopsBySymbol_eq, hsorted]
  unfold stopGroups
  cases hl : ((orders.filter (·.isSellStop)).foldl addOrder []).lookup s with
  | none =>
    have hnil : sellStopsOn orders s = [] := by
      rw [← hunder, hl]
      rfl
    rw [if_pos hnil]
    rfl
  | some rows =>
    rw [hl, Option.getD_some] at hunder
    rw [← hunder, if_neg (hg.nonempty _ (mem_of_lookup hl))]
    rfl

theorem stopsBySymbol_nodup (orders : List OrderRow) : ((stopsBySymbol orders).map (·.1)).Nodup := by
  rw [stopsBySymbol_eq, List.map_map]
  exact (grouped_foldl _).nodup

theorem stopsBySymbol_nonempty {e : String × List OrderRow} (h : e ∈ stopsBySymbol orders) :
    e.2 ≠ [] := by
  obtain ⟨x, hx, rfl⟩ := List.mem_map.mp h
  have hx' := (grouped_foldl _).nonempty x hx
  intro hnil
  have hlen := congrArg List.length hnil
  rw [List.length_mergeSort] at hlen
  exact hx' (List.length_eq_zero_iff.mp hlen)

/-! ## The view -/

/-- The stop the watches judge a position against: the earliest. -/
def firstStop (orders : List OrderRow) (s : String) : Option OrderRow :=
  ((sellStopsOn orders s).mergeSort OrderRow.earlier).head?

theorem firstStop_none : firstStop orders s = none ↔ sellStopsOn orders s = [] := by
  unfold firstStop
  rw [List.head?_eq_none_iff, ← List.length_eq_zero_iff, List.length_mergeSort,
    List.length_eq_zero_iff]

theorem firstStop_one {o : OrderRow} (h : sellStopsOn orders s = [o]) :
    firstStop orders s = some o := by
  unfold firstStop
  rw [h, List.mergeSort_singleton]
  rfl

private theorem lookup_heads : ∀ {d : List (String × List OrderRow)},
    (∀ e ∈ d, e.2 ≠ []) → ∀ s, (d.filterMap fun e => e.2.head?.map fun o => (e.1, o)).lookup s =
      (d.lookup s).bind List.head? := by
  intro d hne s
  induction d with
  | nil => rfl
  | cons e d ih =>
    obtain ⟨o, rest, hrows⟩ := List.exists_cons_of_ne_nil (hne e List.mem_cons_self)
    rw [List.filterMap_cons, hrows]
    dsimp only [List.head?_cons, Option.map_some]
    rw [List.lookup_cons, List.lookup_cons, ih fun x hx => hne x (List.mem_cons_of_mem _ hx), hrows]
    cases s == e.1 with
    | false => rfl
    | true => rfl

theorem restingStops_eq : (buildView account orders readAt).restingStops =
    (stopsBySymbol orders).filterMap fun e => e.2.head?.map fun o => (e.1, o) := rfl

theorem lookup_restingStops : (buildView account orders readAt).restingStops.lookup s =
    firstStop orders s := by
  rw [restingStops_eq, lookup_heads fun e he => stopsBySymbol_nonempty he, lookup_stopsBySymbol]
  split
  next h => rw [firstStop_none.mpr h, Option.bind_none]
  · rfl

private theorem heads_keys : ∀ {d : List (String × List OrderRow)}, (∀ e ∈ d, e.2 ≠ []) →
    (d.filterMap fun e => e.2.head?.map fun o => (e.1, o)).map (·.1) = d.map (·.1) := by
  intro d hne
  induction d with
  | nil => rfl
  | cons e d ih =>
    obtain ⟨o, rest, hrows⟩ := List.exists_cons_of_ne_nil (hne e List.mem_cons_self)
    rw [List.filterMap_cons, hrows]
    dsimp only [List.head?_cons, Option.map_some]
    rw [List.map_cons, List.map_cons, ih fun x hx => hne x (List.mem_cons_of_mem _ hx)]

theorem restingStops_nodup :
    ((buildView account orders readAt).restingStops.map (·.1)).Nodup := by
  rw [restingStops_eq, heads_keys fun e he => stopsBySymbol_nonempty he]
  exact stopsBySymbol_nodup orders

theorem firstStop_mem {o : OrderRow} (h : firstStop orders s = some o) :
    o ∈ orders ∧ o.isSellStop = true ∧ o.symbol = s := by
  have hmem := List.mem_of_mem_head? (Option.mem_def.mpr h)
  rw [List.mem_mergeSort] at hmem
  obtain ⟨hin, hspec⟩ := List.mem_filter.mp hmem
  obtain ⟨hstop, hs⟩ := Bool.and_eq_true_iff.mp hspec
  exact ⟨hin, hstop, beq_iff_eq.mp hs⟩

/-- The count of the tick row is of all the stops. -/
theorem restingStopCount_eq : (buildView account orders readAt).restingStopCount =
    (orders.filter (·.isSellStop)).length := by
  have hg := grouped_foldl (orders.filter (·.isSellStop))
  unfold BookView.restingStopCount
  change ((stopsBySymbol orders).filterMap _).length +
    (((stopsBySymbol orders).filter fun e => 1 < e.2.length).map _).sum = _
  rw [← hg.total, stopsBySymbol_eq]
  unfold stopGroups
  have hne := hg.nonempty
  clear hg
  generalize (orders.filter (·.isSellStop)).foldl addOrder [] = d at hne
  -- a symbol counts once for its own stop, and for each other one
  induction d with
  | nil => rfl
  | cons e d ih =>
    have ih := ih fun x hx => hne x (List.mem_cons_of_mem _ hx)
    have hlen : e.2.length ≠ 0 := fun h => hne e List.mem_cons_self (List.length_eq_zero_iff.mp h)
    have hsorted : (e.2.mergeSort OrderRow.earlier).length = e.2.length := List.length_mergeSort e.2
    obtain ⟨o, rest, hrows⟩ := List.exists_cons_of_ne_nil
      (fun h : e.2.mergeSort OrderRow.earlier = [] => hlen (by rw [← hsorted, h]; rfl))
    rw [List.map_cons, List.filterMap_cons]
    dsimp only
    rw [hrows] at hsorted ⊢
    dsimp only [List.head?_cons, Option.map_some]
    rw [List.filter_cons, List.length_cons, List.map_cons, List.sum_cons]
    dsimp only
    split
    next hmore =>
      rw [List.map_cons, List.sum_cons]
      dsimp only
      omega
    next hmore =>
      have hone : (o :: rest).length ≤ 1 := by simpa using hmore
      omega

/-! ## The watches -/

/-- Every position has one resting sell stop of its own size, no such stop
stands on anything else, and no position of the snapshot before is missing. -/
structure Covered (account : AccountSnapshot) (orders : List OrderRow)
    (prior : List (String × ℤ)) : Prop where
  stopped : ∀ p ∈ account.positions, 0 < p.quantity →
    ∃ o, sellStopsOn orders p.symbol = [o] ∧ o.quantity = p.quantity
  owned : ∀ o ∈ orders, o.isSellStop = true →
    ∃ p ∈ account.positions, 0 < p.quantity ∧ p.symbol = o.symbol
  present : ∀ e ∈ prior, e.2 ≠ 0 →
    ∃ p ∈ account.positions, 0 < p.quantity ∧ p.symbol = e.1

/-- The watches over stops and positions are 4, 5 and 6. -/
theorem quiet_iff {view : BookView} {prior : List (String × ℤ)} {hwm reserve : ℚ} {rules : Rules}
    {alerts : List ClockAlert} {trips : List Trip}
    (h : evaluateWatches view prior hwm rules reserve alerts = .ok trips) :
    (∀ t ∈ trips, t.watch ≠ 4 ∧ t.watch ≠ 5 ∧ t.watch ≠ 6) ↔
      view.naked = [] ∧ view.partials = [] ∧ stopFillTrips view prior = [] := by
  obtain ⟨crossed, _, h⟩ := except_bind_ok h
  cases h
  have hstop : ∀ t ∈ stopFillTrips view prior, t.watch = 6 := by
    intro t ht
    unfold stopFillTrips at ht
    rcases List.mem_append.mp ht with ht | ht
    · split at ht
      · cases ht
      · rw [List.mem_singleton.mp ht]
    · split at ht
      · cases ht
      · rw [List.mem_singleton.mp ht]
  constructor
  · intro hquiet
    refine ⟨?_, ?_, ?_⟩
    · by_contra hnaked
      refine (hquiet ⟨4, "naked", .naked view.naked⟩ ?_).1 rfl
      simp [hnaked]
    · by_contra hpart
      refine (hquiet ⟨5, "partial", .partials view.partials⟩ ?_).2.1 rfl
      simp [hpart]
    · refine List.eq_nil_iff_forall_not_mem.mpr fun t ht => ?_
      refine (hquiet t ?_).2.2 (hstop t ht)
      exact List.mem_append_left _ (List.mem_append_right _ ht)
  · rintro ⟨hnaked, hpartial, hfill⟩ t ht
    rw [hnaked, hpartial, hfill, if_pos rfl, if_pos rfl] at ht
    simp only [List.append_nil, List.mem_append, List.mem_map] at ht
    rcases ht with ((ht | ht) | ht) | ⟨a, _, rfl⟩
    · split at ht
      · rw [List.mem_singleton.mp ht]
        simp
      · cases ht
    · split at ht
      · rw [List.mem_singleton.mp ht]
        simp
      · cases ht
    · split at ht
      · cases ht
      · rw [List.mem_singleton.mp ht]
        simp
    · simp

/-- What the account holds, by symbol. -/
def heldOf (account : AccountSnapshot) : List (String × ℤ) :=
  dictOf ((account.positions.filter fun p => 0 < p.quantity).map fun p => (p.symbol, p.quantity))

section

variable (hdistinct : (account.positions.map (·.symbol)).Nodup)

include hdistinct

theorem heldOf_eq : heldOf account =
    (account.positions.filter fun p => 0 < p.quantity).map fun p => (p.symbol, p.quantity) := by
  refine dictOf_nodup ?_
  rw [List.map_map]
  exact hdistinct.sublist (List.filter_sublist.map _)

theorem mem_heldOf {q : ℤ} : (s, q) ∈ heldOf account ↔
    ∃ p ∈ account.positions, 0 < p.quantity ∧ p.symbol = s ∧ p.quantity = q := by
  rw [heldOf_eq hdistinct]
  simp [and_assoc]

theorem lookup_heldOf_none : (heldOf account).lookup s = none ↔
    ∀ p ∈ account.positions, 0 < p.quantity → p.symbol ≠ s := by
  rw [List.lookup_eq_none_iff]
  constructor
  · intro h p hp hq heq
    have hmem := (mem_heldOf hdistinct (s := s)).mpr ⟨p, hp, hq, heq, rfl⟩
    simpa using h _ hmem
  · rintro h ⟨s', q⟩ he
    obtain ⟨p, hp, hq, heq, _⟩ := (mem_heldOf hdistinct).mp he
    have hne := h p hp hq
    rw [heq] at hne
    simpa using hne.symm

theorem naked_nil : (buildView account orders readAt).naked = [] ↔
    ∀ p ∈ account.positions, 0 < p.quantity → sellStopsOn orders p.symbol ≠ [] := by
  change (((heldOf account).filter fun e =>
    ((buildView account orders readAt).restingStops.lookup e.1).isNone).map (·.1)).mergeSort = [] ↔ _
  rw [← List.length_eq_zero_iff, List.length_mergeSort, List.length_map, List.length_eq_zero_iff,
    List.filter_eq_nil_iff]
  constructor
  · intro h p hp hq hnone
    refine h (p.symbol, p.quantity) ((mem_heldOf hdistinct).mpr ⟨p, hp, hq, rfl, rfl⟩) ?_
    rw [lookup_restingStops, firstStop_none.mpr hnone]
    rfl
  · rintro h ⟨s', q⟩ he hnone
    obtain ⟨p, hp, hq, rfl, _⟩ := (mem_heldOf hdistinct).mp he
    rw [lookup_restingStops, Option.isNone_iff_eq_none, firstStop_none] at hnone
    exact h p hp hq hnone

/-- A holding and its stop, where they differ in quantity. -/
private def shortStop (v : BookView) (e : String × ℤ) : Option (String × ℤ × ℤ) :=
  match v.restingStops.lookup e.1 with
  | none => none
  | some o => if o.quantity = e.2 then none else some (e.1, e.2, o.quantity)

theorem partials_nil : (buildView account orders readAt).partials = [] ↔
    ∀ p ∈ account.positions, 0 < p.quantity → ∀ o, firstStop orders p.symbol = some o →
      o.quantity = p.quantity := by
  change (heldOf account).filterMap (shortStop (buildView account orders readAt)) = [] ↔ _
  unfold shortStop
  rw [List.filterMap_eq_nil_iff]
  constructor
  · intro h p hp hq o ho
    have hnone := h (p.symbol, p.quantity) ((mem_heldOf hdistinct).mpr ⟨p, hp, hq, rfl, rfl⟩)
    rw [lookup_restingStops, ho] at hnone
    by_contra hne
    dsimp only at hnone
    rw [if_neg hne] at hnone
    cases hnone
  · rintro h ⟨s', q⟩ he
    obtain ⟨p, hp, hq, rfl, rfl⟩ := (mem_heldOf hdistinct).mp he
    rw [lookup_restingStops]
    cases hfirst : firstStop orders p.symbol with
    | none => rfl
    | some o => exact if_pos (h p hp hq o hfirst)

theorem orphanedStops_nil : (buildView account orders readAt).orphanedStops = [] ↔
    ∀ o ∈ orders, o.isSellStop = true →
      ∃ p ∈ account.positions, 0 < p.quantity ∧ p.symbol = o.symbol := by
  change (((buildView account orders readAt).restingStops.filter fun e =>
    ((heldOf account).lookup e.1).isNone).map (·.2)) = [] ↔ _
  rw [List.map_eq_nil_iff, List.filter_eq_nil_iff]
  constructor
  · intro h o ho hstop
    have hmem : o ∈ sellStopsOn orders o.symbol :=
      List.mem_filter.mpr ⟨ho, by simp [hstop]⟩
    cases hfirst : firstStop orders o.symbol with
    | none =>
      rw [firstStop_none] at hfirst
      rw [hfirst] at hmem
      cases hmem
    | some o' =>
      have hlook : (buildView account orders readAt).restingStops.lookup o.symbol = some o' := by
        rw [lookup_restingStops, hfirst]
      have hheld := h (o.symbol, o') (mem_of_lookup hlook)
      rw [Option.isNone_iff_eq_none, lookup_heldOf_none hdistinct] at hheld
      push Not at hheld
      exact hheld
  · rintro h ⟨s', o⟩ he hnone
    rw [Option.isNone_iff_eq_none, lookup_heldOf_none hdistinct] at hnone
    have hlook := lookup_of_mem restingStops_nodup he
    rw [lookup_restingStops] at hlook
    obtain ⟨ho, hstop, rfl⟩ := firstStop_mem hlook
    obtain ⟨p, hp, hq, heq⟩ := h o ho hstop
    exact hnone p hp hq heq

end

theorem duplicateStops_nil : (buildView account orders readAt).duplicateStops = [] ↔
    ∀ s, (sellStopsOn orders s).length ≤ 1 := by
  change ((stopsBySymbol orders).filter fun e => 1 < e.2.length) = [] ↔ _
  rw [List.filter_eq_nil_iff]
  constructor
  · intro h s
    by_contra hmore
    have hne : sellStopsOn orders s ≠ [] := fun hnil => hmore (by rw [hnil]; simp)
    have hlook := lookup_stopsBySymbol orders s
    rw [if_neg hne] at hlook
    have hshort := h _ (mem_of_lookup hlook)
    rw [List.length_mergeSort] at hshort
    simp only [decide_eq_true_eq] at hshort
    omega
  · rintro h ⟨s', rows⟩ he hmore
    have hlook := lookup_of_mem (stopsBySymbol_nodup orders) he
    rw [lookup_stopsBySymbol] at hlook
    split at hlook
    · cases hlook
    · cases hlook
      have hone := h s'
      simp only [List.length_mergeSort, decide_eq_true_eq] at hmore
      omega

theorem stopFillTrips_nil {view : BookView} {prior : List (String × ℤ)} :
    stopFillTrips view prior = [] ↔ goneSince prior view.account = [] ∧
      view.orphanedStops = [] ∧ view.duplicateStops = [] := by
  unfold stopFillTrips
  dsimp only
  have horphans : (view.orphanedStops.map orphanText).mergeSort = [] ↔ view.orphanedStops = [] := by
    rw [← List.length_eq_zero_iff, List.length_mergeSort, List.length_map, List.length_eq_zero_iff]
  have hdoubled : ((view.duplicateStops.map fun e => (e.1, e.2.map (·.orderId))).mergeSort
      fun e₁ e₂ => e₁.1 ≤ e₂.1) = [] ↔ view.duplicateStops = [] := by
    rw [← List.length_eq_zero_iff, List.length_mergeSort, List.length_map, List.length_eq_zero_iff]
  rw [List.append_eq_nil_iff]
  constructor
  · rintro ⟨hfill, hdup⟩
    constructor
    · by_contra hgone
      rw [if_neg fun hc => hgone hc.1] at hfill
      cases hfill
    · constructor
      · by_contra horph
        rw [if_neg fun hc => horph (horphans.mp hc.2)] at hfill
        cases hfill
      · by_contra hd
        rw [if_neg fun hc => hd (hdoubled.mp hc)] at hdup
        cases hdup
  · rintro ⟨hgone, horph, hdup⟩
    exact ⟨if_pos ⟨hgone, horphans.mpr horph⟩, if_pos (hdoubled.mpr hdup)⟩

/-- Positions that are not short: what is not gone is held. -/
theorem goneSince_nil {prior : List (String × ℤ)} (hlong : ∀ p ∈ account.positions, 0 ≤ p.quantity) :
    goneSince prior account = [] ↔ ∀ e ∈ prior, e.2 ≠ 0 →
      ∃ p ∈ account.positions, 0 < p.quantity ∧ p.symbol = e.1 := by
  unfold goneSince
  rw [← List.length_eq_zero_iff, List.length_mergeSort, List.length_map, List.length_eq_zero_iff,
    List.filter_eq_nil_iff]
  refine forall₂_congr fun e _ => ?_
  have hheld : account.held.contains e.1 = true ↔
      ∃ p ∈ account.positions, 0 < p.quantity ∧ p.symbol = e.1 := by
    unfold AccountSnapshot.held
    rw [List.contains_iff_mem, List.mem_map]
    constructor
    · rintro ⟨p, hp, hsym⟩
      obtain ⟨hmem, hq⟩ := List.mem_filter.mp hp
      have hne : p.quantity ≠ 0 := by simpa using hq
      have hnonneg := hlong p hmem
      exact ⟨p, hmem, by omega, hsym⟩
    · rintro ⟨p, hp, hq, hsym⟩
      have hne : p.quantity ≠ 0 := by omega
      exact ⟨p, List.mem_filter.mpr ⟨hp, by simpa using hne⟩, hsym⟩
  rw [← hheld]
  simp

/-- **Watches 4, 5 and 6 are exact.** On an account that lists every symbol
once and is nowhere short, a tick raises none of them exactly when every
position has its one stop. -/
theorem stopCoverage_exact (hdistinct : (account.positions.map (·.symbol)).Nodup)
    (hlong : ∀ p ∈ account.positions, 0 ≤ p.quantity) {prior : List (String × ℤ)}
    {hwm reserve : ℚ} {rules : Rules} {alerts : List ClockAlert} {trips : List Trip}
    (h : evaluateWatches (buildView account orders readAt) prior hwm rules reserve alerts =
      .ok trips) :
    ((∀ t ∈ trips, t.watch ≠ 4 ∧ t.watch ≠ 5 ∧ t.watch ≠ 6) ↔ Covered account orders prior) ∧
      (buildView account orders readAt).restingStopCount =
        (orders.filter (·.isSellStop)).length := by
  refine ⟨?_, restingStopCount_eq⟩
  have haccount : (buildView account orders readAt).account = account := rfl
  rw [quiet_iff h, stopFillTrips_nil, naked_nil hdistinct, partials_nil hdistinct,
    orphanedStops_nil hdistinct, duplicateStops_nil, haccount, goneSince_nil hlong]
  constructor
  · rintro ⟨hnaked, hpartial, hpresent, howned, hone⟩
    refine ⟨fun p hp hq => ?_, howned, hpresent⟩
    have hne := hnaked p hp hq
    have hlen := hone p.symbol
    obtain ⟨o, rest, hrows⟩ := List.exists_cons_of_ne_nil hne
    have hrest : rest = [] := by
      rw [hrows, List.length_cons] at hlen
      exact List.length_eq_zero_iff.mp (by omega)
    rw [hrest] at hrows
    exact ⟨o, hrows, hpartial p hp hq o (firstStop_one hrows)⟩
  · intro hc
    refine ⟨fun p hp hq hnil => ?_, fun p hp hq o ho => ?_, hc.present, hc.owned, fun s => ?_⟩
    · obtain ⟨o, ho, _⟩ := hc.stopped p hp hq
      rw [hnil] at ho
      cases ho
    · obtain ⟨o', ho', hqty⟩ := hc.stopped p hp hq
      rw [firstStop_one ho'] at ho
      exact Option.some.inj ho ▸ hqty
    · -- a symbol with a stop is held, and then the stop is alone
      cases hrows : sellStopsOn orders s with
      | nil => simp
      | cons o rest =>
        have hmem : o ∈ sellStopsOn orders s := hrows ▸ List.mem_cons_self
        obtain ⟨ho, hspec⟩ := List.mem_filter.mp hmem
        obtain ⟨hstop, hs⟩ := Bool.and_eq_true_iff.mp hspec
        obtain ⟨p, hp, hq, hsym⟩ := hc.owned o ho hstop
        obtain ⟨o', ho', _⟩ := hc.stopped p hp hq
        rw [hsym, beq_iff_eq.mp hs, hrows] at ho'
        rw [ho']
        simp

/-- Ten shares. -/
def tenAmh : AccountSnapshot :=
  ⟨"h1", 0, 100000, 90000, 0, 90000, 0, false,
    [⟨"AMH", "EQUITY", 10, some 40, 400, 0, 10⟩]⟩

/-- A stop on ten shares. -/
def stopAmh : OrderRow :=
  ⟨1, "WORKING", "STOP_LIMIT", "GOOD_TILL_CANCEL", 0, 10, 0, some 34, some 36,
    [⟨"SELL", 10, "AMH", "EQUITY"⟩]⟩

theorem stopCoverage_one : ∃ trips,
    evaluateWatches (buildView tenAmh [stopAmh] 0) [("AMH", 10)] 0 rulesYml 0 [] = .ok trips ∧
    (∀ t ∈ trips, t.watch ≠ 4 ∧ t.watch ≠ 5 ∧ t.watch ≠ 6) ∧
    (buildView tenAmh [stopAmh] 0).restingStopCount = 1 := by
  refine ⟨_, rfl, ?_⟩
  have htrips : evaluateWatches (buildView tenAmh [stopAmh] 0) [("AMH", 10)] 0 rulesYml 0 [] =
      .ok _ := rfl
  have hexact := stopCoverage_exact (by decide) (by decide) htrips
  refine ⟨hexact.1.mpr ⟨?_, by decide, by decide⟩, hexact.2⟩
  intro p hp _
  rw [List.mem_singleton.mp hp]
  exact ⟨stopAmh, by decide, rfl⟩

end TradeDesk.Loops
