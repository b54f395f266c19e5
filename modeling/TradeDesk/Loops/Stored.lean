import TradeDesk.Loops.Coverage
import TradeDesk.Loops.Mark

/-!
# The stops the store shows

`Store.resting_stops_on` (`tc/store/db.py`) rebuilds a day's stop map from
the rows `reconcile` left, for the shadow diff and the book tool. The live
map is `build_view`'s. The two reduce the same orders with rules of their
own: the store takes every resting stop with two prices, whatever its side
and legs, and the last one of a symbol stays; the view takes single-leg
sells, the earliest of a symbol. A read that returned no order leaves no
row, so the store goes on showing the read before it.

`shownStop` and `firstStop` say which order each of them picks for a symbol,
and the maps agree exactly when the picks do (`restingStopsOn_iff`).
-/

namespace TradeDesk.Loops

open TradeDesk.Async

/-- The engine's clock is UTC, so the date a read is filed under, the first
ten characters of its time, is the UTC date. -/
def utcDate (i : Instant) : Date := (Zone.fixed 0).date i

/-- The trigger and the limit of an order that has both. -/
def OrderRow.limits (o : OrderRow) : Option (ℚ × ℚ) :=
  match o.stopPrice, o.price with
  | some stop, some limit => some (stop, limit)
  | _, _ => none

namespace Ledger

variable (l : Ledger)

/-- `ORDER BY read_at DESC LIMIT 1`: times of one offset sort as their
texts do. -/
def newestOrderRead (d : Date) : Option Instant :=
  ((l.orderSnapshots.map (·.readAt)).filter fun i => utcDate i == d).max?

/-- The resting stop map of the newest order read of a date. -/
def restingStopsOn (d : Date) : List (String × ℚ × ℚ) :=
  match l.newestOrderRead d with
  | none => []
  | some newest =>
    (l.orderSnapshots.filter fun r => r.readAt == newest).foldl (fun result r =>
      if !stopTypes.contains r.order.orderType || !resting.contains r.order.status then result
      else match r.order.stopPrice, r.order.price with
        | some stop, some price => setItem result r.order.symbol (stop, price)
        | _, _ => result) []

end Ledger

/-- The live map, of the stops that have both prices. -/
def BookView.stopLimits (v : BookView) : List (String × ℚ × ℚ) :=
  v.restingStops.filterMap fun e => e.2.limits.map fun limits => (e.1, limits)

/-! ## The order the store shows -/

/-- A resting stop with both prices. -/
def OrderRow.isPricedStop (o : OrderRow) : Bool := o.isRestingStop && o.limits.isSome

/-- The row that stays for a symbol: the last. -/
def shownStop (rows : List OrderRow) (s : String) : Option OrderRow :=
  (rows.filter fun o => o.isPricedStop && o.symbol == s).getLast?

/-- One row of the store's loop. -/
private def showStop (result : List (String × ℚ × ℚ)) (o : OrderRow) : List (String × ℚ × ℚ) :=
  if !stopTypes.contains o.orderType || !resting.contains o.status then result
  else match o.stopPrice, o.price with
    | some stop, some price => setItem result o.symbol (stop, price)
    | _, _ => result

private theorem showStop_eq (result : List (String × ℚ × ℚ)) (o : OrderRow) :
    showStop result o = if o.isRestingStop = true then
      match o.limits with
      | some limits => setItem result o.symbol limits
      | none => result
    else result := by
  unfold showStop OrderRow.limits OrderRow.isRestingStop
  cases resting.contains o.status with
  | false => simp
  | true =>
    cases stopTypes.contains o.orderType with
    | false => simp
    | true =>
      cases o.stopPrice with
      | none => simp
      | some stop =>
        cases o.price with
        | none => simp
        | some price => simp

private theorem lookup_showStop (result : List (String × ℚ × ℚ)) (o : OrderRow) (s : String) :
    (showStop result o).lookup s =
      if (o.isPricedStop && o.symbol == s) = true then o.limits else result.lookup s := by
  rw [showStop_eq]
  unfold OrderRow.isPricedStop
  cases o.isRestingStop with
  | false => simp
  | true =>
    cases hl : o.limits with
    | none => simp
    | some limits =>
      simp only [if_true, Bool.true_and, Option.isSome_some, beq_iff_eq]
      rw [lookup_setItem]
      by_cases hs : s = o.symbol
      · rw [if_pos hs, if_pos hs.symm]
      · rw [if_neg hs, if_neg fun heq => hs heq.symm]

private theorem lookup_foldl_showStop (rows : List OrderRow) (s : String) :
    (rows.foldl showStop []).lookup s = (shownStop rows s).bind OrderRow.limits := by
  unfold shownStop
  induction rows using List.reverseRecOn with
  | nil => rfl
  | append_singleton rows o ih =>
    rw [List.foldl_append, List.foldl_cons, List.foldl_nil, lookup_showStop, List.filter_append]
    rw [List.filter_cons, List.filter_nil]
    by_cases ho : (o.isPricedStop && o.symbol == s) = true
    · rw [if_pos ho, if_pos ho, List.getLast?_append]
      rfl
    · rw [if_neg ho, if_neg ho, List.append_nil]
      exact ih

/-- The rows of the newest read, as orders. -/
def Ledger.newestRows (l : Ledger) (d : Date) : List OrderRow :=
  match l.newestOrderRead d with
  | none => []
  | some newest => (l.orderSnapshots.filter fun r => r.readAt == newest).map (·.order)

theorem lookup_restingStopsOn (l : Ledger) (d : Date) (s : String) :
    (l.restingStopsOn d).lookup s = (shownStop (l.newestRows d) s).bind OrderRow.limits := by
  unfold Ledger.restingStopsOn Ledger.newestRows
  cases l.newestOrderRead d with
  | none => rfl
  | some newest =>
    dsimp only
    rw [← lookup_foldl_showStop, List.foldl_map]
    rfl

theorem shownStop_some {rows : List OrderRow} {s : String} {o : OrderRow}
    (h : shownStop rows s = some o) : o ∈ rows ∧ o.isPricedStop = true ∧ o.symbol = s := by
  obtain ⟨hmem, hspec⟩ := List.mem_filter.mp (List.mem_of_getLast? h)
  obtain ⟨hpriced, hs⟩ := Bool.and_eq_true_iff.mp hspec
  exact ⟨hmem, hpriced, beq_iff_eq.mp hs⟩

theorem shownStop_none {rows : List OrderRow} {s : String} (h : shownStop rows s = none)
    {o : OrderRow} (ho : o ∈ rows) (hpriced : o.isPricedStop = true) : o.symbol ≠ s := by
  intro hs
  rw [shownStop, List.getLast?_eq_none_iff, List.filter_eq_nil_iff] at h
  exact h o ho (by simp [hpriced, hs])

/-! ## The order the view picks -/

theorem lookup_stopLimits {account : AccountSnapshot} {orders : List OrderRow} {readAt : Instant}
    (s : String) : (buildView account orders readAt).stopLimits.lookup s =
      (firstStop orders s).bind OrderRow.limits := by
  unfold BookView.stopLimits
  have hview : (buildView account orders readAt).restingStops.lookup s = firstStop orders s :=
    lookup_restingStops
  have hnd : ((buildView account orders readAt).restingStops.map (·.1)).Nodup := restingStops_nodup
  rw [← hview]
  clear hview
  generalize (buildView account orders readAt).restingStops = d at hnd
  induction d with
  | nil => rfl
  | cons e d ih =>
    rw [List.map_cons, List.nodup_cons] at hnd
    have ih := ih hnd.2
    rw [List.filterMap_cons, List.lookup_cons]
    by_cases hs : s = e.1
    · rw [beq_iff_eq.mpr hs, Option.bind_some]
      cases hl : e.2.limits with
      | some limits =>
        rw [Option.map_some]
        dsimp only
        rw [List.lookup_cons, beq_iff_eq.mpr hs]
      | none =>
        -- its symbol has no other item
        rw [Option.map_none]
        dsimp only
        have hnone : d.lookup s = none := by
          rw [List.lookup_eq_none_iff]
          intro x hx
          have hne : e.1 ≠ x.1 := fun heq => hnd.1 (heq ▸ List.mem_map_of_mem hx)
          simpa [hs] using hne
        rw [ih, hnone]
        rfl
    · rw [beq_eq_false_iff_ne.mpr hs]
      cases e.2.limits with
      | some limits =>
        rw [Option.map_some]
        dsimp only
        rw [List.lookup_cons, beq_eq_false_iff_ne.mpr hs]
        exact ih
      | none => exact ih

/-! ## Reads -/

/-- The store after one reconcile after another, and the views they
returned. -/
inductive Reconciled (cfg : LoopSettings) (start : Ledger) : List BookView → Ledger → Prop
  | none : Reconciled cfg start [] start
  | read {reads : List BookView} {l l' : Ledger} {accountHash : String} {now : Instant}
      {history history' : LoopHistory} {view : BookView} : Reconciled cfg start reads l →
      Runs AnyAnswer (reconcile cfg accountHash now) history l (.ok view) history' l' →
      Reconciled cfg start (reads ++ [view]) l'

/-- What a reconcile leaves behind: the account, and a row an order. -/
theorem reconcile_leaves {cfg : LoopSettings} {accountHash : String} {now : Instant}
    {history history' : LoopHistory} {l l' : Ledger} {view : BookView}
    (hr : Runs AnyAnswer (reconcile cfg accountHash now) history l (.ok view) history' l') :
    ∃ account orders, view = buildView account orders now ∧
      l' = (l.recordAccount account).recordOrders accountHash orders now := by
  have hdone : Always AnyAnswer (fun _ _ _ => True) (fun r _ l' => ∀ view, r = .ok view →
      ∃ account orders, view = buildView account orders now ∧
        l' = (l.recordAccount account).recordOrders accountHash orders now)
      (reconcile cfg accountHash now) history l := by
    unfold reconcile broker
    rw [always_bind]
    refine always_query_bind fun answer _ => (always_check _).mpr ?_
    cases answer with
    | error e => exact fun view hv => by cases hv
    | ok account =>
      show Always AnyAnswer _ _ _ _ _
      rw [always_bind]
      refine always_query_bind fun answer _ => (always_check _).mpr ?_
      cases answer with
      | error e => exact fun view hv => by cases hv
      | ok orders =>
        refine always_update_bind trivial (always_update_bind trivial ?_)
        intro view hv
        cases hv
        exact ⟨account, orders, rfl, rfl⟩
  exact Always.runs hdone hr view rfl

/-- The rows a sequence of reads leaves: each read's time, on each order. -/
def readRows (reads : List BookView) : List (Instant × OrderRow) :=
  reads.flatMap fun v => v.orders.map fun o => (v.readAt, o)

theorem Reconciled.rows {cfg : LoopSettings} {start l : Ledger} {reads : List BookView}
    (h : Reconciled cfg start reads l) :
    l.orderSnapshots.map (fun r => (r.readAt, r.order)) =
      start.orderSnapshots.map (fun r => (r.readAt, r.order)) ++ readRows reads := by
  induction h with
  | none => exact (List.append_nil _).symm
  | read _ hr ih =>
    obtain ⟨account, orders, rfl, rfl⟩ := reconcile_leaves hr
    unfold readRows at ih ⊢
    rw [List.flatMap_append, ← List.append_assoc, ← ih]
    simp [Ledger.recordOrders, Ledger.recordAccount, buildView]

theorem Reconciled.view {cfg : LoopSettings} {start l : Ledger} {reads : List BookView}
    {view : BookView} (h : Reconciled cfg start (reads ++ [view]) l) :
    view = buildView view.account view.orders view.readAt := by
  generalize hall : reads ++ [view] = all at h
  cases h with
  | none => simp at hall
  | read _ hr =>
    obtain ⟨account, orders, rfl, _⟩ := reconcile_leaves hr
    obtain ⟨_, hlast⟩ := List.append_inj' hall rfl
    cases hlast
    rfl

/-! ## The newest read -/

/-- The orders of the newest read that returned one: of every read of its
time. -/
def newestOrders (reads : List BookView) : List OrderRow :=
  match ((reads.filter fun v => !v.orders.isEmpty).map (·.readAt)).max? with
  | none => []
  | some newest => (reads.filter fun v => v.readAt == newest).flatMap (·.orders)

private theorem max?_of_mem {xs ys : List ℤ} (h : ∀ a, a ∈ xs ↔ a ∈ ys) : xs.max? = ys.max? := by
  refine Option.ext fun a => ?_
  rw [List.max?_eq_some_iff, List.max?_eq_some_iff, h a]
  exact and_congr_right fun _ => forall_congr' fun b => imp_congr_left (h b)

private theorem filter_readRows (reads : List BookView) (newest : Instant) :
    ((readRows reads).filter fun e => e.1 == newest).map (·.2) =
      (reads.filter fun v => v.readAt == newest).flatMap (·.orders) := by
  unfold readRows
  induction reads with
  | nil => rfl
  | cons v reads ih =>
    rw [List.flatMap_cons, List.filter_append, List.map_append, ih, List.filter_cons]
    by_cases hv : (v.readAt == newest) = true
    · simp [List.filter_map, Function.comp_def, hv]
    · simp [List.filter_map, Function.comp_def, hv]

theorem Reconciled.newestRows {cfg : LoopSettings} {start l : Ledger} {reads : List BookView}
    {d : Date} (h : Reconciled cfg start reads l)
    (hstart : ∀ r ∈ start.orderSnapshots, utcDate r.readAt ≠ d)
    (hreads : ∀ v ∈ reads, utcDate v.readAt = d) : l.newestRows d = newestOrders reads := by
  have htimes : l.orderSnapshots.map (·.readAt) =
      start.orderSnapshots.map (·.readAt) ++ (readRows reads).map (·.1) := by
    have hrows := congrArg (List.map (·.1)) h.rows
    simpa [Function.comp_def] using hrows
  have hnewest : l.newestOrderRead d =
      ((reads.filter fun v => !v.orders.isEmpty).map (·.readAt)).max? := by
    unfold Ledger.newestOrderRead
    refine max?_of_mem fun i => ?_
    rw [htimes]
    simp only [List.mem_filter, List.mem_append, List.mem_map, readRows, List.mem_flatMap,
      beq_iff_eq]
    constructor
    · rintro ⟨⟨r, hr, rfl⟩ | ⟨e, ⟨v, hv, o, ho, rfl⟩, rfl⟩, hd⟩
      · exact absurd hd (hstart r hr)
      · exact ⟨v, ⟨hv, by simpa using List.ne_nil_of_mem ho⟩, rfl⟩
    · rintro ⟨v, ⟨hv, hne⟩, rfl⟩
      obtain ⟨o, ho⟩ := List.exists_mem_of_ne_nil v.orders (by simpa using hne)
      exact ⟨.inr ⟨_, ⟨v, hv, o, ho, rfl⟩, rfl⟩, hreads v hv⟩
  unfold Ledger.newestRows newestOrders
  rw [hnewest]
  cases hmax : ((reads.filter fun v => !v.orders.isEmpty).map (·.readAt)).max? with
  | none => rfl
  | some newest =>
    dsimp only
    obtain ⟨hmem, _⟩ := List.max?_eq_some_iff.mp hmax
    obtain ⟨v, hv, hat⟩ := List.mem_map.mp hmem
    have hd : utcDate newest = d := hat ▸ hreads v (List.mem_filter.mp hv).1
    -- no row from before the reads has this time
    have hold : (start.orderSnapshots.map fun r => (r.readAt, r.order)).filter
        (fun e => e.1 == newest) = [] := by
      rw [List.filter_eq_nil_iff]
      intro e he heq
      obtain ⟨r, hr, rfl⟩ := List.mem_map.mp he
      exact hstart r hr (by rw [← hd]; exact congrArg utcDate (beq_iff_eq.mp heq))
    have hrows := congrArg (fun rows => (rows.filter fun e => e.1 == newest).map (·.2)) h.rows
    rw [List.filter_append, hold, List.nil_append, filter_readRows] at hrows
    rw [← hrows, List.filter_map, List.map_map]
    rfl

/-- The store and the view pick orders with the same prices, for every
symbol they pick one for. -/
structure StopsKept (reads : List BookView) (last : BookView) : Prop where
  shown : ∀ s o, shownStop (newestOrders reads) s = some o →
    ∃ e, firstStop last.orders s = some e ∧ e.limits = o.limits
  kept : ∀ s e, firstStop last.orders s = some e → e.limits.isSome = true →
    ∃ o ∈ newestOrders reads, o.isPricedStop = true ∧ o.symbol = s

theorem isPricedStop_limits {o : OrderRow} (h : o.isPricedStop = true) :
    ∃ limits, o.limits = some limits :=
  Option.isSome_iff_exists.mp (Bool.and_eq_true_iff.mp h).2

/-- **The stored stops are the live stops exactly when both pick alike.** -/
theorem restingStopsOn_iff {cfg : LoopSettings} {start l : Ledger} {reads : List BookView}
    {last : BookView} {d : Date} (h : Reconciled cfg start (reads ++ [last]) l)
    (hstart : ∀ r ∈ start.orderSnapshots, utcDate r.readAt ≠ d)
    (hreads : ∀ v ∈ reads ++ [last], utcDate v.readAt = d) :
    (∀ s, (l.restingStopsOn d).lookup s = last.stopLimits.lookup s) ↔
      StopsKept (reads ++ [last]) last := by
  have hview (s : String) : last.stopLimits.lookup s =
      (firstStop last.orders s).bind OrderRow.limits := by
    rw [h.view]
    exact lookup_stopLimits s
  have hsame : (∀ s, (l.restingStopsOn d).lookup s = last.stopLimits.lookup s) ↔
      ∀ s, (shownStop (newestOrders (reads ++ [last])) s).bind OrderRow.limits =
        (firstStop last.orders s).bind OrderRow.limits := by
    refine forall_congr' fun s => ?_
    rw [lookup_restingStopsOn, h.newestRows hstart hreads, hview]
  rw [hsame]
  constructor
  · intro hall
    constructor
    · intro s o ho
      have hs := hall s
      obtain ⟨limits, hl⟩ := isPricedStop_limits (shownStop_some ho).2.1
      rw [ho, Option.bind_some, hl] at hs
      obtain ⟨e, he, hel⟩ := Option.bind_eq_some_iff.mp hs.symm
      exact ⟨e, he, hel.trans hl.symm⟩
    · intro s e he hsome
      have hs := hall s
      obtain ⟨limits, hl⟩ := Option.isSome_iff_exists.mp hsome
      rw [he, Option.bind_some, hl] at hs
      obtain ⟨o, ho, _⟩ := Option.bind_eq_some_iff.mp hs
      obtain ⟨hmem, hpriced, hsym⟩ := shownStop_some ho
      exact ⟨o, hmem, hpriced, hsym⟩
  · rintro ⟨hshown, hkept⟩ s
    cases ho : shownStop (newestOrders (reads ++ [last])) s with
    | some o =>
      obtain ⟨e, he, hel⟩ := hshown s o ho
      rw [he, Option.bind_some, Option.bind_some, hel]
    | none =>
      rw [Option.bind_none]
      cases he : firstStop last.orders s with
      | none => rfl
      | some e =>
        rw [Option.bind_some]
        cases hl : e.limits with
        | none => rfl
        | some limits =>
          obtain ⟨o, hmem, hpriced, hsym⟩ := hkept s e he (by rw [hl]; rfl)
          exact absurd hsym (shownStop_none ho hmem hpriced)

/-- A book as the desk leaves it, read alone and last: every resting stop
with two prices is a single-leg sell, and the one of its symbol. -/
theorem stopsKept_plain {reads : List BookView} {last : BookView}
    (hnewest : ∀ v ∈ reads, v.readAt < last.readAt) (hne : last.orders ≠ [])
    (hsell : ∀ o ∈ last.orders, o.isPricedStop = true → sellStopsOn last.orders o.symbol = [o]) :
    StopsKept (reads ++ [last]) last := by
  have hmax : (((reads ++ [last]).filter fun v => !v.orders.isEmpty).map (·.readAt)).max? =
      some last.readAt := by
    rw [List.max?_eq_some_iff]
    constructor
    · exact List.mem_map_of_mem (List.mem_filter.mpr ⟨by simp, by simpa using hne⟩)
    · intro i hi
      obtain ⟨v, hv, rfl⟩ := List.mem_map.mp hi
      rcases List.mem_append.mp (List.mem_filter.mp hv).1 with hv | hv
      · exact (hnewest v hv).le
      · rw [List.mem_singleton.mp hv]
  have hrows : newestOrders (reads ++ [last]) = last.orders := by
    have hold : reads.filter (fun v => v.readAt == last.readAt) = [] := by
      rw [List.filter_eq_nil_iff]
      intro v hv heq
      exact (hnewest v hv).ne (beq_iff_eq.mp heq)
    unfold newestOrders
    rw [hmax]
    dsimp only
    rw [List.filter_append, hold]
    simp
  constructor
  · intro s o ho
    rw [hrows] at ho
    obtain ⟨hmem, hpriced, rfl⟩ := shownStop_some ho
    exact ⟨o, firstStop_one (hsell o hmem hpriced), rfl⟩
  · intro s e he hsome
    rw [hrows]
    obtain ⟨hmem, hstop, hsym⟩ := firstStop_mem he
    have hresting : e.isRestingStop = true := by
      unfold OrderRow.isSellStop at hstop
      split at hstop
      · exact (Bool.and_eq_true_iff.mp hstop).1
      · cases hstop
    exact ⟨e, hmem, Bool.and_eq_true_iff.mpr ⟨hresting, hsome⟩, hsym⟩

/-- A broker with that account and those orders. -/
def reading (account : AccountSnapshot) (orders : List OrderRow) : (q : LoopQuery) → LoopAnswer q
  | .accountHashes => .ok [account.accountHash]
  | .account _ => .ok account
  | .orders _ _ _ => .ok orders
  | .quotes _ => .ok []
  | .postClose _ => true

theorem Reconciled.reading {cfg : LoopSettings} {start l : Ledger} {reads : List BookView}
    (h : Reconciled cfg start reads l) (account : AccountSnapshot) (orders : List OrderRow)
    (now : Instant) : Reconciled cfg start (reads ++ [buildView account orders now])
      ((l.recordAccount account).recordOrders account.accountHash orders now) := by
  have hany : ∀ q, AnyAnswer q (Loops.reading account orders q) := fun _ => trivial
  obtain ⟨history, hruns⟩ := runWith_runs (p := reconcile cfg account.accountHash now) (h := [])
    (s := l) hany rfl rfl
  exact h.read hruns

/-- A stop that filled or was cancelled, and no order after it: the store
still shows the stop. -/
theorem restingStopsOn_stale : ¬ ∀ (cfg : LoopSettings) (start l : Ledger)
    (reads : List BookView) (last : BookView) (d : Date),
    Reconciled cfg start (reads ++ [last]) l →
    (∀ r ∈ start.orderSnapshots, utcDate r.readAt ≠ d) →
    (∀ v ∈ reads ++ [last], utcDate v.readAt = d) →
    ∀ s, (l.restingStopsOn d).lookup s = last.stopLimits.lookup s := by
  intro hall
  have hnone : Reconciled engineSettings unseeded [] unseeded := .none
  have hone := hnone.reading tenAmh [stopAmh] 0
  have htwo := hone.reading tenAmh [] minute
  have hsame := hall _ _ _ _ _ 0 htwo (by decide) (by decide) "AMH"
  revert hsame
  decide +kernel

/-- The next read shows the stop again, and so does the store. -/
theorem restingStopsOn_read : ∃ l, Reconciled engineSettings unseeded
    [buildView tenAmh [] 0, buildView tenAmh [stopAmh] minute] l ∧
    ∀ s, (l.restingStopsOn 0).lookup s =
      (buildView tenAmh [stopAmh] minute).stopLimits.lookup s := by
  have hnone : Reconciled engineSettings unseeded [] unseeded := .none
  have hone := hnone.reading tenAmh [] 0
  have htwo := hone.reading tenAmh [stopAmh] minute
  refine ⟨_, htwo, ?_⟩
  refine (restingStopsOn_iff htwo (by decide) (by decide)).mpr ?_
  refine stopsKept_plain (by decide) (by decide) ?_
  intro o ho _
  rw [List.mem_singleton.mp ho]
  decide

end TradeDesk.Loops
