import TradeDesk.Desk.Context

/-!
# How much, and whether the book can take it

`tc/desk/sizing.py`: pure arithmetic over a `BookState` snapshot, and the
share stop. Every cap is read from the rules.
-/

namespace TradeDesk.Desk

open TradeDesk.Async

/-- A name in the book. `pending` marks a proposal not yet filled or
finished, held at its worst case so that every cap sees money the book has
already promised. -/
structure Holding where
  symbol : String
  marketValue : ℚ
  benchmark : String
  isOption : Bool
  premiumPaid : ℚ
  pending : Bool
deriving DecidableEq, Repr

structure BookState where
  equity : ℚ
  cash : ℚ
  holdings : List Holding
deriving DecidableEq, Repr

namespace BookState

def positions (b : BookState) : ℕ := b.holdings.countP fun h => !h.pending

def pending (b : BookState) : ℕ := b.holdings.countP fun h => h.pending

/-- Premium paid on open option positions plus the worst case of the
pending ones; marks irrelevant. -/
def openPremium (b : BookState) : ℚ :=
  ((b.holdings.filter fun h => h.isOption).map (·.premiumPaid)).sum

end BookState

def optionMultiplier : ℚ := 100

def convictionPct (isOption : Bool) (conviction : ℕ) (rules : Rules) : Except Exc ℚ := do
  refuseIf ((conviction : ℤ) < (← rules.getInt .strategy "min_fundable_conviction"))
    (.sizingRefused (.unfundable conviction))
  let prefixBase :=
    if isOption then "size_option_premium_pct_conviction_" else "size_shares_pct_conviction_"
  rules.get .strategy (prefixBase ++ toString conviction)

/-- `int(budget // per)`, where a zero divisor raises. -/
def wholeUnits (budget per : ℚ) : Except Exc ℤ :=
  if per = 0 then .error .divisionByZero else .ok (truncInt (budget / per))

def shareQuantity (conviction : ℕ) (equity maxEntry : ℚ) (rules : Rules) : Except Exc ℤ := do
  let budget := capDollars (← convictionPct false conviction rules) equity
  let qty ← wholeUnits budget maxEntry
  refuseIf (qty < 1) (.sizingRefused (.noWholeShare conviction budget maxEntry))
  return qty

def optionQuantity (conviction : ℕ) (equity ask : ℚ) (rules : Rules) : Except Exc ℤ := do
  let budget := capDollars (← convictionPct true conviction rules) equity
  let per := ask * optionMultiplier
  let qty ← wholeUnits budget per
  refuseIf (qty < 1) (.sizingRefused (.noContract conviction (cents per) budget))
  return qty

def marketValueOf (hs : List Holding) : ℚ := (hs.map (·.marketValue)).sum

def checkBook (book : BookState) (symbol benchmark : String) (notional : ℚ) (isOption : Bool)
    (correlated : List String) (rules : Rules) (reserve : ℚ) : Except Exc Unit := do
  let maxPos ← rules.getInt .strategy "max_funded_positions"
  refuseIf (maxPos ≤ book.holdings.length)
    (.sizingRefused (.bookFull book.positions book.pending maxPos))
  refuseIf (book.cash - notional < reserve)
    (.sizingRefused (.reserve (cents book.cash) (cents notional) reserve))
  let same := marketValueOf (book.holdings.filter fun h => h.symbol == symbol)
  let singlePct ← rules.singlePositionPct
  refuseIf (capDollars singlePct book.equity < same + notional)
    (.sizingRefused (.sameName symbol (cents notional) (cents same) singlePct (cents book.equity)))
  if isOption then
    let optionPct ← rules.optionSinglePositionPct
    refuseIf (capDollars optionPct book.equity < notional)
      (.sizingRefused (.optionCap (cents notional) optionPct book.equity))
    let premiumPct ← rules.optionOpenPremiumPct
    refuseIf (capDollars premiumPct book.equity < book.openPremium + notional)
      (.sizingRefused (.openPremium book.openPremium (cents notional) premiumPct))
  let cluster := book.holdings.filter fun h =>
    h.symbol == symbol || correlated.contains h.symbol ||
      (benchmark != "SPY" && h.benchmark == benchmark)
  let capPct ← rules.get .manual "correlation_cap_pct"
  let held := marketValueOf cluster
  refuseIf (capDollars capPct book.equity < held + notional)
    (.sizingRefused (.cluster symbol held (cents notional) capPct))

/-- The trigger is the higher of the formula and the call's invalidation: a
trigger may be raised, never lowered. Trigger rounded up, limit down. -/
def entryStop (fill atrPct invalidation : ℚ) (rules : Rules) : Except Exc StopGeometry := do
  let formula ← stopGeometry fill atrPct rules
  let trigger := max formula.trigger (ceilCents invalidation)
  refuseIf (fill ≤ trigger) (.sizingRefused (.stopAboveFill trigger fill))
  let limit := floorCents (trigger * (100 - (← rules.stopLimitPctBelowTrigger)) / 100)
  return ⟨trigger, limit, (fill - trigger) / fill * 100⟩

/-! ## What passing a check means -/

/-- **A book that passes takes the order.** There is a slot for it, and
paying for it leaves the reserve. -/
theorem checkBook_ok {book : BookState} {symbol benchmark : String} {notional : ℚ}
    {isOption : Bool} {correlated : List String} {rules : Rules} {reserve : ℚ} {u : Unit}
    (h : checkBook book symbol benchmark notional isOption correlated rules reserve = .ok u) :
    (∃ maxPos, rules.getInt .strategy "max_funded_positions" = .ok maxPos ∧
      (book.holdings.length : ℤ) < maxPos) ∧ reserve ≤ book.cash - notional := by
  obtain ⟨maxPos, hmax, h⟩ := except_bind_ok h
  obtain ⟨_, hfull, h⟩ := except_bind_ok h
  obtain ⟨_, hcash, h⟩ := except_bind_ok h
  exact ⟨⟨maxPos, hmax, not_le.mp (refuseIf_ok hfull)⟩, not_lt.mp (refuseIf_ok hcash)⟩

/-- The names the check of a new order adds up. -/
def checkedCluster (book : BookState) (symbol benchmark : String) (correlated : List String) :
    List Holding :=
  book.holdings.filter fun h =>
    h.symbol == symbol || correlated.contains h.symbol ||
      (benchmark != "SPY" && h.benchmark == benchmark)

/-- The order fits under the cap of its cluster, and an option under the cap
of one option. -/
theorem checkBook_caps {book : BookState} {symbol benchmark : String} {notional : ℚ}
    {isOption : Bool} {correlated : List String} {rules : Rules} {reserve : ℚ} {u : Unit}
    (h : checkBook book symbol benchmark notional isOption correlated rules reserve = .ok u) :
    (∃ capPct, rules.get .manual "correlation_cap_pct" = .ok capPct ∧
      marketValueOf (checkedCluster book symbol benchmark correlated) + notional ≤
        capDollars capPct book.equity) ∧
      (isOption = true → ∃ pct, rules.optionSinglePositionPct = .ok pct ∧
        notional ≤ capDollars pct book.equity) := by
  obtain ⟨_, _, h⟩ := except_bind_ok h
  obtain ⟨_, _, h⟩ := except_bind_ok h
  obtain ⟨_, _, h⟩ := except_bind_ok h
  obtain ⟨_, _, h⟩ := except_bind_ok h
  obtain ⟨_, _, h⟩ := except_bind_ok h
  cases isOption with
  | false =>
    obtain ⟨capPct, hcap, h⟩ := except_bind_ok h
    exact ⟨⟨capPct, hcap, not_lt.mp (refuseIf_ok h)⟩, fun ho => by cases ho⟩
  | true =>
    obtain ⟨pct, hpct, h⟩ := except_bind_ok h
    obtain ⟨_, hone, h⟩ := except_bind_ok h
    obtain ⟨_, _, h⟩ := except_bind_ok h
    obtain ⟨_, _, h⟩ := except_bind_ok h
    obtain ⟨capPct, hcap, h⟩ := except_bind_ok h
    exact ⟨⟨capPct, hcap, not_lt.mp (refuseIf_ok h)⟩,
      fun _ => ⟨pct, hpct, not_lt.mp (refuseIf_ok hone)⟩⟩

/-- A quantity that sizing returns is at least one unit of a price that is
not zero. -/
theorem shareQuantity_ok {conviction : ℕ} {equity maxEntry : ℚ} {rules : Rules} {qty : ℤ}
    (h : shareQuantity conviction equity maxEntry rules = .ok qty) : 1 ≤ qty := by
  obtain ⟨_, _, h⟩ := except_bind_ok h
  obtain ⟨_, _, h⟩ := except_bind_ok h
  obtain ⟨_, hq, h⟩ := except_bind_ok h
  cases h
  exact not_lt.mp (refuseIf_ok hq)

theorem optionQuantity_ok {conviction : ℕ} {equity ask : ℚ} {rules : Rules} {qty : ℤ}
    (h : optionQuantity conviction equity ask rules = .ok qty) : 1 ≤ qty ∧ ask ≠ 0 := by
  obtain ⟨_, _, h⟩ := except_bind_ok h
  obtain ⟨_, hw, h⟩ := except_bind_ok h
  obtain ⟨_, hq, h⟩ := except_bind_ok h
  cases h
  refine ⟨not_lt.mp (refuseIf_ok hq), ?_⟩
  rintro rfl
  simp [wholeUnits] at hw

/-- The stop of a share entry is at or above its invalidation's cent and
below the fill. -/
theorem entryStop_ok {fill atrPct invalidation : ℚ} {rules : Rules} {g : StopGeometry}
    (h : entryStop fill atrPct invalidation rules = .ok g) :
    ceilCents invalidation ≤ g.trigger ∧ g.trigger < fill := by
  obtain ⟨f, _, h⟩ := except_bind_ok h
  obtain ⟨_, hf, h⟩ := except_bind_ok h
  obtain ⟨_, _, h⟩ := except_bind_ok h
  cases h
  exact ⟨le_max_right _ _, not_le.mp (refuseIf_ok hf)⟩

end TradeDesk.Desk
