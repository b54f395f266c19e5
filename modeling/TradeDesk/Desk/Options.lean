import TradeDesk.Desk.Context

/-!
# Which contract

`tc/desk/options.py`: of a chain, the contracts that clear every floor of
the manual, ranked toward the strategy's target delta; the model picks
from the first three and nothing else.
-/

namespace TradeDesk.Desk

open TradeDesk.Async

/-- Long enough to outlast the horizon and the close before expiry, plus a
week, never under the manual's own floor. -/
def minDte (horizonDays : ℤ) (rules : Rules) : Except Exc ℤ := do
  let calendar := -((-horizonDays * 7) / 5)
  let floor ← rules.optionMinDte
  return max floor (calendar + (← rules.optionCloseAtDte) + 7)

def deltaBand (rules : Rules) : Except Exc (ℚ × ℚ) := do
  let lo := max (← rules.get .manual "option_min_delta") (← rules.get .strategy "option_min_delta")
  return (lo, ← rules.get .manual "option_max_delta")

/-- What `select` ranks a contract by: its distance from the target delta,
its spread, its open interest. -/
structure Ranked where
  distance : ℚ
  spread : ℚ
  openInterest : ℤ
  contract : OptionContract

def Ranked.le (a b : Ranked) : Bool :=
  a.distance < b.distance ∨ a.distance = b.distance ∧
    (a.spread < b.spread ∨ a.spread = b.spread ∧ b.openInterest ≤ a.openInterest)

def kindOf : Direction → OptionKind
  | .up => .call
  | .down => .put

def select (chain : List OptionContract) (direction : Direction) (horizonDays : ℤ)
    (premiumCap : ℚ) (rules : Rules) : Except Exc (List OptionContract) := do
  let loDte ← minDte horizonDays rules
  let hiDte ← rules.getInt .strategy "option_max_dte"
  let (dLo, dHi) ← deltaBand rules
  let target ← rules.get .strategy "option_target_delta"
  let minOi ← rules.getInt .manual "option_min_open_interest"
  let maxSpread ← rules.get .manual "option_max_spread_pct_of_mid"
  let ranked := chain.filterMap fun c => match c.delta with
    | none => none
    | some delta =>
      let d := |delta|
      let spread := (c.ask - c.bid) / ((c.bid + c.ask) / 2) * 100
      if c.kind = kindOf direction ∧ loDte ≤ c.daysToExpiration ∧ c.daysToExpiration ≤ hiDte ∧
          dLo ≤ d ∧ d ≤ dHi ∧ minOi ≤ c.openInterest ∧ 0 < c.bid ∧ 0 < c.ask ∧ c.bid ≤ c.ask ∧
          spread ≤ maxSpread ∧ c.ask * 100 ≤ premiumCap then
        some (Ranked.mk |d - target| spread c.openInterest c)
      else none
  return ((ranked.mergeSort Ranked.le).take 3).map (·.contract)

def osiExpiry (cfg : Settings) (osi : String) : Except Exc Date :=
  match (osiFields (cfg.upper (withoutSpaces osi)).toList).bind expiryOf with
  | some d => .ok d
  | none => .error (.notOsi osi)

/-- The broker pads the root to six characters; compare without. -/
def sameOsi (cfg : Settings) (a b : String) : Bool :=
  cfg.upper (withoutSpaces a) == cfg.upper (withoutSpaces b)

end TradeDesk.Desk
