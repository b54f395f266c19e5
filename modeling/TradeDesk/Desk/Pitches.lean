import TradeDesk.Desk.Calls
import Mathlib.Data.Nat.Find

/-!
# Pitches: an analyst's prediction

`tc/desk/pitches.py`. The gates every submission goes through, a call's
too: a price must parse to a positive number, levels must stand on the
right sides of the last price and near it, the horizon and the benchmark
must be among those scored, the symbol among those traded.

A pitch is filed outside the regular session, in the evening's run or the
one before the open, so many a run, and its session is the next to open.
It can be withdrawn until then.
-/

namespace TradeDesk

namespace Store

variable (s : Store)

def addPitch (p : NewPitch) : Store :=
  { s with pitches := s.pitches ++ [{ toNewPitch := p, id := nextId (s.pitches.map (·.id)) }] }

def addWithdrawal (pitchId : ℕ) : Except Exc Store :=
  if pitchId ∈ s.pitchWithdrawals then .error .integrityError
  else .ok { s with pitchWithdrawals := s.pitchWithdrawals ++ [pitchId] }

/-- Neither withdrawn nor resolved. -/
def pitchOpen (id : ℕ) : Bool := !s.pitchWithdrawals.contains id && !s.resolved .pitch id

/-- What an analyst has filed since, for the cap. -/
def filedSince (analyst : Analyst) (start : Instant) : ℕ :=
  s.pitches.countP fun p => p.analyst == analyst && decide (start ≤ p.filedAt)

/-- What an analyst has standing on a name and a direction. -/
def openPitchesOn (analyst : Analyst) (symbol : String) (direction : Direction) : List Pitch :=
  s.pitches.filter fun p =>
    p.analyst == analyst && p.symbol == symbol && p.direction == direction && s.pitchOpen p.id

end Store

end TradeDesk

namespace TradeDesk.Desk

open TradeDesk.Async

def parsePrice (value : String) (field : PriceField) : Except Exc ℚ :=
  match parseDecimal value with
  | .invalid => .error (.deskRefused (.badPrice field value))
  | .special => .error (.deskRefused (.nonPositivePrice field value))
  | .finite d => if d ≤ 0 then .error (.deskRefused (.nonPositivePrice field value)) else .ok d

/-- The level must not be farther from the last price than the rule says. -/
def checkDistance (field : PriceField) (level last maxDist : ℚ) : Except Exc Unit :=
  if last = 0 then .error .divisionByZero
  else refuseIf (maxDist < |level - last| / last * 100)
    (.deskRefused (.tooFar field level maxDist last))

def checkLevels (direction : Direction) (last target invalidation : ℚ) (rules : Rules) :
    Except Exc Unit := do
  refuseIf (direction = .up ∧ ¬(last < target ∧ invalidation < last))
    (.deskRefused (.upLevels last))
  refuseIf (direction = .down ∧ ¬(target < last ∧ last < invalidation))
    (.deskRefused (.downLevels last))
  let maxDist ← rules.get .strategy "pitch_level_max_distance_pct"
  checkDistance .target target last maxDist
  checkDistance .invalidation invalidation last maxDist

def checkHorizon (h : ℤ) (rules : Rules) : Except Exc Unit := do
  let lo ← rules.getInt .strategy "pitch_horizon_min_days"
  let hi ← rules.getInt .strategy "pitch_horizon_max_days"
  refuseIf (¬(lo ≤ h ∧ h ≤ hi)) (.deskRefused (.badHorizon lo hi h))

def checkBenchmark (upper : String → String) (b : String) : Except Exc String := do
  let up := upper (strip b)
  refuseIf (up ∉ benchmarks) (.deskRefused (.badBenchmark b))
  return up

/-- The newest universe's qualified rows, and the desk's ETFs. -/
def tradeableSymbols (cfg : Settings) : Look (List String) := do
  match ← .get (·.universeAsof) with
  | none => return cfg.etfList
  | some asof => do
    let rows ← .get fun s => s.universeRows.filter fun r => r.asof == asof && r.qualified
    return rows.map (·.symbol) ++ cfg.etfList

/-- A pitch and whether it was withdrawn. -/
def getPitch (pitchId : ℕ) : Look (Option (Pitch × Bool)) := .get fun s =>
  (s.pitches.find? fun p => p.id == pitchId).map fun p => (p, s.pitchWithdrawals.contains p.id)

/-! ## Filing and withdrawing -/

def sessionOpen : TimeOfDay := clockTime 9 30
def sessionClose : TimeOfDay := clockTime 16 0

/-- `is_trading_day`. Trading days come back, so the search for the next one
ends. -/
structure Calendar where
  isTradingDay : Date → Bool
  recurs : ∀ d, ∃ n : ℕ, isTradingDay (d + n) = true

/-- The engine's own `_trading_day`: today as the broker's calendar has it,
any other day by the weekday. -/
def tradingDay (window : Option MarketWindow) (et : Zone) (d : Date) : Bool :=
  match window with
  | some w => if w.date = d then w.isTradingDay else (fallbackWindow et d).isTradingDay
  | none => (fallbackWindow et d).isTradingDay

theorem fallback_isTradingDay (et : Zone) (d : Date) (h : weekday d < 5) :
    (fallbackWindow et d).isTradingDay = true := by
  unfold fallbackWindow
  rw [if_neg (not_le.mpr h)]

theorem monday_comes (d : ℤ) :
    ∃ n : ℕ, weekday (d + n) = 0 ∧ weekday (d + (n + 1 : ℕ)) = 1 := by
  refine ⟨(6 - (d + 2) % 7).toNat, ?_⟩
  show (d + ((6 - (d + 2) % 7).toNat : ℤ) + 3) % 7 = 0 ∧
    (d + (((6 - (d + 2) % 7).toNat + 1 : ℕ) : ℤ) + 3) % 7 = 1
  omega

/-- A Monday or the Tuesday after it is not the day of the window. -/
def Calendar.engine (window : Option MarketWindow) (et : Zone) : Calendar where
  isTradingDay := tradingDay window et
  recurs d := by
    obtain ⟨n, hn, hnext⟩ := monday_comes d
    unfold tradingDay
    cases window with
    | none => exact ⟨n, fallback_isTradingDay et _ (hn ▸ by decide)⟩
    | some w =>
      by_cases hw : w.date = d + n
      · refine ⟨n + 1, ?_⟩
        have hne : w.date ≠ d + (n + 1 : ℕ) := by
          intro h
          rw [← h, hw, hn] at hnext
          cases hnext
        dsimp only
        rw [if_neg hne]
        exact fallback_isTradingDay et _ (hnext ▸ by decide)
      · refine ⟨n, ?_⟩
        dsimp only
        rw [if_neg hw]
        exact fallback_isTradingDay et _ (hn ▸ by decide)

/-- `while not is_trading_day(d): d += 1`. -/
def Calendar.next (cal : Calendar) (d : Date) : Date := d + (Nat.find (cal.recurs d) : ℤ)

/-- The first regular session whose open comes after the filing. -/
def referenceSession (et : Zone) (cal : Calendar) (filedAt : Instant) : Date :=
  let d := et.date filedAt
  if et.time filedAt < sessionOpen ∧ cal.isTradingDay d = true then d else cal.next (d + 1)

/-- The two runs of a day an analyst files in. -/
inductive RunMode where
  | evening | preopen
deriving DecidableEq, Repr

def RunMode.capKey : RunMode → String
  | .evening => "desk_max_pitches_per_analyst_run"
  | .preopen => "desk_preopen_max_new_pitches"

/-- The run a pitch belongs to, and when it started. -/
def runWindow (et : Zone) (filedAt : Instant) : Except Exc (Instant × RunMode) :=
  if sessionClose ≤ et.time filedAt then
    .ok (et.combine (et.date filedAt) sessionClose, .evening)
  else if et.time filedAt < sessionOpen then
    .ok (et.combine (et.date filedAt) (clockTime 0 0), .preopen)
  else .error (.deskRefused .duringSession)

/-- What the model submits. -/
structure PitchIn where
  symbol : String
  direction : Direction
  target : String
  invalidation : String
  horizonDays : ℤ
  conviction : ℕ
  benchmark : String
deriving DecidableEq, Repr

def submitPitch (cfg : Settings) (analyst : Analyst) (pin : PitchIn) (now : Instant) (last : ℚ)
    (tradeable : List String) (cal : Calendar) : DeskM Pitch := do
  let symbol := cfg.upper (strip pin.symbol)
  .check (refuseIf (symbol ∉ tradeable) (.deskRefused (.notTradeable symbol)))
  let benchmark ← .check (checkBenchmark cfg.upper pin.benchmark)
  .check (checkHorizon pin.horizonDays cfg.rules)
  let target ← .check (parsePrice pin.target .target)
  let invalidation ← .check (parsePrice pin.invalidation .invalidation)
  .check (checkLevels pin.direction last target invalidation cfg.rules)
  let (start, mode) ← .check (runWindow cfg.et now)
  let cap ← .check (cfg.rules.getInt .strategy mode.capKey)
  let filed ← .scan (.get fun s => s.filedSince analyst start)
  .check (refuseIf (cap ≤ (filed : ℤ)) (.deskRefused (.runLimit cap)))
  match ← .scan (.get fun s => s.openPitchesOn analyst symbol pin.direction) with
  | dup :: _ => .raise (.deskRefused (.pitchStillOpen dup.id symbol pin.direction))
  | [] => do
    let session := referenceSession cfg.et cal now
    let row : NewPitch := ⟨analyst, now, session, symbol, pin.direction, target, invalidation,
      pin.horizonDays, pin.conviction, benchmark⟩
    let pid ← .transact (fun s => s.addPitch row) fun s => nextId (s.pitches.map (·.id))
    return { toNewPitch := row, id := pid }

def withdrawPitch (cfg : Settings) (analyst : Analyst) (pitchId : ℕ) (now : Instant) :
    DeskM Unit := do
  match ← .scan (getPitch pitchId) with
  | none => .raise (.deskRefused (.notYours pitchId))
  | some (p, withdrawn) =>
    if p.analyst ≠ analyst ∨ withdrawn = true then .raise (.deskRefused (.notYours pitchId))
    else if cfg.et.combine p.session sessionOpen ≤ now then
      .raise (.deskRefused (.hasReference pitchId))
    else .tryUpdate fun s => s.addWithdrawal pitchId

/-! ## What the gates pass -/

theorem parsePrice_pos {value : String} {field : PriceField} {d : ℚ}
    (h : parsePrice value field = .ok d) : 0 < d := by
  unfold parsePrice at h
  split at h
  · cases h
  · cases h
  · split at h
    · cases h
    next hd =>
      cases h
      exact not_le.mp hd

/-- **Levels that pass stand on the right sides of the last price.** -/
theorem checkLevels_ok {direction : Direction} {last target invalidation : ℚ} {rules : Rules}
    {u : Unit} (h : checkLevels direction last target invalidation rules = .ok u) :
    match direction with
    | .up => last < target ∧ invalidation < last
    | .down => target < last ∧ last < invalidation := by
  obtain ⟨_, hup, h⟩ := except_bind_ok h
  obtain ⟨_, hdown, _⟩ := except_bind_ok h
  cases direction with
  | up =>
    by_contra hc
    exact refuseIf_ok hup ⟨rfl, hc⟩
  | down =>
    by_contra hc
    exact refuseIf_ok hdown ⟨rfl, hc⟩

end TradeDesk.Desk
