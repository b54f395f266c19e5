import TradeDesk.Desk.Book
import TradeDesk.Desk.Run

/-!
# The scorecard

`tc/desk/scorecard.py`: everything is computed on read from the resolutions
and the paper book. Figures are rounded to the cent to be shown, and some
of them are read back from what is shown: `Decimal(str(x))` of a rounded
`x` is that rounded number.

The draws of the bootstrap are a parameter, and the account's real value is
left out: nothing is decided on either.
-/

namespace TradeDesk

def Analyst.name : Analyst → String
  | .technical => "technical"
  | .earnings => "earnings"
  | .news => "news"
  | .macros => "macro"

namespace Resolution

variable (r : Resolution)

def excessSpy : ℚ := r.retPct - r.spyRetPct

def excessBench : ℚ := r.retPct - r.benchRetPct

def hit : Bool := r.how == .target || r.how == .gapTarget

end Resolution

namespace Store

variable (s : Store)

/-- `LEFT JOIN pitches p ON r.kind='pitch' AND p.id=r.item_id`. -/
def pitchOf (r : Resolution) : Option Pitch :=
  if r.kind = .pitch then s.pitches.find? fun p => p.id == r.itemId else none

/-- `LEFT JOIN calls c ON r.kind='call' AND c.id=r.item_id`. -/
def callOf (r : Resolution) : Option Call :=
  if r.kind = .call then s.calls.find? fun c => c.id == r.itemId else none

end Store

namespace Desk

open TradeDesk.Async

structure ResolvedRow where
  resolution : Resolution
  analyst : Option Analyst
  origin : Option Origin
  conviction : ℕ
deriving DecidableEq, Repr

/-- A row of the join. `int(None)` of a resolution of nothing raises. -/
def resolvedRow (row : Resolution × Option Pitch × Option Call) : Look ResolvedRow :=
  match (row.2.1.map (·.conviction)).or (row.2.2.map (·.conviction)) with
  | some conv => return ⟨row.1, row.2.1.map (·.analyst), row.2.2.map (·.origin), conv⟩
  | none => .raise .typeError

def resolvedRows : Look (List ResolvedRow) := do
  let rows ← .get fun s => s.resolutions.map fun r => (r, s.pitchOf r, s.callOf r)
  .each resolvedRow rows

/-! ## The figures -/

structure GroupStats where
  name : String
  n : ℕ
  hitRatePct : Option ℚ
  meanRetPct : Option ℚ
  meanExcessSpyPct : Option ℚ
  meanExcessBenchPct : Option ℚ
  ci95ExcessSpy : Option (ℚ × ℚ)
deriving DecidableEq, Repr

structure BookStats where
  startDate : Option Date
  startEquity : Option ℚ
  equity : Option ℚ
  retPct : Option ℚ
  spyRetPct : Option ℚ
  closedTrades : ℕ
  meanTradeRetPct : Option ℚ
deriving DecidableEq, Repr

inductive Verdict where
  | notYet | keep | stop | rework
deriving DecidableEq, Repr

/-- What the checkpoint says of its verdict. -/
inductive VerdictReason where
  | resolved (calls : ℕ) (minCalls : ℤ) (checkpointDate : Date)
  | noExcess | beatSpyAndMatched | trailSpyAndPitches | mixed
deriving DecidableEq, Repr

structure Checkpoint where
  date : Date
  minCalls : ℤ
  resolvedCalls : ℕ
  verdict : Verdict
  reason : VerdictReason
deriving DecidableEq, Repr

/-- An analyst to drop or rebuild at the checkpoint. -/
structure AnalystFlag where
  name : String
  n : ℕ
  meanExcessBenchPct : ℚ
deriving DecidableEq, Repr

structure Scorecard where
  asof : Date
  analysts : List GroupStats
  allPitches : GroupStats
  pmCalls : GroupStats
  selectionEdgePct : Option ℚ
  book : BookStats
  checkpoint : Checkpoint
  analystFlags : List AnalystFlag
deriving DecidableEq, Repr

def analysts : List Analyst := [.technical, .earnings, .news, .macros]

/-- `_q`, and the number read back from it. -/
def quantized (d : Option ℚ) : Option ℚ := d.map cents

def Scorecard.mean (xs : List ℚ) : Option ℚ := if xs = [] then none else some (xs.sum / xs.length)

/-- The seeded generator: the `k`th of the draws `randrange(n)`. -/
abbrev Draws := ℕ → ℕ → ℕ

/-- Percentile bootstrap of the mean. -/
def bootstrapCi (draws : Draws) (xs : List ℚ) : ℚ × ℚ :=
  let n := xs.length
  let resample := fun j => ((List.range n).map fun i => xs.getD (draws n (j * n + i)) 0).sum / n
  let means := ((List.range 2000).map resample).mergeSort fun a b => decide (a ≤ b)
  (means.getD 50 0, means.getD 1949 0)

def groupStats (draws : Draws) (name : String) (rs : List Resolution) (ciMin : ℤ) : GroupStats :=
  if rs = [] then ⟨name, 0, none, none, none, none, none⟩
  else
    let ex := rs.map (·.excessSpy)
    let ci := if ciMin ≤ (rs.length : ℤ) then
      let b := bootstrapCi draws ex
      some (cents b.1, cents b.2) else none
    ⟨name, rs.length, some (cents ((rs.countP (·.hit) : ℚ) / rs.length * 100)),
      quantized (Scorecard.mean (rs.map (·.retPct))), quantized (Scorecard.mean ex),
      quantized (Scorecard.mean (rs.map (·.excessBench))), ci⟩

def checkpointVerdict (today checkpointDate : Date) (minCalls : ℤ) (resolvedCalls : ℕ)
    (pmMeanExcess allMeanExcess bookRet spyRet : Option ℚ) : Checkpoint :=
  let cp := fun v reason => ⟨checkpointDate, minCalls, resolvedCalls, v, reason⟩
  if today < checkpointDate ∨ (resolvedCalls : ℤ) < minCalls then
    cp .notYet (.resolved resolvedCalls minCalls checkpointDate)
  else match pmMeanExcess with
    | none => cp .rework .noExcess
    | some pm =>
      let matched : Bool := match bookRet, spyRet with
        | some b, some y => y ≤ b
        | _, _ => false
      let trails : Bool := match allMeanExcess with
        | some all => pm < all
        | none => false
      if 0 < pm ∧ matched then cp .keep .beatSpyAndMatched
      else if pm < 0 ∧ trails then cp .stop .trailSpyAndPitches
      else cp .rework .mixed

/-- `(spy[-1].close - spy[0].close) / spy[0].close * 100` of two bars at least. -/
def spyReturn (spy : List DailyBar) : Except Exc (Option ℚ) :=
  match spy.head?, spy.getLast? with
  | some first, some last =>
    if spy.length < 2 then .ok none
    else if first.close = 0 then .error .divisionByZero
    else .ok (some ((last.close - first.close) / first.close * 100))
  | _, _ => .ok none

/-- `_book_stats`. -/
def bookStats : Look BookStats := do
  match ← .get fun s => s.paperBook.map fun equity => (s.bookStartDate, equity) with
  | none => return ⟨none, none, none, none, none, 0, none⟩
  | some (startDate, startEquity) => do
    let state ← bookState
    let spy ← .get fun s => s.barsFor "SPY" (some startDate) none
    let spyRet ← .check (spyReturn spy)
    let trades ← closedTrades
    .check (if startEquity = 0 then .error .divisionByZero else .ok ())
    return ⟨some startDate, some startEquity, some (cents state.equity),
      some (cents ((state.equity - startEquity) / startEquity * 100)), quantized spyRet,
      trades.length, quantized (Scorecard.mean (trades.map (·.retPct)))⟩

def buildScorecard (cfg : Settings) (draws : Draws) (checkpointDate today : Date) :
    Look Scorecard := do
  let ciMin ← .check (cfg.rules.getInt .strategy "scorecard_ci_min_n")
  let rows ← resolvedRows
  let pitches := (rows.filter fun r => r.resolution.kind == .pitch).map (·.resolution)
  let calls := (rows.filter fun r => r.resolution.kind == .call &&
    (r.origin == some .pitch || r.origin == some .pm)).map (·.resolution)
  let groups := (analysts.map fun a => groupStats draws a.name
    ((rows.filter fun r => r.analyst == some a).map (·.resolution)) ciMin).filter fun g => 0 < g.n
  let pmMean := Scorecard.mean (calls.map (·.excessSpy))
  let allMean := Scorecard.mean (pitches.map (·.excessSpy))
  let edge := match pmMean, allMean with
    | some pm, some all => some (pm - all)
    | _, _ => none
  let reviewMin ← .check (cfg.rules.getInt .strategy "analyst_review_min_pitches")
  let flags := groups.filterMap fun g => match g.meanExcessBenchPct with
    | some m => if reviewMin ≤ (g.n : ℤ) ∧ m < 0 then some ⟨g.name, g.n, m⟩ else none
    | none => none
  let book ← bookStats
  let minCalls ← .check (cfg.rules.getInt .strategy "checkpoint_min_pm_calls")
  return ⟨today, groups, groupStats draws "all pitches" pitches ciMin,
    groupStats draws "PM calls" calls ciMin, quantized edge, book,
    checkpointVerdict today checkpointDate minCalls calls.length pmMean allMean book.retPct
      book.spyRetPct, flags⟩

end Desk

end TradeDesk
