import TradeDesk.Desk.Scoring
import Mathlib.Data.List.Sort

/-!
# The desk's price history

`tc/desk/bars.py` and the evening's job of `tc/main.py`: one fetch a symbol
into the `bars` table, then the scores computed from it. What is fetched is
the liquid head of the universe, the configured names, SPY, and every
symbol the desk carries: those of pitches and calls still to resolve, every
benchmark, and every proposal's underlying.

What the broker answers this evening is a parameter, and so is what a
failed fetch ends in.
-/

namespace TradeDesk

namespace Store

variable (s : Store)

/-- `ON CONFLICT(symbol, date) DO UPDATE`, in primary-key order. -/
def upsertBar (symbol : String) (bar : DailyBar) :
    List (String × DailyBar) → List (String × DailyBar)
  | [] => [(symbol, bar)]
  | row :: rest =>
    if row.1 = symbol ∧ row.2.date = bar.date then (symbol, bar) :: rest
    else if row.1 < symbol ∨ row.1 = symbol ∧ row.2.date < bar.date then
      row :: upsertBar symbol bar rest
    else (symbol, bar) :: row :: rest

def upsertBars (symbol : String) (bars : List DailyBar) : Store :=
  { s with bars := bars.foldl (fun table b => upsertBar symbol b table) s.bars }

/-- `bar_counts`, of one symbol. -/
def barCount (symbol : String) : ℕ := s.bars.countP fun row => row.1 == symbol

/-- `bar_latest`, of one symbol. -/
def barLatest (symbol : String) : Option Date :=
  ((s.bars.filter fun row => row.1 == symbol).map (·.2.date)).max?

/-- What the desk still needs bars of. -/
def carriedSymbols : List String :=
  ((s.pitches.filter fun p => !s.resolved .pitch p.id).map (·.symbol)) ++
    ((s.calls.filter fun c => !s.resolved .call c.id).map (·.symbol)) ++
    s.pitches.map (·.benchmark) ++ s.calls.map (·.benchmark) ++ s.proposals.map (·.underlying)

end Store

namespace Desk

open TradeDesk.Async

def topUpDays : ℕ := 10
def staleAfterSessions : ℤ := topUpDays - 2

/-- The settings of the evening's fetch; the history is at least sixty days. -/
structure BarsConfig where
  contextSymbols : List String
  barsUniverseSize : ℕ
  barsHistoryDays : ℕ
  history_ge : 60 ≤ barsHistoryDays

def carriedSymbols : Look (List String) := .get (·.carriedSymbols)

/-- `sorted({..})`. -/
def sortedSet (symbols : List String) : List String :=
  symbols.dedup.insertionSort (· ≤ ·)

/-- The newest universe's qualified rows, by dollar volume. -/
def liquidHead (size : ℕ) : Look (List String) := do
  match ← .get (·.universeAsof) with
  | none => return []
  | some asof => do
    let rows ← .get fun s => s.universeRows.filter fun r => r.asof == asof && r.qualified
    return ((rows.insertionSort fun a b => b.dollarVol ≤ a.dollarVol).take size).map (·.symbol)

def barsSymbols (cfg : Settings) (bcfg : BarsConfig) (extra : List String) :
    Look (List String) := do
  let top ← liquidHead bcfg.barsUniverseSize
  return sortedSet (top ++ cfg.etfList ++ bcfg.contextSymbols ++ ["SPY"] ++ extra)

structure BarsReport where
  requested : ℕ
  fetched : ℕ
  failed : List String
  blind : Bool
deriving DecidableEq, Repr

/-- What the broker answers to `daily_bars(symbol, days)`. -/
abbrev Feed := String → ℕ → Except BrokerFault (List DailyBar)

/-- The full history for a symbol with little or stale history, a top-up
else. -/
def fetchDays (bcfg : BarsConfig) (today : Date) (have_ : ℕ) (newest : Option Date) : ℕ :=
  let stale : Bool := match newest with
    | none => true
    | some d => staleAfterSessions < tradingDaysBetween d today
  if have_ < bcfg.barsHistoryDays - topUpDays ∨ stale then bcfg.barsHistoryDays else topUpDays

/-- The loop of `refresh_bars`: a dead token stops it, any other fault of a
symbol is named and skipped. -/
def fetchBars (feed : Feed) (days : String → ℕ) : List String → BarsReport → DeskM BarsReport
  | [], rep => return rep
  | sym :: rest, rep => match feed sym (days sym) with
    | .error .unauthorized => return { rep with blind := true }
    | .error .error => fetchBars feed days rest { rep with failed := rep.failed ++ [sym] }
    | .error .crashed => .raise .crashed
    | .ok bars => do
      .update fun s => s.upsertBars sym bars
      fetchBars feed days rest { rep with fetched := rep.fetched + 1 }

def refreshBars (bcfg : BarsConfig) (feed : Feed) (symbols : List String) (today : Date) :
    DeskM BarsReport := do
  let counts ← .scan (.get fun s => s.barCount)
  let latest ← .scan (.get fun s => s.barLatest)
  fetchBars feed (fun sym => fetchDays bcfg today (counts sym) (latest sym)) symbols
    ⟨symbols.length, 0, [], false⟩

/-- `_job_bars_refresh`: the evening's fetch, and the scores if the token
lived. -/
def jobBarsRefresh (cfg : Settings) (bcfg : BarsConfig) (feed : Feed) (today : Date) :
    DeskM (BarsReport × Option ScoreReport) := do
  let extra ← .scan carriedSymbols
  let symbols ← .scan (barsSymbols cfg bcfg extra)
  let rep ← refreshBars bcfg feed symbols today
  if rep.blind then return (rep, none)
  else do
    let scored ← score
    return (rep, some scored)

end Desk

end TradeDesk
