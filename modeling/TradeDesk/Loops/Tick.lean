import TradeDesk.Async.Pool
import TradeDesk.Loops.Book

/-!
# The monitoring loops

The coroutines that read the account (`tc/loops/reconcile.py`,
`tc/loops/clocks.py`, `tc/loops/tick.py`, `tc/loops/session.py` and the two
jobs of `tc/main.py` that run them) over the tables they share.

Every one of them goes through `reconcile`, which appends the account it
read to `account_snapshots`. Only a tick compares: watch 6 holds the
account it reads against the newest snapshot there was when it began.
-/

namespace TradeDesk.Loops

open TradeDesk.Async

/-! ## The ledger -/

inductive TickState where
  | rth | pre | post | stale | blind
deriving DecidableEq, Repr

inductive Level where
  | ok | halt
deriving DecidableEq, Repr

/-- `at_et`: the Eastern date and the minute of the day. -/
structure AtEt where
  date : Date
  minute : ℤ
deriving DecidableEq, Repr

structure TickRow where
  atEt : AtEt
  state : TickState
  accountValue : ℚ
  compCapital : ℚ
  hwm : ℚ
  drawdownPct : ℚ
  level : Level
  positions : ℕ
  stops : ℕ
  orders : ℕ
  settled : ℚ
  unsettled : ℚ
  reserve : ℚ
  flags : String
  note : String
deriving DecidableEq, Repr

structure SessionStatusRow where
  date : Date
  closeValue : ℚ
  hwm : ℚ
  halt : ℚ
  drawdownPct : ℚ
  level : Level
  priorHwm : ℚ
  ratcheted : Bool
  intradayHigh : Option ℚ
deriving DecidableEq, Repr

structure OrderSnapshot where
  accountHash : String
  readAt : Instant
  order : OrderRow
deriving DecidableEq, Repr

/-- The tables the loops share, each in the order of its ids; an account
snapshot is its row of `account_snapshots` with its rows of
`position_snapshots`, which one transaction writes. -/
structure Ledger where
  accountSnapshots : List AccountSnapshot
  orderSnapshots : List OrderSnapshot
  ticks : List TickRow
  sessionStatus : List SessionStatusRow
deriving DecidableEq, Repr

namespace Ledger

variable (l : Ledger)

/-- The quantities of the newest account snapshot, by symbol. -/
def latestPositions : List (String × ℤ) :=
  match l.accountSnapshots.getLast? with
  | none => []
  | some a => dictOf (a.positions.map fun p => (p.symbol, p.quantity))

/-- When the first snapshot with the symbol was read. -/
def firstSeen (symbol : String) : Option Instant :=
  (l.accountSnapshots.find? fun a => a.positions.any fun p => p.symbol == symbol).map (·.readAt)

/-- `ORDER BY date DESC LIMIT 1`; a date has one row. -/
def latestSessionStatus : Option SessionStatusRow :=
  l.sessionStatus.foldl (fun best r => match best with
    | none => some r
    | some b => if b.date < r.date then some r else some b) none

def ticksFor (d : Date) : List TickRow := l.ticks.filter fun t => t.atEt.date == d

def recordAccount (a : AccountSnapshot) : Ledger :=
  { l with accountSnapshots := l.accountSnapshots ++ [a] }

def recordOrders (accountHash : String) (rows : List OrderRow) (readAt : Instant) : Ledger :=
  { l with orderSnapshots := l.orderSnapshots ++ rows.map fun o => ⟨accountHash, readAt, o⟩ }

def appendTick (t : TickRow) : Ledger := { l with ticks := l.ticks ++ [t] }

/-- `INSERT OR REPLACE`, by date. -/
def writeSessionStatus (r : SessionStatusRow) : Ledger :=
  { l with sessionStatus := l.sessionStatus.filter (fun x => x.date != r.date) ++ [r] }

end Ledger

/-! ## What the loops run over -/

inductive LoopQuery where
  | accountHashes
  | account (accountHash : String)
  | orders (accountHash : String) (fromDate : Date) (upto : Instant)
  | quotes (symbols : List String)
  | postClose (row : SessionStatusRow)
deriving DecidableEq, Repr

def LoopAnswer : LoopQuery → Type
  | .accountHashes => Except Exc (List String)
  | .account _ => Except Exc AccountSnapshot
  | .orders _ _ _ => Except Exc (List OrderRow)
  | .quotes _ => Except Exc (List (String × Quote))
  | .postClose _ => Bool

abbrev LoopM (α : Type) := Prog Ledger LoopQuery LoopAnswer Exc α
abbrev LoopLook (α : Type) := Reads Ledger Exc α
abbrev LoopHistory := List (Event Ledger LoopQuery LoopAnswer)

/-- What is fixed while the engine runs. -/
structure LoopSettings where
  rules : Rules
  reserve : ℚ
  ordersFrom : Date
  leveraged : List String
  et : Zone

/-- A question whose answer may be an exception. -/
def broker {α : Type} (q : LoopQuery) (as : LoopAnswer q → Except Exc α) : LoopM α := do
  let answer ← Prog.query q
  Prog.check (as answer)

def accountHashes : LoopM (List String) := broker .accountHashes id

def recordAccount (a : AccountSnapshot) : LoopM Unit := Prog.update fun l => l.recordAccount a

def recordOrders (accountHash : String) (rows : List OrderRow) (readAt : Instant) : LoopM Unit :=
  Prog.update fun l => l.recordOrders accountHash rows readAt

def appendTick (t : TickRow) : LoopM Unit := Prog.update fun l => l.appendTick t

def latestPositions : LoopM (List (String × ℤ)) := Prog.scan (.get Ledger.latestPositions)

def latestSessionStatus : LoopM (Option SessionStatusRow) :=
  Prog.scan (.get Ledger.latestSessionStatus)

/-! ## Reconcile -/

/-- One account read, one orders read, both recorded, one view. -/
def reconcile (cfg : LoopSettings) (accountHash : String) (now : Instant) : LoopM BookView := do
  let account ← broker (.account accountHash) id
  let orders ← broker (.orders accountHash cfg.ordersFrom (now + dayLength)) id
  recordAccount account
  recordOrders accountHash orders now
  return buildView account orders now

/-! ## The clocks -/

def optionWarnDaysBeforeClose : ℤ := 2
def leveragedWarnSessionsBeforeClose : ℤ := 2

/-- The days to expiry of an option, against the day it must be closed. -/
def optionClock (p : Position) (closeDte : ℤ) (today : Date) : List ClockAlert :=
  let warnDte := closeDte + optionWarnDaysBeforeClose
  match parseOsi p.symbol with
  | none => []
  | some ref =>
    let d := ref.expiry - today
    if d ≤ closeDte then [⟨p.symbol, .optionClose, d, warnDte, closeDte⟩]
    else if d ≤ warnDte then [⟨p.symbol, .optionWarn, d, warnDte, closeDte⟩]
    else []

/-- The sessions a leveraged fund was held, against the most it may be. -/
def leveragedClock (p : Position) (maxHold sessionsHeld : ℤ) : List ClockAlert :=
  let warnHold := maxHold - leveragedWarnSessionsBeforeClose
  if maxHold ≤ sessionsHeld then [⟨p.symbol, .leveragedClose, sessionsHeld, warnHold, maxHold⟩]
  else if warnHold ≤ sessionsHeld then
    [⟨p.symbol, .leveragedWarn, sessionsHeld, warnHold, maxHold⟩]
  else []

/-- The most urgent of the alerts; the first of two alike. -/
def mostUrgent : List ClockAlert → Option ClockAlert
  | [] => none
  | a :: as => some (as.foldl (fun best x =>
      if x.kind.precedence < best.kind.precedence then x else best) a)

/-- The sessions a position has been in the snapshots, today included. -/
def sessionsHeld (et : Zone) (today : Date) (seen : Option Instant) : ℤ :=
  let firstDate := match seen with
    | none => today
    | some at_ => et.date at_
  tradingDaysBetween firstDate today + 1

/-- The most urgent of the clocks a position is on. -/
def clockOf (cfg : LoopSettings) (closeDte maxHold : ℤ) (today : Date) (leveraged : List String)
    (p : Position) : LoopLook (Option ClockAlert) :=
  if leveraged.contains p.symbol then do
    let seen ← Reads.get fun l => Ledger.firstSeen l p.symbol
    return mostUrgent (optionClock p closeDte today ++
      leveragedClock p maxHold (sessionsHeld cfg.et today seen))
  else return mostUrgent (optionClock p closeDte today)

/-- One alert a position at most. -/
def runClocks (cfg : LoopSettings) (positions : List Position) (today : Date)
    (leveraged : List String) : LoopLook (List ClockAlert) := do
  let closeDte ← .check cfg.rules.optionCloseAtDte
  let maxHold ← .check cfg.rules.leveragedMaxHoldSessions
  let alerts ← Reads.each (clockOf cfg closeDte maxHold today leveraged) positions
  return alerts.filterMap id

/-! ## The tick -/

def staleQuoteAge : ℤ := 3 * minute

/-- The answer is no fresh price of every symbol. `none`: fetch once more. -/
def quotesVerdict (symbols : List String) (now : Instant) :
    Except Exc (List (String × Quote)) → Except Exc (Option Bool)
  | .error .unauthorized => .ok (some true)
  | .error .brokerError => .ok (some true)
  | .error e => .error e
  | .ok quotes =>
    let keys := quotes.map (·.1)
    if ¬ ((∀ s ∈ keys, s ∈ symbols) ∧ ∀ s ∈ symbols, s ∈ keys) then .ok (some true)
    else match (quotes.map (·.2.quoteTime)).min? with
      | none => .error .valueError
      | some oldest => .ok (if now - oldest ≤ staleQuoteAge then some false else none)

def quotesAreStale (symbols : List String) (now : Instant) : LoopM Bool := do
  let first ← broker (.quotes symbols) (quotesVerdict symbols now)
  match first with
  | some stale => return stale
  | none =>
    let second ← broker (.quotes symbols) (quotesVerdict symbols now)
    return second.getD true

/-- Quotes are read in the regular session only, and never for a flat book. -/
def tickStale (phase : SessionPhase) (symbols : List String) (now : Instant) : LoopM Bool :=
  if phase = .rth ∧ symbols ≠ [] then quotesAreStale symbols now else return false

structure TickResult where
  row : TickRow
  trips : List Trip
  view : Option BookView
deriving DecidableEq, Repr

/-- Nothing was read, so nothing is claimed. -/
def blindRow (atEt : AtEt) (flags : String) : TickRow where
  atEt := atEt
  state := .blind
  accountValue := 0
  compCapital := 0
  hwm := 0
  drawdownPct := 0
  level := .ok
  positions := 0
  stops := 0
  orders := 0
  settled := 0
  unsettled := 0
  reserve := 0
  flags := flags
  note := "BLIND: token dead or absent"

/-- The first account in the token's scope. -/
def firstHash (none_ : Exc) : LoopM String := do
  match ← accountHashes with
  | [] => Prog.raise none_
  | h :: _ => return h

/-- `account_hash or (await broker.account_hashes())[0]`. -/
def tickHash (accountHash : Option String) : LoopM String :=
  match accountHash with
  | none => firstHash .indexError
  | some h => if h = "" then firstHash .indexError else return h

/-- What a tick reads before anything else: the newest snapshot there is,
and the account and its orders, which it records. -/
def tickRead (cfg : LoopSettings) (accountHash : Option String) (now : Instant) :
    LoopM (List (String × ℤ) × BookView) := do
  let h ← tickHash accountHash
  let prior ← latestPositions
  let view ← reconcile cfg h now
  return (prior, view)

/-- The mark, the drawdown from it and the level, or a gap to report. -/
structure Marking where
  hwm : ℚ
  drawdown : ℚ
  level : Level
  notes : List String
  trips : List Trip
deriving DecidableEq, Repr

def markAgainst (rules : Rules) (accountValue : ℚ) :
    Option SessionStatusRow → Except Exc Marking
  | none => .ok ⟨0, 0, .ok, ["no high-water mark on record: run tc seed-hwm"],
      [⟨0, "unseeded", .unseeded⟩]⟩
  | some status => do
    let drawdown ← drawdownPct accountValue status.hwm
    let halted ← isHalted accountValue status.hwm rules
    return ⟨status.hwm, drawdown, if halted then .halt else .ok, [], []⟩

/-- The state a row records, and what it adds to the note. -/
def tickState (stale : Bool) (phase : SessionPhase) : TickState × List String :=
  if stale then (.stale, [])
  else match phase with
    | .closed => (.post, ["not a trading day"])
    | .rth => (.rth, [])
    | .pre => (.pre, [])
    | .post => (.post, [])

/-- What follows once the account is read. -/
def tickReport (cfg : LoopSettings) (now : Instant) (window : Option MarketWindow)
    (prior : List (String × ℤ)) (view : BookView) : LoopM TickResult := do
  let today := cfg.et.date now
  let atEt : AtEt := ⟨today, cfg.et.time now / minute⟩
  let phase := phaseFor now (window.getD (fallbackWindow cfg.et today))
  let account := view.account
  let positions := account.positions.filter fun p => p.quantity != 0
  let symbols := positions.map (·.symbol)
  let stale ← tickStale phase symbols now
  let staleNotes := if stale then ["STALE: quotes older than 3m after one re-fetch"] else []
  let state := tickState stale phase
  let status ← latestSessionStatus
  let marking ← Prog.check (markAgainst cfg.rules account.liquidationValue status)
  let alerts ← Prog.scan
    (runClocks cfg positions today (leveragedEffective symbols cfg.leveraged))
  let watched ← Prog.check
    (evaluateWatches view prior marking.hwm cfg.rules cfg.reserve alerts)
  let trips := marking.trips ++ watched
  let extra := (if stale then ["S"] else []) ++ (if window.isNone then ["F"] else []) ++
    if weekday today = 0 then ["C"] else []
  let row : TickRow :=
    { atEt
      state := state.1
      accountValue := account.liquidationValue
      compCapital := account.liquidationValue - cfg.reserve
      hwm := marking.hwm
      drawdownPct := marking.drawdown
      level := marking.level
      positions := positions.length
      stops := view.restingStopCount
      orders := view.openEntries.length
      settled := account.cashAvailableForTrading
      unsettled := account.unsettledCash
      reserve := account.reserveCash
      flags := flagString trips extra
      note := " ".intercalate (staleNotes ++ state.2 ++ marking.notes) }
  appendTick row
  return ⟨row, trips, some view⟩

/-- One sweep: one appended row, and the trips for the caller to escalate.
A dead token is a row of its own; any other exception is the caller's. -/
def runTick (cfg : LoopSettings) (accountHash : Option String) (now : Instant)
    (window : Option MarketWindow) : LoopM TickResult := do
  match ← (tickRead cfg accountHash now).attempt with
  | .ok (prior, view) => tickReport cfg now window prior view
  | .error .unauthorized =>
    let row := blindRow ⟨cfg.et.date now, cfg.et.time now / minute⟩
      ((if window.isNone then "F" else "") ++ "B")
    appendTick row
    return ⟨row, [⟨0, "blind", .blind⟩], none⟩
  | .error e => Prog.raise e

/-! ## The session's close -/

/-- Every high-water mark recorded before this is a figure without the
reserve. -/
def basisAmendmentDate : Date := dayNumber 2026 8 31

def legacyHwmToAccountBasis (recorded : ℚ) (recordedOn : Date) (reserve : ℚ) : ℚ :=
  if recordedOn < basisAmendmentDate then recorded + reserve else recorded

def seedHwm (cfg : LoopSettings) (recorded : ℚ) (recordedOn : Date) : LoopM SessionStatusRow := do
  let status ← latestSessionStatus
  if status.isSome then Prog.raise .valueError
  else
    let hwm := legacyHwmToAccountBasis recorded recordedOn cfg.reserve
    let row : SessionStatusRow := ⟨recordedOn, hwm, hwm, 0, 0, .ok, hwm, false, none⟩
    Prog.update fun l => l.writeSessionStatus row
    return row

/-- The row of a close: the mark ratchets up, an intraday high above it is
recorded and not adopted. -/
def closeRow (rules : Rules) (d : Date) (closeValue priorHwm : ℚ) (highs : List ℚ) :
    Except Exc SessionStatusRow := do
  let hwm := ratchetHwm priorHwm closeValue
  let halt ← haltThreshold hwm rules
  let drawdown ← drawdownPct closeValue hwm
  let halted ← isHalted closeValue hwm rules
  return ⟨d, closeValue, hwm, halt, drawdown, if halted then .halt else .ok, priorHwm,
    decide (priorHwm < hwm), highs.max?.filter fun high => hwm < high⟩

def closeSession (cfg : LoopSettings) (d : Date) (closeValue : ℚ) : LoopM SessionStatusRow := do
  match ← latestSessionStatus with
  | none => Prog.raise .valueError
  | some prior =>
    let ticks ← Prog.scan (.get fun l => Ledger.ticksFor l d)
    let highs := (ticks.filter fun t => t.state == .rth).map (·.accountValue)
    let row ← Prog.check (closeRow cfg.rules d closeValue prior.hwm highs)
    Prog.update fun l => l.writeSessionStatus row
    return row

/-- `_hash`: for a job that cannot go on without one. -/
def closeHash (accountHash : Option String) : LoopM String :=
  match accountHash with
  | some h => return h
  | none => firstHash .brokerError

/-- The session_close job: a day known to have no session is left alone. -/
def jobSessionClose (cfg : LoopSettings) (accountHash : Option String) (now : Instant)
    (window : Option MarketWindow) : LoopM Unit := do
  let today := cfg.et.date now
  if window.any fun w => w.date == today && !w.isTradingDay then return ()
  else
    let h ← closeHash accountHash
    let view ← reconcile cfg h now
    let row ← closeSession cfg today view.account.liquidationValue
    let _ ← Prog.query (.postClose row)
    return ()

/-! ## The loops together -/

/-- A loop at work, with the time it runs at and what the engine knows then:
the account, the market window. Only a tick has a result. -/
inductive Loop where
  | tick (accountHash : Option String) (now : Instant) (window : Option MarketWindow)
  | sessionClose (accountHash : Option String) (now : Instant) (window : Option MarketWindow)
  | reconcile (accountHash : String) (now : Instant)
  | seedHwm (recorded : ℚ) (recordedOn : Date)
deriving DecidableEq, Repr

namespace Loop

def isTick : Loop → Bool
  | tick _ _ _ => true
  | _ => false

def prog (cfg : LoopSettings) : Loop → LoopM (Option TickResult)
  | tick accountHash now window => do
    let result ← runTick cfg accountHash now window
    return some result
  | sessionClose accountHash now window => do
    jobSessionClose cfg accountHash now window
    return none
  | reconcile accountHash now => do
    let _ ← Loops.reconcile cfg accountHash now
    return none
  | seedHwm recorded recordedOn => do
    let _ ← Loops.seedHwm cfg recorded recordedOn
    return none

end Loop

abbrev LoopTask := Task Loop Ledger LoopQuery LoopAnswer Exc (Option TickResult)
abbrev LoopPool := Pool Loop Ledger LoopQuery LoopAnswer Exc (Option TickResult)
abbrev LoopAct := Act Loop Ledger LoopQuery LoopAnswer Exc (Option TickResult)

/-- A run of the engine's loops, any number in progress together; nobody
else writes these tables. -/
abbrev LoopTrace (cfg : LoopSettings) (Adm : ∀ q, LoopAnswer q → Prop)
    (C : LoopAct → LoopPool → Prop) (init : Ledger) : List LoopAct → LoopPool → Prop :=
  Trace (Loop.prog cfg) Adm (fun _ _ => False) C init

/-! ## An account to run them over -/

def engineSettings : LoopSettings where
  rules := rulesYml
  reserve := 900
  ordersFrom := dayNumber 2026 8 1
  leveraged := []
  et := .fixed (-4 * 60 * minute)

/-- An Eastern wall clock from a Monday of September on. -/
def fromMonday (h m : ℤ) : Instant := dayNumber 2026 9 28 * dayLength + clockTime (h + 4) m

/-- A broker with this account, no orders and fresh quotes. -/
def brokerWith (now : Instant) (positions : List Position) : (q : LoopQuery) → LoopAnswer q
  | .accountHashes => .ok ["h1"]
  | .account h => .ok ⟨h, now, 1500, 1000, 0, 1000, 0, false, positions⟩
  | .orders _ _ _ => .ok []
  | .quotes symbols => .ok (symbols.map fun s => (s, ⟨s, 50, 50, 50, now⟩))
  | .postClose _ => true

end TradeDesk.Loops
