import TradeDesk.Desk.Indicators
import TradeDesk.Desk.Options
import TradeDesk.Desk.Pitches

/-!
# The PM's side of the desk

`tc/desk/pm.py`: calls, funding, extensions, tightenings and exit
requests. Every price is stamped from a fresh quote; the model supplies
judgement and levels, never a reference price. A call and its proposal are
two transactions, the call first.
-/

namespace TradeDesk.Desk

open TradeDesk.Async

structure CallIn where
  pitchId : Option ℕ
  symbol : String
  direction : Direction
  thesis : String
  target : String
  invalidation : String
  horizonDays : ℤ
  conviction : ℕ
  benchmark : String
  funding : Funding
  maxEntryPrice : Option String
  optionSymbol : Option String
  legacy : Bool
deriving DecidableEq, Repr

structure ProposalOut where
  id : ℕ
  instrument : Instrument
  symbol : String
  quantity : ℤ
  maxEntryPrice : ℚ
deriving DecidableEq, Repr

structure CallOut where
  callId : ℕ
  origin : Origin
  refPrice : ℚ
  proposal : Option ProposalOut
deriving DecidableEq, Repr

/-- What a funded call is to buy. -/
structure Plan where
  instrument : Instrument
  symbol : String
  quantity : ℤ
  maxEntry : ℚ
  atrPct : Option ℚ
deriving DecidableEq, Repr

def proposalOut (p : Proposal) : ProposalOut :=
  ⟨p.id, p.instrument, p.symbol, p.quantity, p.maxEntryPrice⟩

/-! ## Quotes -/

def askQuotes (symbols : List String) : DeskM (Except BrokerFault Quotes) :=
  Prog.query (Query.quotes symbols)

/-- Every symbol wanted has a quote, and none is too old. -/
def checkFresh (now : Instant) (got : Quotes) : List String → Except Exc Unit
  | [] => .ok ()
  | s :: rest => match got.get? s with
    | none => .error (.deskRefused (.noQuote s))
    | some q => do
      refuseIf (quoteMaxAge < now - q.quoteTime)
        (.deskRefused (.staleQuote s ((now - q.quoteTime) / second)))
      checkFresh now got rest

/-- Drops repeats, the first of each staying (`dict.fromkeys`). -/
def firsts (symbols : List String) : List String :=
  symbols.foldl (fun acc s => if s ∈ acc then acc else acc ++ [s]) []

def freshQuotes (now : Instant) (symbols : List String) : DeskM Quotes := do
  let wanted := firsts symbols
  match ← askQuotes wanted with
  | .error .unauthorized => .raise (.deskRefused .brokerBlind)
  | .error .error => .raise (.deskRefused .quoteReadFailed)
  | .error .crashed => .raise .crashed
  | .ok got => do
    .check (checkFresh now got wanted)
    return got

/-! ## Funding -/

def askChain (symbol : String) (fromDate toDate : Date) (kind : OptionKind) :
    DeskM (Except BrokerFault (List OptionContract)) :=
  Prog.query (Query.optionChain symbol fromDate toDate kind)

def fetchCandidates (rules : Rules) (symbol : String) (direction : Direction) (horizonDays : ℤ)
    (premiumCap : ℚ) (today : Date) : DeskM (List OptionContract) := do
  let lo ← .check (minDte horizonDays rules)
  let hi ← .check (rules.getInt .strategy "option_max_dte")
  match ← askChain symbol (today + lo) (today + hi) (kindOf direction) with
  | .error .crashed => .raise .crashed
  | .error _ => .raise (.deskRefused .chainReadFailed)
  | .ok chain => .check (select chain direction horizonDays premiumCap rules)

def fundingIsOption : Funding → Bool
  | .shares => false
  | _ => true

/-- Shares, at a limit the model gives. -/
def fundShares (cfg : Settings) (cin : CallIn) (symbol bench : String) (last inval : ℚ)
    (chase : ℚ) (book : BookState) (correlated : List String) : Look Plan := do
  .check (refuseIf (cin.direction ≠ .up) (.deskRefused .sharesFundUpOnly))
  match cin.maxEntryPrice with
  | none => .raise (.deskRefused .sharesNeedMaxEntry)
  | some text => do
    let maxEntry ← .check (parsePrice text .maxEntryPrice)
    .check (refuseIf (last * (1 + chase / 100) < maxEntry)
      (.deskRefused (.chasesLast maxEntry chase last)))
    let bars ← .get fun s => s.barsFor symbol none (some corrBars)
    match atrPct bars with
    | none => .raise (.deskRefused (.noAtr symbol))
    | some atr => do
      let ceiling ← .check (cfg.rules.get .strategy "max_daily_atr_pct")
      .check (refuseIf (ceiling < atr) (.deskRefused (.atrCeiling symbol atr ceiling)))
      .check (refuseIf (maxEntry ≤ inval) (.deskRefused .invalidationAboveEntry))
      let qty ← .check (shareQuantity cin.conviction book.equity maxEntry cfg.rules)
      .check (checkBook book symbol bench (maxEntry * qty) false correlated cfg.rules cfg.reserve)
      return ⟨.shares, symbol, qty, maxEntry, some atr⟩

/-- The limit of an option order: what the model gives, if it does not
chase the contract's own fresh ask, else as far as a chase may go. -/
def optionLimit (cin : CallIn) (chase ask : ℚ) : Except Exc ℚ :=
  let ceiling := cents (ask * (1 + chase / 100))
  match cin.maxEntryPrice with
  | none => .ok ceiling
  | some text => do
    let maxEntry ← parsePrice text .maxEntryPrice
    refuseIf (ceiling < maxEntry) (.deskRefused (.chasesAsk maxEntry chase ask))
    return maxEntry

/-- An option, among the contracts that clear the floors right now. -/
def fundOption (cfg : Settings) (now : Instant) (cin : CallIn) (symbol bench : String)
    (chase : ℚ) (book : BookState) (correlated : List String) : DeskM Plan := do
  let want : Instrument × Funding :=
    if cin.direction = .up then (.call, .call) else (.put, .put)
  .check (refuseIf (cin.funding ≠ want.2) (.deskRefused (.wrongOptionKind cin.direction want.1)))
  match cin.optionSymbol with
  | none => .raise (.deskRefused .optionNeedsSymbol)
  | some osi => do
    .check (refuseIf (osi = "") (.deskRefused .optionNeedsSymbol))
    let pct ← .check (convictionPct true cin.conviction cfg.rules)
    let cap := capDollars pct book.equity
    let cands ← fetchCandidates cfg.rules symbol cin.direction cin.horizonDays cap
      (cfg.et.date now)
    match cands.find? fun c => sameOsi cfg c.osi osi with
    | none => .raise (.deskRefused (.notACandidate osi (cands.map (·.osi))))
    | some chosen => do
      let quotes ← freshQuotes now [chosen.osi]
      let quote ← .check (quotes.get chosen.osi)
      let maxEntry ← .check (optionLimit cin chase quote.ask)
      let qty ← .check (optionQuantity cin.conviction book.equity maxEntry cfg.rules)
      .check (checkBook book symbol bench (maxEntry * 100 * qty) true correlated cfg.rules
        cfg.reserve)
      return ⟨want.1, chosen.osi, qty, maxEntry, none⟩

def fund (cfg : Settings) (now : Instant) (cin : CallIn) (symbol bench : String)
    (last inval : ℚ) : DeskM Plan := do
  let _ ← .check (convictionPct (fundingIsOption cin.funding) cin.conviction cfg.rules)
  let chase ← .check (cfg.rules.get .strategy "max_entry_chase_pct")
  let book ← .scan (bookState none)
  let correlated ← .scan (correlatedWith cfg symbol book)
  if cin.funding = .shares then
    .scan (fundShares cfg cin symbol bench last inval chase book correlated)
  else fundOption cfg now cin symbol bench chase book correlated

/-! ## Submitting -/

/-- The gates before any price is read: the universe, the day's cap, one
open call a name and direction, and the pitch the call adopts. -/
def admitCall (cfg : Settings) (now : Instant) (cin : CallIn) (symbol : String) : Look Origin := do
  let tradeable ← tradeableSymbols cfg
  .check (refuseIf (symbol ∉ tradeable) (.deskRefused (.notTradeable symbol)))
  let cap ← .check (cfg.rules.getInt .strategy "desk_max_new_calls_per_day")
  let made ← callsMadeOn (cfg.et.date now)
  .check (refuseIf (cap ≤ made) (.deskRefused (.dailyCap cap)))
  match ← openCallFor symbol cin.direction with
  | some existing => .raise (.deskRefused (.stillOpen existing.id symbol cin.direction))
  | none => match cin.pitchId with
    | none => return .pm
    | some pid => do
      match ← getPitch pid with
      | none => .raise (.deskRefused (.pitchNotOpen pid))
      | some (p, withdrawn) => do
        .check (refuseIf (withdrawn = true) (.deskRefused (.pitchNotOpen pid)))
        let res ← resolutionFor .pitch p.id
        .check (refuseIf (res.isSome = true) (.deskRefused (.pitchNotOpen pid)))
        .check (refuseIf ((p.symbol, p.direction) ≠ (symbol, cin.direction))
          (.deskRefused (.pitchMismatch p.id p.symbol p.direction)))
        return .pitch

/-- The row a submission becomes, priced by the quotes it read. -/
def newCall (cfg : Settings) (now : Instant) (cin : CallIn) (symbol bench : String)
    (target inval last spy benchRef : ℚ) (origin : Origin) : NewCall where
  madeAt := now
  session := cfg.et.date now
  origin := origin
  pitchId := if origin = .legacy then none else cin.pitchId
  extendsCallId := none
  symbol := symbol
  direction := cin.direction
  thesis := cin.thesis
  target := target
  invalidation := inval
  horizonDays := cin.horizonDays
  conviction := cin.conviction
  benchmark := bench
  refPrice := last
  spyRef := spy
  benchRef := benchRef
  funding := if origin = .legacy then .none else cin.funding

/-- A view on a position already held in the real account; never funded. -/
def legacyCall (cfg : Settings) (now : Instant) (cin : CallIn) (symbol bench : String)
    (target inval : ℚ) : DeskM CallOut := do
  .check (refuseIf (cin.funding ≠ .none) (.deskRefused .legacyFunding))
  let acct ← .scan (.get (·.latestAccount?))
  .check (refuseIf (¬(acct.any fun a => a.positions.any fun p => p.1 == symbol) = true)
    (.deskRefused (.notInAccount symbol)))
  let existing ← .scan (openCallFor symbol cin.direction true)
  .check (refuseIf (existing.isSome = true) (.deskRefused (.legacyOpen symbol)))
  let q ← freshQuotes now [symbol, "SPY", bench]
  let last := (← .check (q.get symbol)).last
  .check (checkLevels cin.direction last target inval cfg.rules)
  let spy := (← .check (q.get "SPY")).last
  let benchRef := (← .check (q.get bench)).last
  let call ← insertCall
    (newCall cfg now cin symbol bench target inval last spy benchRef .legacy)
  return ⟨call.id, .legacy, last, none⟩

/-- The plan of a funded call; an unfunded one has none. -/
def planFor (cfg : Settings) (now : Instant) (cin : CallIn) (symbol bench : String)
    (last inval : ℚ) : DeskM (Option Plan) := do
  if cin.funding = .none then return none
  else
    let plan ← fund cfg now cin symbol bench last inval
    return some plan

/-- The second transaction: the proposal of a funded call. -/
def proposeFor (now : Instant) (symbol : String) (call : Call) :
    Option Plan → DeskM (Option Proposal)
  | none => return none
  | some plan => do
    let p ← createProposal call.id now plan.instrument plan.symbol symbol plan.quantity
      plan.maxEntry plan.atrPct
    return some p

def submitCall (cfg : Settings) (now : Instant) (cin : CallIn) : DeskM CallOut := do
  let symbol := cfg.upper (strip cin.symbol)
  let bench ← .check (checkBenchmark cfg.upper cin.benchmark)
  .check (checkHorizon cin.horizonDays cfg.rules)
  let target ← .check (parsePrice cin.target .target)
  let inval ← .check (parsePrice cin.invalidation .invalidation)
  if cin.legacy then legacyCall cfg now cin symbol bench target inval
  else
    let origin ← .scan (admitCall cfg now cin symbol)
    let q ← freshQuotes now [symbol, "SPY", bench]
    let last := (← .check (q.get symbol)).last
    .check (checkLevels cin.direction last target inval cfg.rules)
    let plan ← planFor cfg now cin symbol bench last inval
    let spy := (← .check (q.get "SPY")).last
    let benchRef := (← .check (q.get bench)).last
    let call ← insertCall
      (newCall cfg now cin symbol bench target inval last spy benchRef origin)
    let prop ← proposeFor now symbol call plan
    return ⟨call.id, call.origin, last, prop.map proposalOut⟩

/-! ## Standing calls -/

/-- Whether one of the positions rides the call. -/
def heldByLoop (callId : ℕ) : List PaperPosition → Look Bool
  | [] => return false
  | p :: ps => do
    let cid ← currentCallId p.callId
    if cid = callId then return true else heldByLoop callId ps

def heldBy (callId : ℕ) : Look Bool := do
  heldByLoop callId (← openPositions)

/-- The gates of an extension: an original desk call, not extended yet, at
its horizon, with a position to carry. -/
def admitExtension (callId : ℕ) : Look Call := do
  match ← getCall callId with
  | none => .raise (.deskRefused (.noDeskCall callId))
  | some old => do
    .check (refuseIf (old.origin = .legacy) (.deskRefused (.noDeskCall callId)))
    .check (refuseIf (old.extendsCallId.isSome = true) (.deskRefused (.extensionUsed callId)))
    let extended ← isExtended callId
    .check (refuseIf (extended = true) (.deskRefused (.extensionUsed callId)))
    let res ← resolutionFor .call callId
    .check (refuseIf (res.map (·.how) ≠ some .horizon) (.deskRefused .notAtHorizon))
    let held ← heldBy callId
    .check (refuseIf (held = false) (.deskRefused (.nothingToCarry callId)))
    return old

/-- The row an extension becomes. -/
def extensionOf (cfg : Settings) (now : Instant) (old : Call) (thesis : String)
    (target inval last spy benchRef : ℚ) (horizonDays : ℤ) : NewCall where
  madeAt := now
  session := cfg.et.date now
  origin := .pm
  pitchId := none
  extendsCallId := some old.id
  symbol := old.symbol
  direction := old.direction
  thesis := thesis
  target := target
  invalidation := inval
  horizonDays := horizonDays
  conviction := old.conviction
  benchmark := old.benchmark
  refPrice := last
  spyRef := spy
  benchRef := benchRef
  funding := old.funding

def extendCall (cfg : Settings) (now : Instant) (callId : ℕ) (target invalidation : String)
    (horizonDays : ℤ) (thesis : String) : DeskM CallOut := do
  let old ← .scan (admitExtension callId)
  .check (checkHorizon horizonDays cfg.rules)
  let t ← .check (parsePrice target .target)
  let i ← .check (parsePrice invalidation .invalidation)
  let q ← freshQuotes now [old.symbol, "SPY", old.benchmark]
  let last := (← .check (q.get old.symbol)).last
  .check (checkLevels old.direction last t i cfg.rules)
  let spy := (← .check (q.get "SPY")).last
  let benchRef := (← .check (q.get old.benchmark)).last
  let new ← insertCall (extensionOf cfg now old thesis t i last spy benchRef horizonDays)
  return ⟨new.id, new.origin, last, none⟩

/-- The gates of a tightening: a live desk call that a position rides. -/
def admitTightening (callId : ℕ) : Look Call := do
  match ← getCall callId with
  | none => .raise (.deskRefused (.noCall callId))
  | some call => do
    .check (refuseIf (call.origin = .legacy) (.deskRefused .legacyStop))
    let res ← resolutionFor .call callId
    .check (refuseIf (res.isSome = true) (.deskRefused (.resolvedCall callId)))
    let held ← heldBy callId
    .check (refuseIf (held = false) (.deskRefused (.nothingToProtect callId)))
    return call

/-- Between the current level and the last price. -/
def between (direction : Direction) (cur new last : ℚ) : Prop :=
  match direction with
  | .up => cur < new ∧ new < last
  | .down => last < new ∧ new < cur

instance (direction : Direction) (cur new last : ℚ) : Decidable (between direction cur new last) :=
  match direction with
  | .up => inferInstanceAs (Decidable (_ ∧ _))
  | .down => inferInstanceAs (Decidable (_ ∧ _))

def tightenCall (now : Instant) (callId : ℕ) (invalidation : String) : DeskM ℚ := do
  let call ← .scan (admitTightening callId)
  let new ← .check (parsePrice invalidation .invalidation)
  let cur ← .scan (effectiveInvalidation call)
  let q ← freshQuotes now [call.symbol]
  let last := (← .check (q.get call.symbol)).last
  .check (refuseIf (¬ between call.direction cur new last) (.deskRefused (.notBetween cur last)))
  tighten callId new now
  return new

/-- Which book an exit request is about. -/
inductive ExitBook where
  | paper | legacy
deriving DecidableEq, Repr

def requestExitFor (cfg : Settings) (now : Instant) (symbol reason : String) :
    DeskM ExitBook := do
  let sym := cfg.upper (strip symbol)
  let held := (← .scan openPositions).filter fun p => p.underlying == sym
  if held ≠ [] then
    held.foldlM (fun _ p => do
      let _ ← requestExit sym (some p.proposalId) reason now
      return ()) ()
    return .paper
  else
    let acct ← .scan (.get (·.latestAccount?))
    .check (refuseIf (¬(acct.any fun a => a.positions.any fun p => p.1 == sym) = true)
      (.deskRefused (.nothingHeld sym)))
    let _ ← requestExit sym none reason now
    return .legacy

end TradeDesk.Desk
