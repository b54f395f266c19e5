import TradeDesk.Desk.Approval
import TradeDesk.Desk.Pm
import TradeDesk.Desk.Post

/-!
# The watch

`tc/desk/watch.py`: every five minutes in the session, fill the paper
entries whose veto window has closed, then run the paper book's exits. A
fill and the outcome that closes its proposal are two statements, the fill
first.
-/

namespace TradeDesk.Desk

open TradeDesk.Async

def entryCutoff : TimeOfDay := clockTime 15 55
def resolvedExitFrom : TimeOfDay := clockTime 10 0

structure WatchReport where
  filled : List ℕ
  skipped : List (ℕ × Outcome)
  exits : List (ℕ × FillReason)
  recommended : List String
  blind : Bool
  outsideRth : Bool
deriving DecidableEq, Repr

namespace WatchReport

def empty : WatchReport := ⟨[], [], [], [], false, false⟩

def skip (rep : WatchReport) (pid : ℕ) (o : Outcome) : WatchReport :=
  { rep with skipped := rep.skipped ++ [(pid, o)] }

end WatchReport

/-- `sorted(set(symbols))`. -/
def sortedSymbols (symbols : List String) : List String :=
  symbols.dedup.mergeSort

/-- Too old to act on. A missing quote is not stale. -/
def stale (q : Option Quote) (now : Instant) : Bool :=
  q.any fun q => quoteMaxAge < now - q.quoteTime

/-! ## Entries -/

/-- What a proposal's own reactions say; none are read without a message. -/
def reactionOf (cfg : Settings) (p : Proposal) : DeskM Reaction :=
  match p.messageId with
  | none => return ⟨false, false, false⟩
  | some mid => if mid = "" then return ⟨false, false, false⟩ else readReactions cfg.reactions mid

/-- Approved, or its veto window is over. -/
def due (p : Proposal) (r : Reaction) (now : Instant) : Bool :=
  r.approve || p.vetoDeadline.any fun d => d ≤ now

/-- The stop of a share entry at this ask, or why there is none. -/
def shareStop (cfg : Settings) (p : Proposal) (ask inval : ℚ) : Except Exc StopGeometry := do
  refuseIf (ask ≤ inval) (.sizingRefused .askBelowInvalidation)
  entryStop ask (p.atrPct.getD 0) inval cfg.rules

/-- The underlying has reached the invalidation. -/
def through (direction : Direction) (last inval : ℚ) : Bool :=
  match direction with
  | .up => last ≤ inval
  | .down => inval ≤ last

/-- The book as it is now takes this fill at the price actually paid. -/
def recheckBook (cfg : Settings) (p : Proposal) (call : Call) (ask : ℚ) :
    Look (Except Exc Unit) := do
  let book ← bookState (some p.id)
  let correlated ← correlatedWith cfg p.underlying book
  return checkBook book p.underlying call.benchmark (ask * p.quantity * mult p.instrument)
    (p.instrument != .shares) correlated cfg.rules cfg.reserve

/-- Drops the proposal with this outcome. -/
def drop (p : Proposal) (r : Reaction) (now : Instant) (o : Outcome) (rep : WatchReport) :
    DeskM WatchReport := do
  recordOutcome p.id now o r.veto r.approve
  return rep.skip p.id o

/-- The last two statements of an entry, and its notice. -/
def buy (cfg : Settings) (p : Proposal) (call : Call) (ask : ℚ) (stop : Option (ℚ × ℚ))
    (r : Reaction) (now : Instant) (rep : WatchReport) : DeskM WatchReport := do
  match ← .scan (recheckBook cfg p call ask) with
  | .error (.sizingRefused _) => drop p r now .skippedInvalid rep
  | .error e => .raise e
  | .ok () => do
    recordFill p.id now .buy p.quantity ask .entry (stop.map (·.1)) (stop.map (·.2))
    recordOutcome p.id now .filled r.veto r.approve
    let _ ← askPost (.paperBuy p ask stop r.veto)
    return { rep with filled := rep.filled ++ [p.id] }

def fillEntry (cfg : Settings) (p : Proposal) (q u : Option Quote) (r : Reaction)
    (now : Instant) (rep : WatchReport) : DeskM WatchReport := do
  match q.filter fun q => 0 < q.ask ∧ q.ask ≤ p.maxEntryPrice with
  | none => drop p r now .skippedPrice rep
  | some q => do
    match ← .scan (do getCall (← currentCallId p.callId)) with
    | none => .raise .assertion
    | some call => do
      let inval ← .scan (effectiveInvalidation call)
      if p.instrument = .shares then
        match shareStop cfg p q.ask inval with
        | .error (.sizingRefused _) => drop p r now .skippedInvalid rep
        | .error e => .raise e
        | .ok stop => buy cfg p call q.ask (some (stop.trigger, stop.limit)) r now rep
      else if u.any fun u => through call.direction u.last inval then
        drop p r now .skippedInvalid rep
      else buy cfg p call q.ask none r now rep

/-- The body of the entry loop. -/
def entry (cfg : Settings) (now : Instant) (rep : WatchReport) (p : Proposal) :
    DeskM WatchReport := do
  match p.postedAt with
  | none => return rep
  | some posted =>
    if cfg.et.date posted < cfg.et.date now ∨ entryCutoff ≤ cfg.et.time now then
      drop p ⟨false, false, false⟩ now .expired rep
    else do
      let r ← reactionOf cfg p
      if due p r now = false then return rep
      else
        match ← askQuotes (sortedSymbols [p.symbol, p.underlying]) with
        | .error .unauthorized => do
          let rep ← drop p r now .skippedBlind rep
          return { rep with blind := true }
        | .error .error => return rep
        | .error .crashed => .raise .crashed
        | .ok quotes =>
          if stale (quotes.get? p.symbol) now || stale (quotes.get? p.underlying) now then
            return rep
          else fillEntry cfg p (quotes.get? p.symbol) (quotes.get? p.underlying) r now rep

def entries (cfg : Settings) (now : Instant) (rep : WatchReport) : DeskM WatchReport := do
  let ps ← .scan pendingProposals
  ps.foldlM (entry cfg now) rep

/-! ## Exits -/

/-- `x or Decimal(0)`. -/
def orZero (x : Option ℚ) : ℚ := x.getD 0

/-- The trigger the watch uses: the higher of the stored stop and the
invalidation in effect, rounded up. -/
def shareTrigger (stopTrigger : Option ℚ) (inval : ℚ) : ℚ :=
  max (orZero stopTrigger) (ceilCents inval)

/-- The limit under a trigger. One raised over the stored trigger was never
priced for, so it carries a limit of its own. -/
def exitLimit (cfg : Settings) (pos : PaperPosition) (trigger : ℚ) : Except Exc (Option ℚ) :=
  if orZero pos.stopTrigger < trigger then
    cfg.rules.stopLimitPctBelowTrigger.map fun pct =>
      some (floorCents (trigger * (100 - pct) / 100))
  else .ok pos.stopLimit

/-- The underlying has reached the target. -/
def reached (direction : Direction) (last target : ℚ) : Bool :=
  match direction with
  | .up => target ≤ last
  | .down => last ≤ target

/-- Why to sell, and at what price. -/
def exitReason (cfg : Settings) (pos : PaperPosition) (direction : Direction)
    (target inval : ℚ) (u t : Quote) (today : Date) : Except Exc (Option (FillReason × ℚ)) := do
  if pos.instrument = .shares then
    let trigger := shareTrigger pos.stopTrigger inval
    let limit ← exitLimit cfg pos trigger
    if u.last ≤ trigger then
      return some (.stop, if limit.all fun l => l ≤ u.last then trigger else t.bid)
    else if target ≤ u.last then return some (.target, t.bid)
    else return none
  else if through direction u.last inval then return some (.invalidation, t.bid)
  else if reached direction u.last target then return some (.target, t.bid)
  else
    let expiry ← osiExpiry cfg pos.symbol
    if expiry - today ≤ (← cfg.rules.optionCloseAtDte) then return some (.dteClose, t.bid)
    else return none

/-- The reasons after the price's own: a resolved call, then the PM's
request. -/
def otherReason (cfg : Settings) (now : Instant) (wanted : Bool) (cid : ℕ) (bid : ℚ) :
    Look (Option (FillReason × ℚ)) := do
  let asked := if wanted then some (FillReason.pmExit, bid) else none
  if cfg.et.time now < resolvedExitFrom then return asked
  else
    let res ← resolutionFor .call cid
    return if res.isSome then some (.callResolved, bid) else asked

def sell (pos : PaperPosition) (reason : FillReason) (price : ℚ) (now : Instant)
    (rep : WatchReport) : DeskM WatchReport := do
  recordFill pos.proposalId now .sell pos.quantity price reason
  let _ ← askPost (.paperSell pos.proposalId pos.quantity pos.symbol price reason)
  return { rep with exits := rep.exits ++ [(pos.proposalId, reason)] }

/-- What a position is marked at. -/
def markPrice (pos : PaperPosition) (u t : Quote) : ℚ :=
  if pos.instrument ≠ .shares then t.bid else u.last

/-- The body of the exit loop. -/
def exitPosition (cfg : Settings) (now : Instant) (quotes : Quotes) (wanted : List ℕ)
    (rep : WatchReport) (pos : PaperPosition) : DeskM WatchReport := do
  match quotes.get? pos.underlying, quotes.get? pos.symbol with
  | some u, some t =>
    if stale (some u) now || stale (some t) now then return rep
    else do
      upsertMark pos.symbol (markPrice pos u t) now
      let cid ← .scan (currentCallId pos.callId)
      match ← .scan (getCall cid) with
      | none => .raise .assertion
      | some call => do
        let inval ← .scan (effectiveInvalidation call)
        let hit ← .check
          (exitReason cfg pos call.direction call.target inval u t (cfg.et.date now))
        match hit with
        | some (reason, price) => sell pos reason price now rep
        | none => do
          match ← .scan (otherReason cfg now (wanted.contains pos.proposalId) cid t.bid) with
          | some (reason, price) => sell pos reason price now rep
          | none => return rep
  | _, _ => return rep

/-- The body of the loop over exit requests: a recommendation is posted
once, a paper exit is done when nothing of it is left. -/
def finishRequest (now : Instant) (stillOpen : List ℕ) (rep : WatchReport) (r : ExitRequest) :
    DeskM WatchReport := do
  match r.proposalId with
  | none => do
    let _ ← askPost (.recommend r.symbol r.reason)
    markExitDone r.id now
    return { rep with recommended := rep.recommended ++ [r.symbol] }
  | some pid =>
    if pid ∈ stillOpen then return rep
    else do
      markExitDone r.id now
      return rep

def finishRequests (now : Instant) (requests : List ExitRequest) (rep : WatchReport) :
    DeskM WatchReport := do
  let stillOpen := (← .scan openPositions).map (·.proposalId)
  requests.foldlM (finishRequest now stillOpen) rep

def exits (cfg : Settings) (now : Instant) (rep : WatchReport) : DeskM WatchReport := do
  let positions ← .scan openPositions
  let requests ← .scan pendingExitRequests
  if positions = [] then finishRequests now requests rep
  else
    match ← askQuotes (sortedSymbols (positions.map (·.underlying) ++ positions.map (·.symbol))) with
    | .error .unauthorized => return { rep with blind := true }
    | .error .error => return rep
    | .error .crashed => .raise .crashed
    | .ok quotes => do
      let wanted := requests.filterMap (·.proposalId)
      let rep ← positions.foldlM (exitPosition cfg now quotes wanted) rep
      finishRequests now requests rep

/-! ## The pass -/

/-- The engine's own window for the date, else the weekday guess. -/
def sessionWindow (cfg : Settings) (now : Instant) (window : Option MarketWindow) : MarketWindow :=
  match window with
  | some w => if w.date = cfg.et.date now then w else fallbackWindow cfg.et (cfg.et.date now)
  | none => fallbackWindow cfg.et (cfg.et.date now)

/-- Acts only while the regular session is open. -/
def runDeskWatch (cfg : Settings) (now : Instant) (window : Option MarketWindow) :
    DeskM WatchReport := do
  if phaseFor now (sessionWindow cfg now window) ≠ .rth then
    return { WatchReport.empty with outsideRth := true }
  else do
    let rep ← entries cfg now .empty
    exits cfg now rep

end TradeDesk.Desk
