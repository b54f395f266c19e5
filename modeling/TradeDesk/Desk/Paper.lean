import TradeDesk.Desk.Calls
import TradeDesk.Desk.Sizing

/-!
# The paper book

`tc/desk/paper.py`: proposals, their outcomes, the fills, the marks, and
the four folds over them: open positions, cash, closed trades, and the
book as sizing must see it (`bookState`), with every pending proposal
taken as if it had filled at its worst case.
-/

namespace TradeDesk

/-- Shares a unit of the instrument stands for. -/
def mult : Instrument → ℚ
  | .shares => 1
  | .call => 100
  | .put => 100

theorem mult_pos (i : Instrument) : 0 < mult i := by
  cases i <;> decide +kernel

/-- What a proposal costs if it fills at its limit. -/
def Proposal.worstCase (p : Proposal) : ℚ := p.maxEntryPrice * p.quantity * mult p.instrument

structure PaperPosition where
  proposalId : ℕ
  callId : ℕ
  instrument : Instrument
  symbol : String
  underlying : String
  quantity : ℤ
  entryPrice : ℚ
  openedAt : Instant
  stopTrigger : Option ℚ
  stopLimit : Option ℚ
deriving DecidableEq, Repr

structure ClosedTrade where
  proposalId : ℕ
  callId : ℕ
  instrument : Instrument
  symbol : String
  pnl : ℚ
  retPct : ℚ
deriving DecidableEq, Repr

namespace Store

variable (s : Store)

/-! ## Statements -/

def addProposal (callId : ℕ) (createdAt : Instant) (instrument : Instrument)
    (symbol underlying : String) (quantity : ℤ) (maxEntryPrice : ℚ) (atrPct : Option ℚ) : Store :=
  { s with proposals := s.proposals ++ [⟨nextId (s.proposals.map (·.id)), callId, createdAt,
      instrument, symbol, underlying, quantity, maxEntryPrice, atrPct, none, none, none⟩] }

/-- `UPDATE proposals SET .. WHERE id=? AND posted_at IS NULL`. -/
def stampPosted (proposalId : ℕ) (postedAt vetoDeadline : Instant) (messageId : Option String) :
    Store :=
  { s with proposals := s.proposals.map fun p =>
      if p.id = proposalId ∧ p.postedAt = none then
        { p with postedAt := some postedAt, vetoDeadline := some vetoDeadline, messageId }
      else p }

def withOutcome (o : ProposalOutcome) : Store :=
  { s with proposalOutcomes := s.proposalOutcomes ++ [o] }

/-- An insert the primary key rejects when the proposal has its outcome. -/
def addOutcome (o : ProposalOutcome) : Except Exc Store :=
  if s.hasOutcome o.proposalId then .error .integrityError else .ok (s.withOutcome o)

def addFill (f : PaperFill) : Store := { s with paperFills := s.paperFills ++ [f] }

/-- `INSERT .. ON CONFLICT(symbol) DO UPDATE`. -/
def upsertMark (symbol : String) (price : ℚ) (now : Instant) : Store :=
  { s with paperMarks :=
      if (s.mark? symbol).isSome then s.paperMarks.map fun m =>
        if m.symbol = symbol then { m with price, at_ := now } else m
      else s.paperMarks ++ [⟨symbol, price, now⟩] }

def addExitRequest (symbol : String) (proposalId : Option ℕ) (reason : String) (now : Instant) :
    Store :=
  { s with exitRequests := s.exitRequests ++
      [⟨nextId (s.exitRequests.map (·.id)), now, symbol, proposalId, reason, none⟩] }

def markExitDone (requestId : ℕ) (now : Instant) : Store :=
  { s with exitRequests := s.exitRequests.map fun r =>
      if r.id = requestId then { r with doneAt := some now } else r }

/-! ## Queries -/

def unposted : List Proposal :=
  s.proposals.filter fun p => p.postedAt == none && !s.hasOutcome p.id

def pending : List Proposal := s.proposals.filter fun p => !s.hasOutcome p.id

/-- No outcome recorded and no entry fill. -/
def committed : List Proposal :=
  s.proposals.filter fun p => !s.hasOutcome p.id && (s.buys p.id).isEmpty

/-- One row for each entry fill with something left unsold. -/
def positionOf (p : Proposal) (b : PaperFill) : PaperPosition :=
  ⟨p.id, p.callId, p.instrument, p.symbol, p.underlying, b.quantity - s.sold p.id, b.price, b.at_,
    b.stopTrigger, b.stopLimit⟩

def openPositions : List PaperPosition :=
  (s.proposals.flatMap fun p => (s.buys p.id).map (s.positionOf p)).filter fun x => 0 < x.quantity

/-- What a fill moves: in for a sale, out for a purchase. -/
def cashFlow (p : Proposal) (f : PaperFill) : ℚ :=
  let value := f.price * f.quantity * mult p.instrument
  if f.side = .sell then value else -value

/-- The fills joined to their proposals. -/
def joinedFills : List (PaperFill × Proposal) :=
  s.paperFills.flatMap fun f =>
    (s.proposals.filter fun p => p.id == f.proposalId).map fun p => (f, p)

def cash (startEquity : ℚ) : ℚ := startEquity + (s.joinedFills.map fun x => cashFlow x.2 x.1).sum

def spentOn (m : ℚ) (fills : List PaperFill) : ℚ := (fills.map fun f => f.price * f.quantity * m).sum

def closedTradeOf (p : Proposal) : ClosedTrade :=
  let buy := spentOn (mult p.instrument) (s.buys p.id)
  let sell := spentOn (mult p.instrument) (s.sells p.id)
  ⟨p.id, p.callId, p.instrument, p.symbol, sell - buy, (sell - buy) / buy * 100⟩

/-- Bought, and all of it sold. -/
def closedProposals : List Proposal :=
  s.proposals.filter fun p => 0 < s.bought p.id && s.bought p.id == s.sold p.id

def pendingExitRequests : List ExitRequest := s.exitRequests.filter fun r => r.doneAt == none

end Store

namespace Desk

open TradeDesk.Async

def bookRow : Look (Option ℚ) := .get (·.paperBook)

def createProposal (callId : ℕ) (createdAt : Instant) (instrument : Instrument)
    (symbol underlying : String) (quantity : ℤ) (maxEntryPrice : ℚ) (atrPct : Option ℚ) :
    DeskM Proposal := do
  let pid ← .transact
    (fun s => s.addProposal callId createdAt instrument symbol underlying quantity maxEntryPrice
      atrPct)
    fun s => nextId (s.proposals.map (·.id))
  match ← .scan (.get fun s => s.proposals.find? fun p => p.id == pid) with
  | some p => pure p
  | none => .raise .assertion

/-- Claim the post: true only for the one caller that marked it first. -/
def markPosted (proposalId : ℕ) (postedAt vetoDeadline : Instant) (messageId : Option String) :
    DeskM Bool :=
  .transact (fun s => s.stampPosted proposalId postedAt vetoDeadline messageId)
    fun s => s.proposals.any fun p => p.id == proposalId && p.postedAt == none

def unpostedProposals : Look (List Proposal) := .get (·.unposted)

def pendingProposals : Look (List Proposal) := .get (·.pending)

def committedProposals : Look (List Proposal) := .get (·.committed)

def recordOutcome (proposalId : ℕ) (now : Instant) (outcome : Outcome)
    (vetoed : Bool := false) (approved : Bool := false) : DeskM Unit :=
  .tryUpdate fun s => s.addOutcome ⟨proposalId, now, outcome, vetoed, approved⟩

def recordFill (proposalId : ℕ) (now : Instant) (side : Side) (quantity : ℤ) (price : ℚ)
    (reason : FillReason) (stopTrigger : Option ℚ := none) (stopLimit : Option ℚ := none) :
    DeskM Unit :=
  .update fun s => s.addFill ⟨proposalId, now, side, quantity, price, reason, stopTrigger, stopLimit⟩

def openPositions : Look (List PaperPosition) := .get (·.openPositions)

def cash (startEquity : ℚ) : Look ℚ := .get fun s => s.cash startEquity

def upsertMark (symbol : String) (price : ℚ) (now : Instant) : DeskM Unit :=
  .update fun s => s.upsertMark symbol price now

def marks : Look (List PaperMark) := .get (·.paperMarks)

/-- Trades bought and sold whole, each with its own read of its fills. A
purchase at nothing has no return, and dividing by it raises. -/
def closedTrades : Look (List ClosedTrade) := do
  let ps ← .get (·.closedProposals)
  .each (fun p => .read fun s =>
    if Store.spentOn (mult p.instrument) (s.buys p.id) = 0 then .raise .divisionByZero
    else .ret (s.closedTradeOf p)) ps

/-- Expires every unfilled proposal made on an earlier Eastern session. -/
def expireStaleProposals (cfg : Settings) (now : Instant) : DeskM (List ℕ) := do
  let today := cfg.et.date now
  let ps ← .scan committedProposals
  ps.foldlM (fun out p => do
    if cfg.et.date p.createdAt < today then
      recordOutcome p.id now .expired
      return out ++ [p.id]
    else return out) []

/-- The price a symbol's mark gives, or this one. -/
def markedAt (mk : List PaperMark) (symbol : String) (entry : ℚ) : ℚ :=
  match mk.find? fun m => m.symbol == symbol with
  | some m => m.price
  | none => entry

def benchmarkOf : Option Call → String
  | none => "SPY"
  | some c => c.benchmark

/-- An open position at its mark. -/
def positionHolding (mk : List PaperMark) (p : PaperPosition) : Look Holding := do
  let call ← getCall (← currentCallId p.callId)
  let m := mult p.instrument
  let isOption := p.instrument != .shares
  return ⟨p.underlying, markedAt mk p.symbol p.entryPrice * p.quantity * m, benchmarkOf call,
    isOption, if isOption then p.entryPrice * p.quantity * m else 0, false⟩

/-- A pending proposal at its worst case. -/
def pendingHolding (q : Proposal) : Look Holding := do
  let call ← getCall q.callId
  let isOption := q.instrument != .shares
  return ⟨q.underlying, q.worstCase, benchmarkOf call, isOption,
    if isOption then q.worstCase else 0, true⟩

/-- The book as sizing must see it. `exclude` leaves one proposal out: the
watch re-checks a proposal at its fill price against the book without it. -/
def bookState (exclude : Option ℕ := none) : Look BookState := do
  match ← bookRow with
  | none => .raise (.deskRefused .bookNotStarted)
  | some startEquity => do
    let mk ← marks
    let held ← .each (positionHolding mk) (← openPositions)
    let qs := (← committedProposals).filter fun q => some q.id != exclude
    let promised ← .each pendingHolding qs
    let c := (← cash startEquity) - (qs.map (·.worstCase)).sum
    let holdings := held ++ promised
    return ⟨c + marketValueOf holdings, c, holdings⟩

def requestExit (symbol : String) (proposalId : Option ℕ) (reason : String) (now : Instant) :
    DeskM ℕ :=
  .transact (fun s => s.addExitRequest symbol proposalId reason now)
    fun s => nextId (s.exitRequests.map (·.id))

def pendingExitRequests : Look (List ExitRequest) := .get (·.pendingExitRequests)

def markExitDone (requestId : ℕ) (now : Instant) : DeskM Unit :=
  .update fun s => s.markExitDone requestId now

end Desk

end TradeDesk
