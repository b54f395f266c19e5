import TradeDesk.Models

/-!
# The store

The tables of `store/schema.sql` the desk reads and writes, each a list of
rows in primary-key order. Every ledger is append-only (the schema has
triggers against update and delete), so a new row's id is one more than
the largest and the row goes at the end; only a proposal's posting stamps
and an exit request's `done_at` are ever set later, and `paper_marks` is
keyed by symbol and overwritten.

Left out are the columns nothing here reads back: a pitch's thesis and
evidence, an outcome's `detail_json`, `written_at`, bar volumes, and when a
pitch was withdrawn.
-/

namespace TradeDesk

/-! ## Rows -/

/-- A call as the PM makes it. -/
structure NewCall where
  madeAt : Instant
  session : Date
  origin : Origin
  pitchId : Option ℕ
  extendsCallId : Option ℕ
  symbol : String
  direction : Direction
  thesis : String
  target : ℚ
  invalidation : ℚ
  horizonDays : ℤ
  conviction : ℕ
  benchmark : String
  refPrice : ℚ
  spyRef : ℚ
  benchRef : ℚ
  funding : Funding
deriving DecidableEq, Repr

structure Call extends NewCall where
  id : ℕ
deriving DecidableEq, Repr

structure CallTightening where
  id : ℕ
  callId : ℕ
  at_ : Instant
  invalidation : ℚ
deriving DecidableEq, Repr

structure Resolution where
  kind : ItemKind
  itemId : ℕ
  refDate : Date
  refPrice : ℚ
  resolvedOn : Date
  how : How
  exitPrice : ℚ
  retPct : ℚ
  spyRetPct : ℚ
  benchRetPct : ℚ
deriving DecidableEq, Repr

/-- A pitch as an analyst files it. -/
structure NewPitch where
  analyst : Analyst
  filedAt : Instant
  session : Date
  symbol : String
  direction : Direction
  target : ℚ
  invalidation : ℚ
  horizonDays : ℤ
  conviction : ℕ
  benchmark : String
deriving DecidableEq, Repr

structure Pitch extends NewPitch where
  id : ℕ
deriving DecidableEq, Repr

structure Proposal where
  id : ℕ
  callId : ℕ
  createdAt : Instant
  instrument : Instrument
  symbol : String
  underlying : String
  quantity : ℤ
  maxEntryPrice : ℚ
  atrPct : Option ℚ
  postedAt : Option Instant
  vetoDeadline : Option Instant
  messageId : Option String
deriving DecidableEq, Repr

structure ProposalOutcome where
  proposalId : ℕ
  at_ : Instant
  outcome : Outcome
  vetoed : Bool
  approved : Bool
deriving DecidableEq, Repr

structure PaperFill where
  proposalId : ℕ
  at_ : Instant
  side : Side
  quantity : ℤ
  price : ℚ
  reason : FillReason
  stopTrigger : Option ℚ
  stopLimit : Option ℚ
deriving DecidableEq, Repr

structure PaperMark where
  symbol : String
  price : ℚ
  at_ : Instant
deriving DecidableEq, Repr

structure ExitRequest where
  id : ℕ
  at_ : Instant
  symbol : String
  proposalId : Option ℕ
  reason : String
  doneAt : Option Instant
deriving DecidableEq, Repr

structure UniverseRow where
  asof : Date
  symbol : String
  dollarVol : ℚ
  qualified : Bool
deriving DecidableEq, Repr

/-- An account read: its positions as symbol and quantity, in the order
they were written. -/
structure AccountSnapshot where
  id : ℕ
  positions : List (String × ℤ)
deriving DecidableEq, Repr

/-- The database. `paperBook` is the starting equity, and the starting date
says something only where there is one. -/
structure Store where
  calls : List Call
  callTightenings : List CallTightening
  resolutions : List Resolution
  pitches : List Pitch
  pitchWithdrawals : List ℕ
  paperBook : Option ℚ
  bookStartDate : Date
  proposals : List Proposal
  proposalOutcomes : List ProposalOutcome
  paperFills : List PaperFill
  paperMarks : List PaperMark
  exitRequests : List ExitRequest
  bars : List (String × DailyBar)
  universeRows : List UniverseRow
  accountSnapshots : List AccountSnapshot
deriving DecidableEq, Repr

/-- The id of the next row of a table whose rows have these ids. -/
def nextId (ids : List ℕ) : ℕ := ids.foldr max 0 + 1

theorem lt_nextId {ids : List ℕ} {i : ℕ} (h : i ∈ ids) : i < nextId ids := by
  unfold nextId
  induction ids with
  | nil => cases h
  | cons j js ih =>
    rw [List.foldr_cons]
    rcases List.mem_cons.mp h with rfl | hj
    · omega
    · have := ih hj
      omega

theorem nextId_not_mem (ids : List ℕ) : nextId ids ∉ ids :=
  fun h => Nat.lt_irrefl _ (lt_nextId h)

namespace Store

/-! ## What the queries answer -/

variable (s : Store)

/-- `id NOT IN (SELECT item_id FROM resolutions WHERE kind=..)`, negated. -/
def resolved (kind : ItemKind) (itemId : ℕ) : Bool :=
  s.resolutions.any fun r => r.kind == kind && r.itemId == itemId

def resolution? (kind : ItemKind) (itemId : ℕ) : Option Resolution :=
  s.resolutions.find? fun r => r.kind == kind && r.itemId == itemId

def call? (id : ℕ) : Option Call := s.calls.find? fun c => c.id == id

/-- The first call that extends this one. -/
def extension? (id : ℕ) : Option Call := s.calls.find? fun c => c.extendsCallId == some id

def lastTightening? (callId : ℕ) : Option CallTightening :=
  (s.callTightenings.filter fun t => t.callId == callId).getLast?

def hasOutcome (proposalId : ℕ) : Bool :=
  s.proposalOutcomes.any fun o => o.proposalId == proposalId

def buys (proposalId : ℕ) : List PaperFill :=
  s.paperFills.filter fun f => f.proposalId == proposalId && f.side == .buy

def sells (proposalId : ℕ) : List PaperFill :=
  s.paperFills.filter fun f => f.proposalId == proposalId && f.side == .sell

/-- `SUM(quantity)`. -/
def quantitySum (fills : List PaperFill) : ℤ := (fills.map (·.quantity)).sum

def bought (proposalId : ℕ) : ℤ := quantitySum (s.buys proposalId)

def sold (proposalId : ℕ) : ℤ := quantitySum (s.sells proposalId)

def mark? (symbol : String) : Option PaperMark := s.paperMarks.find? fun m => m.symbol == symbol

/-- Bars of a symbol, oldest first; `limit` keeps the newest. -/
def barsFor (symbol : String) (since : Option Date) (limit : Option ℕ) : List DailyBar :=
  let rows := (s.bars.filter fun b => b.1 == symbol && match since with
    | none => true
    | some d => decide (d ≤ b.2.date)).map (·.2)
  match limit with
  | none => rows
  | some n => rows.drop (rows.length - n)

/-- The bars since a date are those stored from then on. -/
theorem mem_barsFor {s : Store} {symbol : String} {since : Date} {b : DailyBar} :
    b ∈ s.barsFor symbol (some since) none ↔ (symbol, b) ∈ s.bars ∧ since ≤ b.date := by
  unfold barsFor
  simp only [List.mem_map, List.mem_filter, Bool.and_eq_true, beq_iff_eq, decide_eq_true_eq]
  constructor
  · intro h
    obtain ⟨row, ⟨hmem, hsym, hdate⟩, rfl⟩ := h
    subst hsym
    exact ⟨hmem, hdate⟩
  · intro h
    exact ⟨(symbol, b), ⟨h.1, rfl, h.2⟩, rfl⟩

/-- `SELECT MAX(asof)`. -/
def universeAsof : Option Date := (s.universeRows.map (·.asof)).max?

def latestAccount? : Option AccountSnapshot := s.accountSnapshots.getLast?

end Store

end TradeDesk
