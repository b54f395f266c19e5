import TradeDesk.Desk.Context

/-!
# Calls: the PM's predictions

`tc/desk/calls.py`. Rows are append-only: an extension is a new call
pointing back at the one it continues, and a tightening is a new row that
moves the exit level, never an edit to the call as made.
-/

namespace TradeDesk

namespace Store

variable (s : Store)

def addCall (c : NewCall) : Store :=
  { s with calls := s.calls ++ [{ toNewCall := c, id := nextId (s.calls.map (·.id)) }] }

def addTightening (callId : ℕ) (invalidation : ℚ) (now : Instant) : Store :=
  { s with callTightenings := s.callTightenings ++
      [⟨nextId (s.callTightenings.map (·.id)), callId, now, invalidation⟩] }

/-- The newest unresolved call on a name and direction, legacy ones apart. -/
def openCall? (symbol : String) (direction : Direction) (legacy : Bool) : Option Call :=
  (s.calls.filter fun c => c.symbol == symbol && c.direction == direction &&
    (c.origin == .legacy) == legacy && !s.resolved .call c.id).getLast?

/-- How many new calls, extensions and legacy calls apart, a session has. -/
def callsMadeOn (session : Date) : ℕ :=
  s.calls.countP fun c => c.session == session && c.origin != .legacy && c.extendsCallId == none

end Store

namespace Desk

open TradeDesk.Async

def getCall (callId : ℕ) : Look (Option Call) := .get fun s => s.call? callId

def insertCall (c : NewCall) : DeskM Call := do
  let cid ← .transact (fun s => s.addCall c) fun s => nextId (s.calls.map (·.id))
  match ← .scan (getCall cid) with
  | some got => pure got
  | none => .raise .assertion

def openCallFor (symbol : String) (direction : Direction) (legacy : Bool := false) :
    Look (Option Call) :=
  .get fun s => s.openCall? symbol direction legacy

def callsMadeOn (session : Date) : Look ℕ := .get fun s => s.callsMadeOn session

/-- The `while True` of `current_call_id`, one read a turn. -/
def followExtensions : ℕ → ℕ → Look ℕ
  | 0, _ => .raise .diverged
  | fuel + 1, cur => .read fun s => match s.extension? cur with
    | none => .ret cur
    | some c => followExtensions fuel c.id

/-- The last call of the chain of extensions that starts here. Extensions
are newer than what they extend, so a chain is no longer than the table. -/
def currentCallId (callId : ℕ) : Look ℕ := .read fun s => match s.extension? callId with
  | none => .ret callId
  | some c => followExtensions s.calls.length c.id

def isExtended (callId : ℕ) : Look Bool := .get fun s => (s.extension? callId).isSome

def tighten (callId : ℕ) (invalidation : ℚ) (now : Instant) : DeskM Unit :=
  .update fun s => s.addTightening callId invalidation now

def effectiveInvalidation (call : Call) : Look ℚ := .get fun s =>
  match s.lastTightening? call.id with
  | none => call.invalidation
  | some t => t.invalidation

def resolutionFor (kind : ItemKind) (itemId : ℕ) : Look (Option Resolution) :=
  .get fun s => s.resolution? kind itemId

end Desk

end TradeDesk
