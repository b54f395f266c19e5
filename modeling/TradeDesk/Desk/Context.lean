import TradeDesk.Async.Prog
import TradeDesk.Rules
import TradeDesk.Store
import TradeDesk.Text

/-!
# What the desk's coroutines run over

The desk awaits four services: the broker's quotes and option chains, the
users behind a reaction, and the notifier. `Query` is what it asks them
and `Answer` what each may say, faults included; everything else it
awaits is the store. `DeskM` is then a coroutine of the desk and `Look` a
part of one that only reads.

A posted message is kept as the values its text prints.
-/

namespace TradeDesk.Desk

open TradeDesk.Async

/-- A Discord user as the reaction list names it. -/
structure User where
  bot : Bool
  id : String
deriving DecidableEq, Repr

inductive ReplyBody where
  | users (us : List User)
  | notList
  | notJson
deriving DecidableEq, Repr

/-- What an HTTP read ends in. -/
inductive HttpReply where
  | failed
  | reply (status : ℕ) (body : ReplyBody)
deriving DecidableEq, Repr

/-- The stop a proposal's message shows: none for an option, a refusal where
the limit is already too tight, else the stop planned off the limit. -/
inductive StopText where
  | noRestingStop
  | tooTight
  | planned (stop : StopGeometry)
deriving DecidableEq, Repr

/-- What the desk says in Discord. -/
inductive Notice where
  | proposal (p : Proposal) (call : Call) (deadline : Instant) (stop : StopText)
  | paperBuy (p : Proposal) (ask : ℚ) (stop : Option (ℚ × ℚ)) (vetoed : Bool)
  | paperSell (proposalId : ℕ) (quantity : ℤ) (symbol : String) (price : ℚ)
      (reason : FillReason)
  | recommend (symbol reason : String)
deriving DecidableEq, Repr

inductive Query where
  | quotes (symbols : List String)
  | optionChain (symbol : String) (fromDate toDate : Date) (kind : OptionKind)
  | reactionUsers (messageId emoji : String)
  | post (n : Notice)
  | postMessage (n : Notice)
deriving DecidableEq, Repr

/-- A dictionary of quotes, as the broker client returns it. -/
abbrev Quotes := List (String × Quote)

def Answer : Query → Type
  | .quotes _ => Except BrokerFault Quotes
  | .optionChain _ _ _ _ => Except BrokerFault (List OptionContract)
  | .reactionUsers _ _ => HttpReply
  | .post _ => Bool
  | .postMessage _ => Option String

abbrev DeskM (α : Type) := Prog Store Query Answer Exc α
abbrev Look (α : Type) := Reads Store Exc α
abbrev History := List (Event Store Query Answer)

/-- Who reads reactions: nobody, or a bot that counts one approver's
reactions or, with no approver set, anybody's. -/
inductive Reactions where
  | noReactions
  | discord (approver : Option String)
deriving DecidableEq, Repr

/-- Everything that is fixed while the engine runs: the rules, the desk's
settings, the time zone, and the functions of the standard library whose
values no theorem here depends on (case mapping, and the logarithm and
square root of a decimal). -/
structure Settings where
  rules : Rules
  reserve : ℚ
  etfList : List String
  entryWindowStart : TimeOfDay
  entryWindowEnd : TimeOfDay
  reactions : Reactions
  et : Zone
  upper : String → String
  ln : ℚ → ℚ
  sqrt : ℚ → ℚ

def quoteMaxAge : ℤ := 300 * second

/-- `quotes.get(symbol)`. -/
def Quotes.get? (qs : Quotes) (symbol : String) : Option Quote := qs.lookup symbol

/-- `quotes[symbol]`. -/
def Quotes.get (qs : Quotes) (symbol : String) : Except Exc Quote :=
  match qs.get? symbol with
  | some q => .ok q
  | none => .error (.missingQuote symbol)

/-- No quote in the answer has a negative price. -/
def NonNegQuotes : (q : Query) → Answer q → Prop
  | .quotes _, .ok qs => ∀ e ∈ (qs : Quotes), 0 ≤ e.2.last ∧ 0 ≤ e.2.bid ∧ 0 ≤ e.2.ask
  | _, _ => True

theorem Quotes.get?_mem {qs : Quotes} {symbol : String} {q : Quote}
    (h : qs.get? symbol = some q) : ∃ s, (s, q) ∈ qs := by
  induction qs with
  | nil => cases h
  | cons e es ih =>
    unfold Quotes.get? at h ih
    rw [List.lookup_cons] at h
    split at h
    · cases h
      exact ⟨e.1, List.mem_cons_self⟩
    · obtain ⟨s, hs⟩ := ih h
      exact ⟨s, List.mem_cons_of_mem e hs⟩

/-- Every non-negative answer gives non-negative quotes. -/
theorem nonNeg_get? {symbols : List String} {qs : Quotes} {symbol : String} {q : Quote}
    (hqs : NonNegQuotes (.quotes symbols) (.ok qs)) (h : qs.get? symbol = some q) :
    0 ≤ q.last ∧ 0 ≤ q.bid ∧ 0 ≤ q.ask := by
  obtain ⟨s, hs⟩ := Quotes.get?_mem h
  exact hqs _ hs

end TradeDesk.Desk
