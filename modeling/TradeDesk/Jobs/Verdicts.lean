import TradeDesk.JsonText.Decoder
import TradeDesk.Lists.Replace

/-!
# Verdict models

Each job's answer is a model of `jobs/spec.py`. `validate` is
`model_validate` of a decoded object: unknown keys are refused, each field is
there and of its type. What pydantic takes for an integer is a parameter,
`laxInt`; a string with half of a surrogate pair is no string to it.

`recoverVerdictFromText` is `_recover_verdict_from_text`: the fence marks are
removed, and from the right each brace is tried for an object that
validates. Only `JSONDecodeError` and `ValidationError` are caught.
-/

namespace TradeDesk.Jobs

open TradeDesk.JsonText TradeDesk.Lists

structure AnalystVerdict where
  pitched : List ℤ
  withdrawn : List ℤ
  summary : String
deriving DecidableEq, Repr

/-- `Literal["hold", "exit", "tighten"]`. -/
inductive Action where
  | hold | exit | tighten
deriving DecidableEq, Repr

def Action.text : Action → String
  | .hold => "hold"
  | .exit => "exit"
  | .tighten => "tighten"

structure HeldDecision where
  symbol : String
  action : Action
  reason : String
deriving DecidableEq, Repr

structure PmVerdict where
  held : List HeldDecision
  calls : List ℤ
  summary : String
deriving DecidableEq, Repr

structure MiddayVerdict where
  held : List HeldDecision
  summary : String
deriving DecidableEq, Repr

/-- The verdict models of the registered jobs. -/
inductive VerdictModel where
  | analyst | pm | midday
deriving DecidableEq, Repr

/-- An instance of one of them. -/
inductive VerdictInstance where
  | analyst (v : AnalystVerdict)
  | pm (v : PmVerdict)
  | midday (v : MiddayVerdict)
deriving DecidableEq, Repr

def VerdictInstance.model : VerdictInstance → VerdictModel
  | .analyst _ => .analyst
  | .pm _ => .pm
  | .midday _ => .midday

def VerdictInstance.summary : VerdictInstance → String
  | .analyst v => v.summary
  | .pm v => v.summary
  | .midday v => v.summary

/-! ## Validation -/

/-- The string of some code points, if none is half of a pair. -/
def textOf (us : List ℕ) : Option String :=
  if us.all fun n => !(isHigh n || isLow n) then some (String.ofList (us.map Char.ofNat)) else none

def validateStr : Value → Option String
  | .str us => textOf us
  | _ => none

def validateList {α : Type} (item : Value → Option α) : Value → Option (List α)
  | .arr xs => xs.mapM item
  | _ => none

/-- An object with no key but these: `extra="forbid"`. -/
def validateKeys (names : List String) : Value → Option (List (List ℕ × Value))
  | .obj items =>
    if items.all fun e => names.any fun name => e.1 == codes name then some items else none
  | _ => none

/-- A field that has to be there. -/
def validateField {α : Type} (items : List (List ℕ × Value)) (name : String)
    (item : Value → Option α) : Option α := (lookup items name).bind item

/-- `_ids`: an object that has an id stands for it. -/
def ids : Value → Value
  | .arr xs => .arr (xs.map fun x => match x with
    | .obj items => (lookup items "id").getD x
    | _ => x)
  | v => v

def Action.validate : Value → Option Action
  | .str us => [Action.hold, .exit, .tighten].find? fun a => us == codes a.text
  | _ => none

def HeldDecision.validate (v : Value) : Option HeldDecision := do
  let items ← validateKeys ["symbol", "action", "reason"] v
  let symbol ← validateField items "symbol" validateStr
  let action ← validateField items "action" Action.validate
  let reason ← validateField items "reason" validateStr
  return ⟨symbol, action, reason⟩

variable (laxInt : Value → Option ℤ)

def AnalystVerdict.validate (v : Value) : Option AnalystVerdict := do
  let items ← validateKeys ["pitched", "withdrawn", "summary"] v
  let pitched ← validateField items "pitched" fun v => validateList laxInt (ids v)
  let withdrawn ← validateField items "withdrawn" fun v => validateList laxInt (ids v)
  let summary ← validateField items "summary" validateStr
  return ⟨pitched, withdrawn, summary⟩

def PmVerdict.validate (v : Value) : Option PmVerdict := do
  let items ← validateKeys ["held", "calls", "summary"] v
  let held ← validateField items "held" (validateList HeldDecision.validate)
  let calls ← validateField items "calls" (validateList laxInt)
  let summary ← validateField items "summary" validateStr
  return ⟨held, calls, summary⟩

def MiddayVerdict.validate (v : Value) : Option MiddayVerdict := do
  let items ← validateKeys ["held", "summary"] v
  let held ← validateField items "held" (validateList HeldDecision.validate)
  let summary ← validateField items "summary" validateStr
  return ⟨held, summary⟩

/-- `model.model_validate(obj)`; nothing is a `ValidationError`. -/
def VerdictModel.validate (v : Value) : VerdictModel → Option VerdictInstance
  | .analyst => (AnalystVerdict.validate laxInt v).map .analyst
  | .pm => (PmVerdict.validate laxInt v).map .pm
  | .midday => (MiddayVerdict.validate v).map .midday

/-! ## Recovery -/

def fence : List Char := "```".toList
def jsonFence : List Char := "```json".toList

/-- The fence marks removed. -/
def cleaned (text : List Char) : List Char := replaceAll fence [] (replaceAll jsonFence [] text)

/-- The text from each of its opening braces on, the first brace first. -/
def bracesFrom : List Char → List (List Char)
  | [] => []
  | c :: cs => if c = '\x7b' then (c :: cs) :: bracesFrom cs else bracesFrom cs

/-- The turn of the loop at one brace. -/
def tryVerdict (depth : ℕ) (model : VerdictModel) (cs : List Char) :
    Except Fault (Option VerdictInstance) :=
  match rawDecode depth cs with
  | .error .malformed => .ok none
  | .error f => .error f
  | .ok (.obj items, _) => .ok (model.validate laxInt (.obj items))
  | .ok _ => .ok none

def firstVerdict (depth : ℕ) (model : VerdictModel) :
    List (List Char) → Except Fault (Option VerdictInstance)
  | [] => .ok none
  | cs :: rest =>
    match tryVerdict laxInt depth model cs with
    | .error f => .error f
    | .ok (some v) => .ok (some v)
    | .ok none => firstVerdict depth model rest

/-- `_recover_verdict_from_text`. -/
def recoverVerdictFromText (depth : ℕ) (model : VerdictModel) (text : String) :
    Except Fault (Option VerdictInstance) :=
  firstVerdict laxInt depth model (bracesFrom (cleaned text.toList)).reverse

end TradeDesk.Jobs
