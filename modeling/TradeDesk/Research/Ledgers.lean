import TradeDesk.Research.Json

/-!
# The research ledgers' writers

`tc/research/ledgers.py` for the escalation ledger, and what reads it
(`Store.escalations`): a prediction is one `raise` row, its results are
`score` rows under its id, and the reader folds the one over the other in
the order they were written.

A refusal says which rule refused; the value it quotes is left out.
-/

namespace TradeDesk.Research

open TradeDesk.Lists

/-! ## Fields -/

/-- `LedgerError`, by the rule. -/
inductive LedgerError where
  | symbol
  | date (field : String)
  | notNonemptyString (key : String)
  | notPresent (key : String)
  | reserved (key : String)
  | direction
  | sourceTypes
  | bar (distinct : List String)
  | sourceType
  | observed
  | alreadyRaised (eid : String)
  | noSuchRaise (eid : String)
  | outcome
  | tombstoneDate
  | unknownLedger
  | noRows
  | sector (row : ℕ)
deriving DecidableEq, Repr

/-- `$` matches before a newline that ends the text, too. -/
def beforeEnd (cs : List Char) : List Char :=
  if cs.getLast? = some '\n' then cs.dropLast else cs

def isSymbolChar (c : Char) : Bool := c.isAlphanum || c == '.' || c == '-'

/-- `SYMBOL_RE`. -/
def matchesSymbol (s : String) : Bool :=
  !(beforeEnd s.toList).isEmpty && (beforeEnd s.toList).all isSymbolChar

/-- `DATE_RE`: a digit of any script will do. -/
def matchesDate (s : String) : Bool :=
  match beforeEnd s.toList with
  | [y3, y2, y1, y0, '-', m1, m0, '-', d1, d0] =>
    [y3, y2, y1, y0, m1, m0, d1, d0].all fun c => (digitValue c).isSome
  | _ => false

/-- The text of a date: ASCII digits, and a day of the calendar. -/
def realDate (s : String) : Bool :=
  match s.toList with
  | [y3, y2, y1, y0, '-', m1, m0, '-', d1, d0] =>
    let number (cs : List Char) : ℤ := ofDigits (cs.map fun c => c.toNat - 48)
    let y := number [y3, y2, y1, y0]
    let m := number [m1, m0]
    let d := number [d1, d0]
    [y3, y2, y1, y0, m1, m0, d1, d0].all Char.isDigit && decide (1 ≤ y ∧ 1 ≤ m ∧ m ≤ 12 ∧
      1 ≤ d ∧ d ≤ monthLength y m)
  | _ => false

/-- A `date`, as `isoformat` prints it. -/
structure IsoDate where
  text : String
  real : realDate text = true
deriving DecidableEq

/-- `date.fromisoformat`, of a text that `DATE_RE` matches: nothing where it
raises. -/
def fromisoformat (s : String) : Option IsoDate :=
  if h : realDate s = true then some ⟨s, h⟩ else none

theorem fromisoformat_text {s : String} {d : IsoDate} (h : fromisoformat s = some d) :
    d.text = s := by
  unfold fromisoformat at h
  split at h
  · cases h
    rfl
  · cases h

/-- `_symbol`. -/
def symbolOf (value : Option Json) : Except LedgerError String :=
  match value with
  | some (.str s) => if matchesSymbol s then .ok s else .error .symbol
  | _ => .error .symbol

/-- `_date_str`. -/
def dateStr (value : Option Json) (field : String) : Except LedgerError String :=
  match value with
  | some (.str s) => if matchesDate s then .ok s else .error (.date field)
  | _ => .error (.date field)

/-- `_nonempty_str`. -/
def nonemptyStr (record : Record) (key : String) : Except LedgerError String :=
  match record.get? key with
  | some (.str s) => if s = "" then .error (.notNonemptyString key) else .ok s
  | _ => .error (.notNonemptyString key)

/-! ## The escalation ledger -/

inductive EscalationKind where
  | raise | score
deriving DecidableEq, Repr

structure EscalationRow where
  id : String
  kind : EscalationKind
  symbol : String
  at_ : String
  record : Record

/-- The table, in the order of its row ids. -/
abbrev Escalations := List EscalationRow

def sourceTypes : List String :=
  ["end-user", "employee", "counterparty", "enthusiast", "primary-doc", "mainstream"]

/-- What counts toward the bar: corroboration by something already on the
wire is not an edge. -/
def barSourceTypes : List String := sourceTypes.filter (· != "mainstream")

def directions : List String := ["up", "down"]

def outcomes : List String := ["right", "wrong", "void"]

def reservedOnRaise : List String := ["outcome", "scored", "kind"]

def Json.isStr (s : String) : Json → Bool
  | .str t => t == s
  | _ => false

/-- The rules a raise is held to, by its writer and by the importer. -/
def validateRaise (record : Record) : Except LedgerError Unit := do
  match reservedOnRaise.find? record.has with
  | some key => .error (.reserved key)
  | none => .ok ()
  let _ ← nonemptyStr record "claim"
  let direction ← nonemptyStr record "direction"
  if direction ∈ directions then .ok () else .error .direction
  let _ ← dateStr (record.get? "event_date") "event_date"
  match record.get? "source_types" with
  | some (.arr types) =>
    let distinct := barSourceTypes.filter fun t => types.any (Json.isStr t)
    if distinct.length < 2 then .error (.bar distinct) else .ok ()
  | _ => .error .sourceTypes

/-- The id of a claim: its symbol, its day, and a checksum over its canonical
text. -/
def escalationId (symbol : String) (d : IsoDate) (record : Record) : String :=
  symbol ++ "-" ++ d.text ++ "-" ++ toString (crc32 (record.dumps compact))

def raiseExists (rows : Escalations) (eid : String) : Bool :=
  rows.any fun r => r.id == eid && r.kind == .raise

def escalationRaise (rows : Escalations) (symbol : String) (d : IsoDate) (record : Record) :
    Except LedgerError (String × Escalations) := do
  let sym ← symbolOf (some (.str symbol))
  validateRaise record
  let eid := escalationId sym d record
  if raiseExists rows eid then .error (.alreadyRaised eid)
  else .ok (eid, rows ++ [⟨eid, .raise, sym, d.text, record⟩])

/-- What is left of a reversed text after so many fields between dashes. -/
def dropFields : ℕ → List Char → Option (List Char)
  | 0, cs => some cs
  | n + 1, cs => match cs.dropWhile (· != '-') with
    | [] => none
    | _ :: rest => dropFields n rest

/-- `eid.rsplit("-", 4)[0]`. -/
def ownerOf (eid : String) : String :=
  match dropFields 4 eid.toList.reverse with
  | some rest => String.ofList rest.reverse
  | none => String.ofList (eid.toList.takeWhile (· != '-'))

/-- The record of a score. -/
def scoreRecord (outcome : String) : Record := .ofPairs [("outcome", .str outcome)]

/-- `OUTCOMES` has it. -/
def outcomeOf : Option Json → Except LedgerError String
  | some (.str s) => if s ∈ outcomes then .ok s else .error .outcome
  | _ => .error .outcome

def escalationScore (rows : Escalations) (eid : String) (outcome : Json) (d : IsoDate) :
    Except LedgerError Escalations := do
  let outcome ← outcomeOf (some outcome)
  if raiseExists rows eid then
    .ok (rows ++ [⟨eid, .score, ownerOf eid, d.text, scoreRecord outcome⟩])
  else .error (.noSuchRaise eid)

/-! ## The reader -/

/-- What the engine wrote, and the model's record over it. -/
def entryOf (r : EscalationRow) : Record :=
  (Dict.ofPairs [("id", .str r.id), ("symbol", .str r.symbol), ("raised", .str r.at_),
    ("latest_outcome", .null)]).update r.record

/-- The body of the reader's loop: the last score wins. -/
def readRow (raises : Dict String Record) (r : EscalationRow) : Dict String Record :=
  match r.kind with
  | .raise => raises.set r.id (entryOf r)
  | .score => match raises.get? r.id with
    | none => raises
    | some entry =>
      raises.set r.id (entry.set "latest_outcome" ((r.record.get? "outcome").getD .null))

/-- `WHERE symbol = ?`, if one is asked for. -/
def rowsOf (rows : Escalations) (symbol : Option String) : Escalations :=
  rows.filter fun r => symbol.all (· == r.symbol)

/-- The raises of a symbol, each with what it came to. -/
def escalations (rows : Escalations) (symbol : Option String) : List Record :=
  ((rowsOf rows symbol).foldl readRow .empty).values

/-! ## The importer's lines -/

/-- What becomes of one line of a file: it is in the table, it is written, it
is named in `skipped`, or what it raises ends the import. -/
inductive LineResult (σ : Type) where
  | already
  | wrote (s : σ)
  | skipped (e : LedgerError)
  | raised

/-- `_import_raise`: the id is the file's own. -/
def importRaise (rows : Escalations) (record : Record) : LineResult Escalations :=
  let claim := record.without ["id", "symbol", "raised", "kind"]
  let checked : Except LedgerError (String × String × String) := do
    let eid ← nonemptyStr record "id"
    let symbol ← symbolOf (record.get? "symbol")
    let raised ← dateStr (record.get? "raised") "raised"
    validateRaise claim
    return (eid, symbol, raised)
  match checked with
  | .error e => .skipped e
  | .ok (eid, symbol, raised) =>
    if raiseExists rows eid then .already
    else .wrote (rows ++ [⟨eid, .raise, symbol, raised, claim⟩])

/-- How many scores of each id the file has had so far. -/
abbrev FiledScores := Dict String ℕ

/-- `_existing_scores`, of one id: every score filed, in order. -/
def existingScores (rows : Escalations) (eid : String) : List Json :=
  (rows.filter fun r => r.kind == .score && r.id == eid).map fun r =>
    (r.record.get? "outcome").getD .null

/-- `_import_score`: the nth score of an id in the file is the nth in the
table, or is appended. -/
def importScore (prior : String → List Json) (filed : FiledScores) (rows : Escalations)
    (record : Record) : LineResult Escalations × FiledScores :=
  let checked : Except LedgerError (String × String × String) := do
    let eid ← nonemptyStr record "id"
    let outcome ← outcomeOf (record.get? "outcome")
    let scored ← dateStr (record.get? "scored") "scored"
    return (eid, outcome, scored)
  match checked with
  | .error e => (.skipped e, filed)
  | .ok (eid, outcome, scored) =>
    let seen := (filed.get? eid).getD 0
    if (prior eid)[seen]?.any (Json.isStr outcome) then (.already, filed.set eid (seen + 1))
    else match fromisoformat scored with
      | none => (.raised, filed)
      | some d => match escalationScore rows eid (.str outcome) d with
        | .error e => (.skipped e, filed)
        | .ok rows' => (.wrote rows', filed.set eid (seen + 1))

/-- One line of the file: nothing where its kind is neither. -/
def importEscalation (prior : String → List Json) (filed : FiledScores) (rows : Escalations)
    (record : Record) : Option (LineResult Escalations × FiledScores) :=
  if (record.get? "kind").any (Json.isStr "raise") then some (importRaise rows record, filed)
  else if (record.get? "kind").any (Json.isStr "score") then
    some (importScore prior filed rows record)
  else none

end TradeDesk.Research
