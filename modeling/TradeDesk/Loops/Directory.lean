import TradeDesk.Desk.Bars
import Mathlib.Data.List.Dedup
import Mathlib.Data.List.Infix

/-!
# The symbol directory

Nasdaq Trader's list of what trades, as `tc/loops/universe.py` reads it:
the bytes come over HTTP, `csv.DictReader` splits them at bars, and of each
row four columns decide whether its symbol is kept.

The reader is the state machine of Python's `csv` with the default dialect
and another delimiter, one character at a time; a line ends after its
newline, which the machine is told as `none`. It raises in two places: on a
field over its limit, and on a carriage return that no line end follows.
-/

namespace TradeDesk.Loops

/-! ## `csv.reader` -/

inductive CsvState where
  | startRecord | startField | inField | inQuotedField | quoteInQuotedField | eatCrnl
deriving DecidableEq, Repr

/-- The reader within a record: the field so far and the fields before it,
both in reverse. -/
structure CsvReader where
  state : CsvState
  field : List Char
  fields : List String
deriving DecidableEq, Repr

inductive CsvError where
  | fieldTooLarge | newlineInUnquoted
deriving DecidableEq, Repr

namespace CsvReader

def reset : CsvReader := ⟨.startRecord, [], []⟩

def fieldLimit : ℕ := 131072

def saveField (r : CsvReader) (next : CsvState) : CsvReader :=
  ⟨next, [], String.ofList r.field.reverse :: r.fields⟩

def addChar (r : CsvReader) (c : Char) (next : CsvState) : Except CsvError CsvReader :=
  if fieldLimit ≤ r.field.length then .error .fieldTooLarge
  else .ok { r with state := next, field := c :: r.field }

/-- What a line end, or the newline before it, leads to. -/
def afterLine : Option Char → CsvState
  | none => .startRecord
  | some _ => .eatCrnl

def isLineEnd (c : Option Char) : Bool := c == none || c == some '\n' || c == some '\r'

/-- `START_FIELD`. -/
def startField (r : CsvReader) (delimiter : Char) (c : Option Char) : Except CsvError CsvReader :=
  if isLineEnd c then .ok (r.saveField (afterLine c))
  else match c with
    | none => .ok r
    | some c =>
      if c = '"' then .ok { r with state := .inQuotedField }
      else if c = delimiter then .ok (r.saveField .startField)
      else r.addChar c .inField

/-- `parse_process_char`; `none` is the end of a line. -/
def processChar (delimiter : Char) (r : CsvReader) (c : Option Char) :
    Except CsvError CsvReader :=
  match r.state with
  | .startRecord =>
    if c = none then .ok r
    else if isLineEnd c then .ok { r with state := .eatCrnl }
    else r.startField delimiter c
  | .startField => r.startField delimiter c
  | .inField =>
    if isLineEnd c then .ok (r.saveField (afterLine c))
    else match c with
      | none => .ok r
      | some c => if c = delimiter then .ok (r.saveField .startField) else r.addChar c .inField
  | .inQuotedField => match c with
    | none => .ok r
    | some c =>
      if c = '"' then .ok { r with state := .quoteInQuotedField } else r.addChar c .inQuotedField
  | .quoteInQuotedField =>
    if isLineEnd c then .ok (r.saveField (afterLine c))
    else match c with
      | none => .ok r
      | some c =>
        if c = '"' then r.addChar c .inQuotedField
        else if c = delimiter then .ok (r.saveField .startField)
        else r.addChar c .inField
  | .eatCrnl => match c with
    | none => .ok { r with state := .startRecord }
    | some c => if c = '\n' ∨ c = '\r' then .ok r else .error .newlineInUnquoted

end CsvReader

/-- The records of the rest of a text. `fresh` says that no character of the
line has been read; at the end of the text a field that was begun is kept. -/
def csvRecords (delimiter : Char) (fresh : Bool) (r : CsvReader) :
    List Char → Except CsvError (List (List String))
  | [] => do
    let r ← if fresh then .ok r else r.processChar delimiter none
    if r.state = .startRecord then
      return if fresh then [] else [r.fields.reverse]
    else if r.field ≠ [] ∨ r.state = .inQuotedField then
      return [(r.saveField .startRecord).fields.reverse]
    else return []
  | c :: cs => do
    let r ← r.processChar delimiter (some c)
    if c = '\n' then
      let r ← r.processChar delimiter none
      if r.state = .startRecord then
        return r.fields.reverse :: (← csvRecords delimiter true .reset cs)
      else csvRecords delimiter true r cs
    else csvRecords delimiter false r cs

/-- `csv.reader(io.StringIO(text), delimiter=..)`. -/
def csvReader (delimiter : Char) (text : String) : Except CsvError (List (List String)) :=
  csvRecords delimiter true .reset text.toList

example : csvReader '|' "a|\"b|\"\"\nc\"\r\n\nd|" = .ok [["a", "b|\"\nc"], [], ["d", ""]] := by
  decide +kernel

/-- A row of `csv.DictReader`: its header and its fields. -/
structure DictRow where
  header : List String
  fields : List String

/-- `row.get(key)`: a header that repeats a key names its last column, and a
short row has nothing there. -/
def DictRow.get (row : DictRow) (key : String) : Option String :=
  match (row.header.zipIdx.filter fun e => e.1 == key).getLast? with
  | none => none
  | some (_, i) => row.fields[i]?

/-- `csv.DictReader`: the first record is the header, empty ones are
skipped. -/
def dictReader (delimiter : Char) (text : String) : Except CsvError (List DictRow) := do
  match ← csvReader delimiter text with
  | [] => return []
  | header :: rows => return (rows.filter fun fields => !fields.isEmpty).map fun fields =>
      ⟨header, fields⟩

/-! ## `parse_directory` -/

def majorExchanges : List String := ["N", "Q", "A", "P", "Z"]

def nameExclusions : List String :=
  [" warrant", "% note", " right", " unit", "preferred", " depositary", "when issued", " due 20"]

/-- The symbol of a row that trades, `str.lower` a parameter. -/
def keptSymbol (lower : String → String) (row : DictRow) : Option String :=
  let sym := strip ((row.get "Symbol").getD "")
  let name := lower ((row.get "Security Name").getD "")
  if sym = "" ∨ '$' ∈ sym.toList ∨ 5 < sym.length then none
  else if ¬ ∃ e ∈ majorExchanges, row.get "Listing Exchange" = some e then none
  else if row.get "Test Issue" ≠ some "N" then none
  else if ∃ k ∈ nameExclusions, k.toList <:+: name.toList then none
  else some sym

def parseDirectory (lower : String → String) (text : String) : Except CsvError (List String) := do
  let rows ← dictReader '|' text
  return Desk.sortedSet (rows.filterMap (keptSymbol lower))

/-- No symbol is fetched twice. -/
theorem parseDirectory_nodup {lower : String → String} {text : String} {symbols : List String}
    (h : parseDirectory lower text = .ok symbols) : symbols.Nodup := by
  unfold parseDirectory at h
  cases hrows : dictReader '|' text with
  | error e =>
    rw [hrows] at h
    cases h
  | ok rows =>
    rw [hrows] at h
    cases h
    exact (List.perm_insertionSort _ _).nodup_iff.mpr (List.nodup_dedup _)

end TradeDesk.Loops
