import TradeDesk.Research.Docs
import TradeDesk.Money

/-!
# Reading rules.yml

`Rules.load` of `tc/rules/model.py`: two flat sections of numbers, or an
error that says what is wrong. YAML is read by PyYAML's safe loader, a
parameter here: it makes a value of a text, refuses it with an error of its
own, or lets some other exception through (a date that does not exist, a
number too long for `int`).

Of a YAML value the model keeps what the code asks of it: its type, whether
it counts as false, and what `Decimal(str(value))` makes of it. An integer
is shown by its digits, which `str` refuses from 4300 of them on; a float
by the shortest decimal that reads back as it, which is kept in its place.
-/

namespace TradeDesk.RuleFile

open TradeDesk.Research (universalNewlines)

/-! ## Decimals -/

/-- A `Decimal`. -/
inductive Decimal where
  | finite (q : ℚ)
  | infinity (negative : Bool)
  | nan
  /-- a signaling NaN -/
  | snan
deriving DecidableEq, Repr

namespace Decimal

/-- Which special value a text spells. -/
def special (text : String) : Decimal :=
  let cs := (stripChars text.toList).filter (· != '_')
  let (neg, cs) := match cs with
    | '-' :: cs => (true, cs)
    | '+' :: cs => (false, cs)
    | cs => (false, cs)
  let low := cs.map Char.toLower
  if "snan".toList.isPrefixOf low then .snan
  else if "nan".toList.isPrefixOf low then .nan
  else .infinity neg

/-- `Decimal(text)`, where it does not raise `InvalidOperation`. -/
def ofText (text : String) : Option Decimal :=
  match parseDecimal text with
  | .finite q => some (.finite q)
  | .special => some (special text)
  | .invalid => none

def isNan : Decimal → Bool
  | .nan | .snan => true
  | _ => false

/-- `a <= b`, which raises `InvalidOperation` on any NaN. -/
def le? (a b : Decimal) : Option Bool :=
  if a.isNan || b.isNan then none
  else match a, b with
    | .infinity true, _ | _, .infinity false => some true
    | .finite p, .finite q => some (p ≤ q)
    | _, _ => some false

/-- `a < b`. -/
def lt? (a b : Decimal) : Option Bool := (le? b a).map (!·)

/-- `a != b`, which raises on a signaling NaN only. -/
def ne? (a b : Decimal) : Option Bool :=
  if a = .snan ∨ b = .snan then none
  else if a.isNan || b.isNan then some true
  else some (a != b)

/-- `int(d)`. -/
def int? : Decimal → Option ℤ
  | .finite q => some (truncInt q)
  | _ => none

end Decimal

/-! ## YAML values -/

/-- A key of a mapping: a string, or something else with its `str`. -/
inductive YamlKey where
  | str (s : String)
  | other (text : Option String)
deriving DecidableEq, Repr

/-- `str(key)`. -/
def YamlKey.text : YamlKey → Option String
  | .str s => some s
  | .other text => text

inductive Yaml where
  | null
  | bool (b : Bool)
  | int (n : ℤ)
  | float (shown : Decimal)
  | str (s : String)
  | list (text : Option String) (empty : Bool)
  | mapping (text : Option String) (items : List (YamlKey × Yaml))
  /-- a date, bytes, a set -/
  | other (text : Option String) (falsy : Bool)

namespace Yaml

/-- `str(value)` of an integer raises. -/
def isLong (n : ℤ) : Bool := 10 ^ 4300 ≤ n.natAbs

/-- `str(value)` does not raise. -/
def hasText : Yaml → Bool
  | .null | .bool _ | .float _ | .str _ => true
  | .int n => !isLong n
  | .list text _ | .mapping text _ | .other text _ => text.isSome

/-- `not value`. -/
def isFalsy : Yaml → Bool
  | .null => true
  | .bool b => !b
  | .int n => n == 0
  | .float shown => shown == .finite 0
  | .str s => s.isEmpty
  | .list _ empty => empty
  | .mapping _ items => items.isEmpty
  | .other _ falsy => falsy

end Yaml

/-- Why `yaml.safe_load` did not return. -/
inductive YamlError where
  /-- a `yaml.YAMLError` -/
  | yaml (text : String)
  | other (text : String)
deriving DecidableEq, Repr

/-- What is Python's own to print: `repr` of a text and of a YAML value,
`str` of a `Decimal`, and what `str` of too long an integer says. -/
structure Texts where
  repr : String → String
  reprValue : Yaml → Option String
  decimal : Decimal → String
  tooLong : String

/-! ## Files -/

/-- What is at a path. A text is what its bytes decode to. Bytes that do not
decode are still read with `errors="replace"`. -/
inductive Entry where
  | directory
  | unreadable (error : String)
  | undecodable (error replaced : String)
  | text (content : String)
deriving DecidableEq, Repr

/-- The parts of a path below the root. -/
abbrev Path := List String

def Path.rel (p : Path) : String := "/".intercalate p

/-- Everything below the root. -/
structure Tree where
  root : String
  entries : List (Path × Entry)

/-- Why a file could not be read. -/
inductive ReadError where
  | osError (text : String)
  | unicodeDecodeError (text : String)
deriving DecidableEq, Repr

/-- Text mode. -/
def inTextMode (content : String) : String :=
  String.ofList (universalNewlines content.toList)

namespace Tree

variable (t : Tree) (texts : Texts)

def fullPath (p : Path) : String := t.root ++ "/" ++ p.rel

/-- `p.read_text()`. -/
def readText (p : Path) : Except ReadError String :=
  match t.entries.lookup p with
  | none => .error (.osError ("[Errno 2] No such file or directory: " ++
      texts.repr (t.fullPath p)))
  | some .directory => .error (.osError ("[Errno 21] Is a directory: " ++
      texts.repr (t.fullPath p)))
  | some (.unreadable e) => .error (.osError e)
  | some (.undecodable e _) => .error (.unicodeDecodeError e)
  | some (.text s) => .ok (inTextMode s)

/-- `p.read_text(errors="replace")`, which fails with an `OSError` only. -/
def readReplaced (p : Path) : Except String String :=
  match t.entries.lookup p with
  | some (.undecodable _ s) => .ok (inTextMode s)
  | _ => match t.readText texts p with
    | .ok s => .ok s
    | .error (.osError e) | .error (.unicodeDecodeError e) => .error e

end Tree

/-! ## Rules.load -/

/-- The rules as loaded. -/
structure Rules where
  manual : List (YamlKey × Decimal)
  strategy : List (YamlKey × Decimal)
deriving DecidableEq, Repr

/-- The rules for no file at all. -/
def Rules.placeholder : Rules := ⟨[], []⟩

section

variable (texts : Texts)

/-- A `str` inside a message. -/
def printed (s : Option String) : Except String String :=
  match s with
  | some s => .ok s
  | none => .error texts.tooLong

/-- `Decimal(str(value))` of a text. -/
def decimalOf (sec : String) (key : YamlKey) (value : Yaml) (text : String) :
    Except String Decimal :=
  match Decimal.ofText text with
  | some d => .ok d
  | none => do
    let k ← printed texts key.text
    let v ← printed texts (texts.reprValue value)
    .error ("rules.yml " ++ sec ++ "." ++ k ++ ": not a number: " ++ v)

/-- `_to_decimal`. -/
def toDecimal (sec : String) (key : YamlKey) (value : Yaml) : Except String Decimal :=
  match value with
  | .bool _ | .null | .mapping _ _ | .list _ _ => do
    let k ← printed texts key.text
    let v ← printed texts (texts.reprValue value)
    .error ("rules.yml " ++ sec ++ "." ++ k ++ ": value must be numeric, got " ++ v)
  | .int n => if Yaml.isLong n then .error texts.tooLong else .ok (.finite n)
  | .float shown => .ok shown
  | .str s => decimalOf texts sec key value s
  | .other text _ => do
    let s ← printed texts text
    decimalOf texts sec key value s

/-- One section: `raw[section] or {}`, each of its values a number. -/
def loadSection (path sec : String) (body : Yaml) : Except String (List (YamlKey × Decimal)) :=
  if body.isFalsy then .ok []
  else match body with
    | .mapping _ items => items.mapM fun e => do
        let d ← toDecimal texts sec e.1 e.2
        return (e.1, d)
    | _ => .error (path ++ ": section " ++ sec ++ " must be a mapping")

/-- `set(raw) == set(SECTIONS)`. -/
def hasTheSections (items : List (YamlKey × Yaml)) : Bool :=
  (items.all fun e => e.1 == .str "manual" || e.1 == .str "strategy") &&
    (items.lookup (.str "manual")).isSome && (items.lookup (.str "strategy")).isSome

/-- What `Rules.load` makes of a loaded value. -/
def rulesOf (path : String) (raw : Yaml) : Except String Rules :=
  let wrong := path ++ ": expected exactly the sections ('manual', 'strategy')"
  match raw with
  | .mapping _ items =>
    if hasTheSections items then do
      match items.lookup (.str "manual"), items.lookup (.str "strategy") with
      | some m, some s =>
        let manual ← loadSection texts path "manual" m
        let strategy ← loadSection texts path "strategy" s
        return ⟨manual, strategy⟩
      | _, _ => .error wrong
    else .error wrong
  | _ => .error wrong

/-- `Rules.load(root / "rules.yml")`: the rules, or what the exception says. -/
def Rules.load (safeLoad : String → Except YamlError Yaml) (t : Tree) : Except String Rules :=
  match t.readText texts ["rules.yml"] with
  | .error (.osError e) | .error (.unicodeDecodeError e) => .error e
  | .ok text =>
    match safeLoad text with
    | .error (.yaml e) | .error (.other e) => .error e
    | .ok raw => rulesOf texts (t.fullPath ["rules.yml"]) raw

end

end TradeDesk.RuleFile
