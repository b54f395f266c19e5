import TradeDesk.Text

/-!
# Decoding JSON

`json.JSONDecoder().raw_decode` reads one value at the front of a text and
gives it with the rest. A text that is no value is malformed. Two other
things can go wrong: an integer of more than 4300 digits is a plain
`ValueError`, and values nested deeper than the interpreter's stack has room
for are a `RecursionError`. That room is a parameter, `depth`.

A string is its code points, since an escape may name half of a surrogate
pair, and a float the text it was read from. An object keeps its items as
they were written: of two with one key the later counts (`lookup`).
-/

namespace TradeDesk.JsonText

inductive Value where
  | null
  | bool (b : Bool)
  | int (n : ℤ)
  | float (text : List Char)
  | str (s : List ℕ)
  | arr (xs : List Value)
  | obj (items : List (List ℕ × Value))

/-- `JSONDecodeError`, the `ValueError` of a long integer, `RecursionError`. -/
inductive Fault where
  | malformed | digits | depth
deriving DecidableEq, Repr

/-- What was read, and the rest of the text. -/
abbrev Scan (α : Type) := Except Fault (α × List Char)

def codes (s : String) : List ℕ := s.toList.map Char.toNat

/-- What a dict has under a key. -/
def lookup (items : List (List ℕ × Value)) (key : String) : Option Value :=
  (items.reverse.find? fun e => e.1 == codes key).map Prod.snd

def isBlank (c : Char) : Bool := c = ' ' ∨ c = '\t' ∨ c = '\n' ∨ c = '\r'

def skipBlanks (cs : List Char) : List Char := cs.dropWhile isBlank

/-! ## Strings -/

def hexValue (c : Char) : Option ℕ :=
  if c.isDigit then some (c.toNat - 48)
  else if 'a' ≤ c ∧ c ≤ 'f' then some (c.toNat - 87)
  else if 'A' ≤ c ∧ c ≤ 'F' then some (c.toNat - 55)
  else none

def hex4 (a b c d : Char) : Option ℕ := do
  let a ← hexValue a
  let b ← hexValue b
  let c ← hexValue c
  let d ← hexValue d
  return ((a * 16 + b) * 16 + c) * 16 + d

/-- The escapes of one letter. -/
def escapeValue : Char → Option ℕ
  | '"' => some 34
  | '\\' => some 92
  | '/' => some 47
  | 'b' => some 8
  | 'f' => some 12
  | 'n' => some 10
  | 'r' => some 13
  | 't' => some 9
  | _ => none

def consUnit (n : ℕ) (r : Option (List ℕ × List Char)) : Option (List ℕ × List Char) :=
  r.map fun r => (n :: r.1, r.2)

/-- What is between here and the closing quote, an escape at a time. -/
def scanUnits : List Char → Option (List ℕ × List Char)
  | [] => none
  | c :: cs =>
    if c = '"' then some ([], cs)
    else if c = '\\' then
      match cs with
      | 'u' :: x :: y :: z :: w :: cs =>
        match hex4 x y z w with
        | none => none
        | some n => consUnit n (scanUnits cs)
      | e :: cs =>
        match escapeValue e with
        | none => none
        | some n => consUnit n (scanUnits cs)
      | [] => none
    -- a control character has to be escaped
    else if c.toNat < 0x20 then none
    else consUnit c.toNat (scanUnits cs)

def isHigh (n : ℕ) : Bool := 0xd800 ≤ n && n ≤ 0xdbff
def isLow (n : ℕ) : Bool := 0xdc00 ≤ n && n ≤ 0xdfff

def joinPair (hi lo : ℕ) : ℕ := 0x10000 + (hi - 0xd800) * 0x400 + (lo - 0xdc00)

/-- Two escapes that are a surrogate pair are one code point. -/
def joinPairs : List ℕ → List ℕ
  | hi :: lo :: us =>
    if isHigh hi && isLow lo then joinPair hi lo :: joinPairs us else hi :: joinPairs (lo :: us)
  | us => us

/-- `scanstring`, after the opening quote. -/
def scanString (cs : List Char) : Scan (List ℕ) :=
  match scanUnits cs with
  | none => .error .malformed
  | some (us, rest) => .ok (joinPairs us, rest)

/-! ## Numbers -/

/-- `sys.get_int_max_str_digits()`. -/
def maxDigits : ℕ := 4300

/-- A point and the digits after it. -/
def scanFraction : List Char → List Char × List Char
  | '.' :: c :: cs =>
    if c.isDigit then ('.' :: c :: cs.takeWhile Char.isDigit, cs.dropWhile Char.isDigit)
    else ([], '.' :: c :: cs)
  | cs => ([], cs)

def scanExponent : List Char → List Char × List Char
  | [] => ([], [])
  | e :: cs =>
    let (sign, digits) := match cs with
      | '+' :: cs => (['+'], cs)
      | '-' :: cs => (['-'], cs)
      | cs => ([], cs)
    if (e = 'e' ∨ e = 'E') ∧ digits.head?.any Char.isDigit then
      (e :: sign ++ digits.takeWhile Char.isDigit, digits.dropWhile Char.isDigit)
    else ([], e :: cs)

/-- The digits of a whole number: no zero before others. -/
def scanWhole : List Char → Option (List Char × List Char)
  | [] => none
  | c :: cs =>
    if c = '0' then some (['0'], cs)
    else if c.isDigit then some (c :: cs.takeWhile Char.isDigit, cs.dropWhile Char.isDigit)
    else none

def naturalOf (digits : List Char) : ℕ := ofDigits (digits.map fun c => c.toNat - 48)

/-- `_match_number`, after the sign. -/
def scanUnsigned (negative : Bool) (cs : List Char) : Scan Value :=
  match scanWhole cs with
  | none => .error .malformed
  | some (whole, rest) =>
    let (frac, rest) := scanFraction rest
    let (exp, rest) := scanExponent rest
    if frac = [] ∧ exp = [] then
      if maxDigits < whole.length then .error .digits
      else .ok (.int (if negative then -(naturalOf whole : ℤ) else naturalOf whole), rest)
    else .ok (.float ((if negative then ['-'] else []) ++ whole ++ frac ++ exp), rest)

def scanNumber : List Char → Scan Value
  | '-' :: cs => scanUnsigned true cs
  | cs => scanUnsigned false cs

/-! ## Values -/

def constants : List (String × Value) :=
  [("null", .null), ("true", .bool true), ("false", .bool false), ("NaN", .float "NaN".toList),
    ("Infinity", .float "Infinity".toList), ("-Infinity", .float "-Infinity".toList)]

variable {α : Type}

/-- Items with commas between them, up to the closing bracket. There are no
more of them than characters. -/
def scanItems (item : List Char → Scan α) (close : Char) : ℕ → List Char → Scan (List α)
  | 0, _ => .error .malformed
  | n + 1, cs =>
    match item cs with
    | .error f => .error f
    | .ok (x, rest) =>
      match skipBlanks rest with
      | [] => .error .malformed
      | c :: rest =>
        if c = close then .ok ([x], rest)
        else if c = ',' then
          match scanItems item close n (skipBlanks rest) with
          | .error f => .error f
          | .ok (xs, rest) => .ok (x :: xs, rest)
        else .error .malformed

/-- What is after an opening bracket. -/
def scanBracketed (item : List Char → Scan α) (close : Char) (cs : List Char) : Scan (List α) :=
  match skipBlanks cs with
  | [] => .error .malformed
  | c :: rest =>
    if c = close then .ok ([], rest) else scanItems item close (rest.length + 1) (c :: rest)

/-- What is after a key: the colon and the value. -/
def scanKeyed (value : List Char → Scan Value) (key : List ℕ) (cs : List Char) :
    Scan (List ℕ × Value) :=
  match skipBlanks cs with
  | [] => .error .malformed
  | c :: rest =>
    if c = ':' then
      match value (skipBlanks rest) with
      | .error f => .error f
      | .ok (v, rest) => .ok ((key, v), rest)
    else .error .malformed

/-- `"key": value`. -/
def scanMember (value : List Char → Scan Value) : List Char → Scan (List ℕ × Value)
  | [] => .error .malformed
  | c :: cs =>
    if c = '"' then
      match scanString cs with
      | .error f => .error f
      | .ok (key, rest) => scanKeyed value key rest
    else .error .malformed

def mapValue (f : α → Value) : Scan α → Scan Value
  | .error e => .error e
  | .ok (x, rest) => .ok (f x, rest)

/-- `scan_once`; `nested` reads the values inside a bracket, if there is room
for them. -/
def scanValue (nested : Option (List Char → Scan Value)) : List Char → Scan Value
  | [] => .error .malformed
  | c :: cs =>
    if c = '"' then mapValue .str (scanString cs)
    else if c = '\x7b' then
      match nested with
      | none => .error .depth
      | some value => mapValue .obj (scanBracketed (scanMember value) '\x7d' cs)
    else if c = '[' then
      match nested with
      | none => .error .depth
      | some value => mapValue .arr (scanBracketed value ']' cs)
    else
      match constants.find? fun e => e.1.toList.isPrefixOf (c :: cs) with
      | some (name, v) => .ok (v, (c :: cs).drop name.length)
      | none => scanNumber (c :: cs)

def scanOnce : ℕ → List Char → Scan Value
  | 0 => scanValue none
  | depth + 1 => scanValue (some (scanOnce depth))

/-- `raw_decode`, of the text from an index on. -/
def rawDecode (depth : ℕ) (cs : List Char) : Scan Value := scanOnce depth cs

end TradeDesk.JsonText
