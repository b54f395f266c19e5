import TradeDesk.Models

/-!
# Strings the model types

Prices, symbols and option symbols reach the desk as text. This module is
the part of Python's string handling the desk uses on them, on lists of
characters so that it computes: `strip`, the `Decimal` constructor
(`parseDecimal`, with its underscores and its Unicode digits), and the
fields of an option symbol. Case mapping is a parameter wherever it is
used, since Python's is Unicode's.
-/

namespace TradeDesk

/-- The characters `str.isspace` accepts. -/
def isSpace (c : Char) : Bool :=
  [0x9, 0xa, 0xb, 0xc, 0xd, 0x1c, 0x1d, 0x1e, 0x1f, 0x20, 0x85, 0xa0, 0x1680, 0x2000, 0x2001,
    0x2002, 0x2003, 0x2004, 0x2005, 0x2006, 0x2007, 0x2008, 0x2009, 0x200a, 0x2028, 0x2029,
    0x202f, 0x205f, 0x3000].contains c.toNat

def stripChars (cs : List Char) : List Char :=
  ((cs.dropWhile isSpace).reverse.dropWhile isSpace).reverse

/-- `str.strip`. -/
def strip (s : String) : String := String.ofList (stripChars s.toList)

/-- `str.replace(" ", "")`. -/
def withoutSpaces (s : String) : String := String.ofList (s.toList.filter (· != ' '))

/-- Where each script's decimal digits begin; a script's ten are together. -/
def digitZeros : List ℕ :=
  [0x30, 0x660, 0x6f0, 0x7c0, 0x966, 0x9e6, 0xa66, 0xae6, 0xb66, 0xbe6, 0xc66, 0xce6, 0xd66,
    0xde6, 0xe50, 0xed0, 0xf20, 0x1040, 0x1090, 0x17e0, 0x1810, 0x1946, 0x19d0, 0x1a80, 0x1a90,
    0x1b50, 0x1bb0, 0x1c40, 0x1c50, 0xa620, 0xa8d0, 0xa900, 0xa9d0, 0xa9f0, 0xaa50, 0xabf0,
    0xff10, 0x104a0, 0x10d30, 0x11066, 0x110f0, 0x11136, 0x111d0, 0x112f0, 0x11450, 0x114d0,
    0x11650, 0x116c0, 0x11730, 0x118e0, 0x11950, 0x11c50, 0x11d50, 0x11da0, 0x16a60, 0x16ac0,
    0x16b50, 0x1d7ce, 0x1d7d8, 0x1d7e2, 0x1d7ec, 0x1d7f6, 0x1e140, 0x1e2f0, 0x1e950, 0x1fbf0]

/-- The value of a Unicode decimal digit. -/
def digitValue (c : Char) : Option ℕ :=
  (digitZeros.find? fun z => z ≤ c.toNat && c.toNat < z + 10).map fun z => c.toNat - z

/-- The longest run of digits at the front, and the rest. -/
def takeDigits : List Char → List ℕ × List Char
  | [] => ([], [])
  | c :: cs => match digitValue c with
    | none => ([], c :: cs)
    | some d => (d :: (takeDigits cs).1, (takeDigits cs).2)

def ofDigits (ds : List ℕ) : ℕ := ds.foldl (fun n d => 10 * n + d) 0

/-- What `Decimal(text)` is. -/
inductive ParsedDecimal where
  | invalid
  | special
  | finite (q : ℚ)
deriving DecidableEq, Repr

/-- An exponent, if there is one; all of the text must be used up. -/
def parseExponent : List Char → Option ℤ
  | [] => some 0
  | e :: cs =>
    if e = 'e' ∨ e = 'E' then
      let (neg, cs) := match cs with
        | '-' :: cs => (true, cs)
        | '+' :: cs => (false, cs)
        | cs => (false, cs)
      match takeDigits cs with
      | ([], _) => none
      | (ds, []) => some (if neg then -(ofDigits ds : ℤ) else ofDigits ds)
      | (_, _ :: _) => none
    else none

/-- An unsigned number: digits with an optional point and exponent. -/
def parseUnsigned (cs : List Char) : Option ℚ :=
  let (whole, rest) := takeDigits cs
  let (frac, rest) := match rest with
    | '.' :: rest => takeDigits rest
    | rest => ([], rest)
  if whole.isEmpty && frac.isEmpty then none
  else (parseExponent rest).map fun (e : ℤ) =>
    (ofDigits (whole ++ frac) : ℚ) * (10 : ℚ) ^ (e - (frac.length : ℤ))

/-- The spellings of infinity and of the two kinds of NaN. -/
def isSpecial (cs : List Char) : Bool :=
  let low := cs.map Char.toLower
  low == "inf".toList || low == "infinity".toList ||
    ("nan".toList.isPrefixOf low && (takeDigits (cs.drop 3)).2.isEmpty) ||
    ("snan".toList.isPrefixOf low && (takeDigits (cs.drop 4)).2.isEmpty)

/-- `Decimal(text)`. -/
def parseDecimal (text : String) : ParsedDecimal :=
  let cs := (stripChars text.toList).filter (· != '_')
  let (neg, cs) := match cs with
    | '-' :: cs => (true, cs)
    | '+' :: cs => (false, cs)
    | cs => (false, cs)
  if isSpecial cs then .special
  else match parseUnsigned cs with
    | none => .invalid
    | some q => .finite (if neg then -q else q)

example : parseDecimal " 48.25 " = .finite (193 / 4) := by decide +kernel

/-! ## Option symbols -/

/-- The day number of a date of the proleptic Gregorian calendar. -/
def dayNumber (y m d : ℤ) : Date :=
  let y' := if m ≤ 2 then y - 1 else y
  let era := y' / 400
  let yoe := y' - era * 400
  let mp := (m + 9) % 12
  let doy := (153 * mp + 2) / 5 + d - 1
  let doe := yoe * 365 + yoe / 4 - yoe / 100 + doy
  era * 146097 + doe - 719468

def isLeap (y : ℤ) : Bool := y % 4 = 0 && (y % 100 != 0 || y % 400 = 0)

def monthLength (y m : ℤ) : ℤ :=
  if m = 2 then (if isLeap y then 29 else 28)
  else if m = 4 ∨ m = 6 ∨ m = 9 ∨ m = 11 then 30 else 31

/-- The date six digits `%y%m%d` name, if they name one. -/
def expiryOf : List ℕ → Option Date
  | [y1, y0, m1, m0, d1, d0] =>
    let y2 : ℤ := 10 * y1 + y0
    let y := if y2 ≤ 68 then 2000 + y2 else 1900 + y2
    let m : ℤ := 10 * m1 + m0
    let d : ℤ := 10 * d1 + d0
    if 1 ≤ m ∧ m ≤ 12 ∧ 1 ≤ d ∧ d ≤ monthLength y m then some (dayNumber y m d) else none
  | _ => none

/-- `OSI.search`: the last fifteen characters, a newline after them aside,
are six digits, C or P, and eight digits. -/
def osiFields (cs : List Char) : Option (List ℕ) :=
  let cs := if cs.getLast? = some '\n' then cs.dropLast else cs
  let tail := cs.drop (cs.length - 15)
  let day := (tail.take 6).filterMap digitValue
  let strike := (tail.drop 7).filterMap digitValue
  if tail.length = 15 ∧ day.length = 6 ∧ strike.length = 8 ∧
      (tail[6]? = some 'C' ∨ tail[6]? = some 'P') then some day else none

example : (osiFields "AAA   261120C00050000".toList).bind expiryOf =
    some (dayNumber 2026 11 20) := by decide +kernel

end TradeDesk
