import TradeDesk.RuleFile.Shell
import TradeDesk.Loops.Printed
import Mathlib.Data.Int.Log

/-!
# Flat YAML

What PyYAML makes of a `rules.yml` of the lines the shell's loader accepts,
as `Rules.load` takes it: sections at the left margin, rules indented by
spaces, a space behind each colon, a comment behind a blank. The grammar is
given by what is written (`FlatLine.print`), apart from how `awk` reads it;
`shellLine_print` is that `awk` reads every line of it as what it is.

A plain value is resolved by the implicit resolvers of YAML 1.1 (`formOf`):
`010` is eight, `0x10` sixteen, `1.50` a float and `1e3` a text, of which
`Decimal` makes a thousand. `ReadsFlat` is what is assumed of PyYAML.
-/

namespace TradeDesk.RuleFile

open TradeDesk.Lists (Dict lastOf lastOf_map get?_ofPairs_last)
open TradeDesk.Loops (roundHalfEven signOf)

/-! ## Lines -/

/-- What may follow a value: blanks, or blanks and a comment. -/
inductive Ending where
  | blanks (n : ℕ)
  | comment (n : ℕ) (text : List Char)
deriving DecidableEq, Repr

def Ending.print : Ending → List Char
  | .blanks n => List.replicate n ' '
  | .comment n text => List.replicate (n + 1) ' ' ++ '#' :: text

inductive FlatLine where
  | blank (n : ℕ)
  | comment (n : ℕ) (text : List Char)
  | header (name : List Char) (blanks : ℕ)
  | entry (indent gap : ℕ) (key val : List Char) (ending : Ending)
deriving DecidableEq, Repr

namespace FlatLine

def print : FlatLine → List Char
  | blank n => List.replicate n ' '
  | comment n text => List.replicate n ' ' ++ '#' :: text
  | header name n => name ++ ':' :: List.replicate n ' '
  | entry indent gap key val ending => List.replicate (indent + 1) ' ' ++
      (key ++ ':' :: (List.replicate (gap + 1) ' ' ++ (val ++ ending.print)))

/-- What the line says. -/
def line : FlatLine → Line
  | blank _ | comment _ _ => .skip
  | header name _ => .header name
  | entry _ _ key val _ => .entry key val

end FlatLine

/-- `[a-zA-Z_][a-zA-Z0-9_]*`. -/
def IsName (name : List Char) : Prop :=
  name.head?.any isNameStart = true ∧ ∀ c ∈ name, isKeyChar c = true

/-- A value that is safe in a shell. -/
def IsValue (val : List Char) : Prop := val ≠ [] ∧ ∀ c ∈ val, isValueChar c = true

def FlatLine.WellFormed : FlatLine → Prop
  | .blank _ | .comment _ _ => True
  | .header name _ => IsName name
  | .entry _ _ key val _ => IsName key ∧ IsValue val

instance (name : List Char) : Decidable (IsName name) :=
  decidable_of_iff (name.head?.any isNameStart = true ∧ name.all isKeyChar = true)
    (and_congr_right fun _ => List.all_eq_true)

instance (val : List Char) : Decidable (IsValue val) :=
  decidable_of_iff (val ≠ [] ∧ val.all isValueChar = true)
    (and_congr_right fun _ => List.all_eq_true)

instance : (x : FlatLine) → Decidable x.WellFormed
  | .blank _ | .comment _ _ => isTrue trivial
  | .header name _ => inferInstanceAs (Decidable (IsName name))
  | .entry _ _ key val _ => inferInstanceAs (Decidable (IsName key ∧ IsValue val))

/-- A character of a name, or of a safe value. -/
private theorem of_keyChar {c : Char} (h : isKeyChar c = true) :
    isAwkSpace c = false ∧ isValueChar c = true := by
  refine ⟨?_, ?_⟩
  · by_contra hspace
    rw [(space_not_key (by simpa using hspace)).1] at h
    cases h
  · unfold isValueChar
    rw [h]
    rfl

private theorem of_valueChar {c : Char} (h : isValueChar c = true) :
    isAwkSpace c = false ∧ c ≠ '#' := by
  refine ⟨?_, ?_⟩
  · by_contra hspace
    rw [(space_not_key (by simpa using hspace)).2.1] at h
    cases h
  · rintro rfl
    revert h
    decide

private theorem dropWhile_blanks (n : ℕ) {cs : List Char}
    (h : cs.head?.any (!isAwkSpace ·) = true) :
    (List.replicate n ' ' ++ cs).dropWhile isAwkSpace = cs := by
  rw [List.dropWhile_append_of_pos fun c hc => (List.mem_replicate.mp hc).2 ▸ rfl]
  cases cs with
  | nil => rfl
  | cons c cs => exact List.dropWhile_cons_of_neg (by simpa using h)

private theorem uncommented_blanks (n : ℕ) (cs : List Char) :
    uncommented (List.replicate n ' ' ++ cs) = List.replicate n ' ' ++ uncommented cs := by
  rw [uncommented_append, if_neg]
  intro h
  exact absurd (List.mem_replicate.mp h).2 (by decide)

private theorem uncommented_only (n : ℕ) :
    uncommented (List.replicate n ' ') = List.replicate n ' ' :=
  uncommented_plain fun h => absurd (List.mem_replicate.mp h).2 (by decide)

theorem nameAt_print {name : List Char} (h : IsName name) (rest : List Char) :
    nameAt (name ++ ':' :: rest) = some (name, rest) := by
  have htake : (name ++ ':' :: rest).takeWhile isKeyChar = name := by
    rw [List.takeWhile_append_of_pos h.2]
    exact List.append_nil name
  have hdrop : (name ++ ':' :: rest).dropWhile isKeyChar = ':' :: rest := by
    rw [List.dropWhile_append_of_pos h.2]
    rfl
  unfold nameAt
  dsimp only
  rw [htake, hdrop]
  exact if_pos h.1

/-- What follows a value is passed over. -/
theorem valueOf_print {val : List Char} (h : IsValue val) (n : ℕ) (ending : Ending) :
    valueOf (List.replicate n ' ' ++ (val ++ ending.print)) = val := by
  have hhead : (val ++ ending.print).head?.any (!isAwkSpace ·) = true := by
    cases val with
    | nil => exact absurd rfl h.1
    | cons c val => simp [(of_valueChar (h.2 c List.mem_cons_self)).1]
  have hval : trimEnd val = val := by
    have hback : val.reverse.dropWhile isAwkSpace = val.reverse := by
      cases hr : val.reverse with
      | nil => rfl
      | cons c r =>
        have hc : c ∈ val := List.mem_reverse.mp (hr ▸ List.mem_cons_self)
        exact List.dropWhile_cons_of_neg (by simp [(of_valueChar (h.2 c hc)).1])
    unfold trimEnd
    rw [hback, List.reverse_reverse]
  have hend : ∃ k, uncommented ending.print = List.replicate k ' ' := by
    cases ending with
    | blanks k => exact ⟨k, uncommented_only k⟩
    | comment k text =>
      refine ⟨k + 1, ?_⟩
      rw [Ending.print, uncommented_blanks, uncommented_cons, if_pos rfl, List.append_nil]
  obtain ⟨k, hk⟩ := hend
  show trimEnd (uncommented ((List.replicate n ' ' ++ (val ++ ending.print)).dropWhile isAwkSpace)) =
    val
  rw [dropWhile_blanks n hhead, uncommented_append,
    if_neg fun hmem => (of_valueChar (h.2 _ hmem)).2 rfl, hk,
    trimEnd_append_space fun c hc => (List.mem_replicate.mp hc).2 ▸ rfl, hval]

/-- **A line is to `awk` what it says.** -/
theorem shellLine_print {x : FlatLine} (h : x.WellFormed) : shellLine x.print = x.line := by
  -- a name begins the line, or what is behind its blanks
  have hname : ∀ {name : List Char} (rest : List Char), IsName name →
      (name ++ rest).head?.any (!isAwkSpace ·) = true ∧ (name ++ rest).head? ≠ some '#' := by
    intro name rest hn
    cases name with
    | nil => exact absurd hn.1 (by decide)
    | cons c name =>
      obtain ⟨hspace, hvalue⟩ := of_keyChar (hn.2 c List.mem_cons_self)
      refine ⟨by simp [hspace], ?_⟩
      simpa using (of_valueChar hvalue).2
  cases x with
  | blank n =>
    refine skip_iff.mpr fun c hc => ?_
    rw [FlatLine.print, uncommented_only] at hc
    rw [(List.mem_replicate.mp hc).2]
    rfl
  | comment n text =>
    refine skip_iff.mpr fun c hc => ?_
    rw [FlatLine.print, uncommented_blanks, uncommented_cons, if_pos rfl, List.append_nil] at hc
    rw [(List.mem_replicate.mp hc).2]
    rfl
  | header name n =>
    obtain ⟨hhead, hmark⟩ := hname (':' :: List.replicate n ' ') h
    have hbody : (name ++ ':' :: List.replicate n ' ').dropWhile isAwkSpace =
        name ++ ':' :: List.replicate n ' ' := dropWhile_blanks 0 hhead
    show shellLine (name ++ ':' :: List.replicate n ' ') = .header name
    unfold shellLine
    dsimp only
    rw [hbody, if_neg (by simpa using hmark), nameAt_print h]
    exact if_pos (List.all_eq_true.mpr fun c hc => (List.mem_replicate.mp hc).2 ▸ rfl)
  | entry indent gap key val ending =>
    obtain ⟨hkey, hval⟩ := h
    generalize hrest : List.replicate (gap + 1) ' ' ++ (val ++ ending.print) = rest
    obtain ⟨hhead, hmark⟩ := hname (':' :: rest) hkey
    have hvalue : valueOf rest = val := by
      rw [← hrest]
      exact valueOf_print hval (gap + 1) ending
    have hentry : entryOf key rest = .entry key val := by
      unfold entryOf
      dsimp only
      rw [hvalue]
      exact if_pos (by simpa [hval.1] using hval.2)
    show shellLine (List.replicate (indent + 1) ' ' ++ (key ++ ':' ::
      (List.replicate (gap + 1) ' ' ++ (val ++ ending.print)))) = .entry key val
    rw [hrest]
    unfold shellLine
    dsimp only
    rw [dropWhile_blanks (indent + 1) hhead, if_neg (by simpa using hmark), List.replicate_succ,
      List.cons_append, nameAt_none (by decide) (by decide), nameAt_print hkey]
    exact hentry

theorem entriesOf_safe {doc : List FlatLine} (h : ∀ x ∈ doc, x.WellFormed) :
    ∀ e ∈ entriesOf (doc.map FlatLine.line), IsValue e.2 := by
  induction doc with
  | nil => exact fun e he => by cases he
  | cons x doc ih =>
    obtain ⟨hx, hdoc⟩ := List.forall_mem_cons.mp h
    cases x with
    | blank n => exact ih hdoc
    | comment n text => exact ih hdoc
    | header name n => exact fun e he => by cases he
    | entry indent gap key val ending => exact List.forall_mem_cons.mpr ⟨hx.2, ih hdoc⟩

/-- Every value in a block is safe in a shell. -/
theorem blocksOf_safe {doc : List FlatLine} (h : ∀ x ∈ doc, x.WellFormed) :
    ∀ b ∈ blocksOf (doc.map FlatLine.line), ∀ e ∈ b.2, IsValue e.2 := by
  induction doc with
  | nil => exact fun b hb => by cases hb
  | cons x doc ih =>
    obtain ⟨-, hdoc⟩ := List.forall_mem_cons.mp h
    cases x with
    | blank n => exact ih hdoc
    | comment n text => exact ih hdoc
    | header name n => exact List.forall_mem_cons.mpr ⟨entriesOf_safe hdoc, ih hdoc⟩
    | entry indent gap key val ending => exact ih hdoc

/-! ## Plain values -/

/-- The nearest double of a number that is not negative, ties to even; none
beyond the largest. -/
def nearestDouble (q : ℚ) : Option ℚ :=
  if q = 0 then some 0
  else
    let ulp := (2 : ℚ) ^ max (Int.log 2 q - 52) (-1074)
    let x := roundHalfEven (q / ulp) * ulp
    if x < 2 ^ 1024 then some x else none

/-- The shortest decimal that reads back as this double, and of those the
nearest. -/
def shortest (x : ℚ) : ℚ :=
  ((List.range 17).findSome? fun k =>
    let unit := (10 : ℚ) ^ (Int.log 10 x - k)
    let near := roundHalfEven (x / unit) * unit
    let below := ⌊x / unit⌋ * unit
    [near, below, below + unit].find? fun d => nearestDouble d = some x).getD x

/-- `Decimal(str(float(text)))` of a decimal text. -/
def shownFloat (q : ℚ) : Decimal :=
  match nearestDouble |q| with
  | none => .infinity (q < 0)
  | some x => .finite (if q < 0 then -shortest x else shortest x)

/-- A notation for integers. -/
inductive Radix where
  | binary | octal | decimal | hex
deriving DecidableEq, Repr

def Radix.base : Radix → ℕ
  | .binary => 2
  | .octal => 8
  | .decimal => 10
  | .hex => 16

/-- What the resolvers take a plain value for. -/
inductive Form where
  | bool (b : Bool)
  | null
  | infinity
  | nan
  | float
  | int (base : Radix) (digits : List Char)
  | date
  | text
deriving DecidableEq, Repr

def isDigitOrBar (c : Char) : Bool := isAsciiDigit c || c == '_'

/-- `([eE][-+][0-9]+)?`. -/
def isExponent : List Char → Bool
  | [] => true
  | e :: s :: ds => (e == 'e' || e == 'E') && (s == '-' || s == '+') && !ds.isEmpty &&
      ds.all isAsciiDigit
  | [_] => false

/-- `[-+]?[0-9][0-9_]*\.[0-9_]*([eE][-+][0-9]+)?` or
`\.[0-9][0-9_]*([eE][-+][0-9]+)?`. -/
def isYamlFloat (cs : List Char) : Bool :=
  let u := (signOf cs).2
  let whole := u.takeWhile isDigitOrBar
  match u.dropWhile isDigitOrBar with
  | '.' :: r =>
    let frac := r.takeWhile isDigitOrBar
    isExponent (r.dropWhile isDigitOrBar) &&
      (whole.head?.any isAsciiDigit ||
        (whole.isEmpty && u.length == cs.length && frac.head?.any isAsciiDigit))
  | _ => false

/-- The notation of an integer without its sign, and its digits. -/
def intForm : List Char → Option (Radix × List Char)
  | '0' :: 'b' :: ds =>
    if !ds.isEmpty && ds.all fun c => c == '0' || c == '1' || c == '_' then some (.binary, ds)
    else none
  | '0' :: 'x' :: ds =>
    if !ds.isEmpty && ds.all fun c => isDigitOrBar c || ('a' ≤ c && c ≤ 'f') ||
      ('A' ≤ c && c ≤ 'F') then some (.hex, ds)
    else none
  | '0' :: ds =>
    if ds.all fun c => ('0' ≤ c && c ≤ '7') || c == '_' then some (.octal, ds) else none
  | d :: ds => if isAsciiDigit d && ds.all isDigitOrBar then some (.decimal, d :: ds) else none
  | [] => none

/-- The value of a digit. -/
def digitOf (c : Char) : ℕ := if isAsciiDigit c then c.toNat - 48 else c.toLower.toNat - 87

/-- The value of digits, bars among them passed over. -/
def baseValue (b : ℕ) (ds : List Char) : ℕ :=
  (ds.filter (· != '_')).foldl (fun n c => b * n + digitOf c) 0

/-- `[0-9][0-9][0-9][0-9]-[0-9][0-9]-[0-9][0-9]`. -/
def isYamlDate : List Char → Bool
  | [y₁, y₂, y₃, y₄, s₁, m₁, m₂, s₂, d₁, d₂] =>
    [y₁, y₂, y₃, y₄, m₁, m₂, d₁, d₂].all isAsciiDigit && s₁ == '-' && s₂ == '-'
  | _ => false

def trueWords : List String :=
  ["yes", "Yes", "YES", "true", "True", "TRUE", "on", "On", "ON"]

def falseWords : List String :=
  ["no", "No", "NO", "false", "False", "FALSE", "off", "Off", "OFF"]

def nullWords : List String := ["null", "Null", "NULL"]

/-- The implicit resolvers, on a value of letters, digits, points, bars and
dashes. -/
def formOf (cs : List Char) : Form :=
  let s := String.ofList cs
  if trueWords.contains s then .bool true
  else if falseWords.contains s then .bool false
  else if nullWords.contains s then .null
  else if [".inf", ".Inf", ".INF"].contains (String.ofList (signOf cs).2) then .infinity
  else if [".nan", ".NaN", ".NAN"].contains s then .nan
  else if isYamlFloat cs then .float
  else match intForm (signOf cs).2 with
    | some (base, ds) => .int base ds
    | none => if isYamlDate cs then .date else .text

/-- The value constructed. A date is kept as the text it prints again. -/
def resolve (cs : List Char) : Yaml :=
  let negative := (signOf cs).1
  match formOf cs with
  | .bool b => .bool b
  | .null => .null
  | .infinity => .float (.infinity negative)
  | .nan => .float .nan
  | .float => .float (match parseDecimal (String.ofList cs) with
    | .finite q => shownFloat q
    | _ => .nan)
  | .int base ds => .int (if negative then -(baseValue base.base ds : ℤ) else baseValue base.base ds)
  | .date => .other (some (String.ofList cs)) false
  | .text => .str (String.ofList cs)

/-- A name as a key: some names are not texts. -/
def keyOf (name : List Char) : YamlKey :=
  match formOf name with
  | .bool true => .other (some "True")
  | .bool false => .other (some "False")
  | .null => .other (some "None")
  | _ => .str (String.ofList name)

example : resolve "010".toList = .int 8 ∧ resolve "1e3".toList = .str "1e3" := by
  constructor <;> rfl

/-! ## What is assumed of PyYAML -/

/-- A block of rules, as it is constructed: of two rules for one key the later
counts. -/
def BodyOf (es : List (List Char × List Char)) (body : Yaml) : Prop :=
  if es = [] then body = .null
  else ∃ text items, body = .mapping text items ∧ ∀ k,
    items.lookup k = lastOf (es.map fun e => (keyOf e.1, resolve e.2)) k

/-- Blocks, as they are constructed: of two blocks for one key the later
counts. -/
def ReadAs (blocks : List Block) (raw : Yaml) : Prop :=
  ∃ text items, raw = .mapping text items ∧ ∀ k,
    match lastOf (blocks.map fun b => (keyOf b.1, b.2)) k with
    | none => items.lookup k = none
    | some es => ∃ body, items.lookup k = some body ∧ BodyOf es body

/-- **PyYAML, on rules the shell's loader accepts.** If it reads them as two
sections of numbers, they are written as a flat block mapping, and the value
is that of its blocks. -/
def ReadsFlat (texts : Texts) (safeLoad : String → Except YamlError Yaml) : Prop :=
  ∀ (text path : String) (raw : Yaml) (rules : Rules), (awk (yamlLines text.toList)).isSome →
    safeLoad text = .ok raw → rulesOf texts path raw = .ok rules →
    ∃ doc : List FlatLine, (∀ x ∈ doc, x.WellFormed) ∧
      yamlLines text.toList = doc.map FlatLine.print ∧ ReadAs (blocksOf (doc.map FlatLine.line)) raw

/-- The value of a block, with no text of its own. -/
def constructBody (es : List (List Char × List Char)) : Yaml :=
  if es = [] then .null
  else .mapping none (Dict.ofPairs (es.map fun e => (keyOf e.1, resolve e.2))).items

def construct (blocks : List Block) : Yaml :=
  .mapping none (Dict.ofPairs (blocks.map fun b => (keyOf b.1, constructBody b.2))).items

theorem bodyOf_construct (es : List (List Char × List Char)) : BodyOf es (constructBody es) := by
  unfold BodyOf constructBody
  by_cases hes : es = []
  · rw [if_pos hes, if_pos hes]
  · rw [if_neg hes, if_neg hes]
    exact ⟨none, _, rfl, get?_ofPairs_last _⟩

theorem readAs_construct (blocks : List Block) : ReadAs blocks (construct blocks) := by
  refine ⟨none, _, rfl, fun k => ?_⟩
  have hmap := lastOf_map (l := blocks.map fun b => (keyOf b.1, b.2)) (k := k) (f := id)
    (g := constructBody) fun _ _ h => h
  rw [List.map_map] at hmap
  have hlookup := (get?_ofPairs_last _ k).trans hmap
  split
  next h =>
    rw [h] at hlookup
    exact hlookup
  next es h =>
    rw [h] at hlookup
    exact ⟨_, hlookup, bodyOf_construct es⟩

/-- A loader that knows this text only. -/
def knowing (text : String) (blocks : List Block) : String → Except YamlError Yaml := fun s =>
  if s = text then .ok (construct blocks) else .error (.yaml "")

theorem readsFlat_knowing {texts : Texts} {text : String} {doc : List FlatLine}
    (hdoc : ∀ x ∈ doc, x.WellFormed) (hlines : yamlLines text.toList = doc.map FlatLine.print) :
    ReadsFlat texts (knowing text (blocksOf (doc.map FlatLine.line))) := by
  intro s _ raw _ _ hload _
  unfold knowing at hload
  split at hload
  next hs =>
    cases hload
    exact ⟨doc, hdoc, hs ▸ hlines, readAs_construct _⟩
  next => cases hload

end TradeDesk.RuleFile
