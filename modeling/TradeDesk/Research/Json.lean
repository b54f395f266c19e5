import TradeDesk.Lists.Dict
import TradeDesk.Text
import Mathlib.Data.List.Sort

/-!
# JSON values

What a ledger line holds once `json.loads` has read it, and the text
`json.dumps` writes for it with its keys sorted: with its own separators for
the stored row, with compact ones for the claim an id is computed over. All
text outside printable ASCII is escaped, so the bytes a checksum is taken of
are the text's characters.

A float is kept as the text Python prints for it.
-/

namespace TradeDesk.Research

open TradeDesk.Lists

inductive Json where
  | null
  | bool (b : Bool)
  | int (n : ℤ)
  | float (text : String)
  | str (s : String)
  | arr (xs : List Json)
  | obj (items : List (String × Json))

/-- A line that is an object: a `dict[str, Any]`. -/
abbrev Record := Dict String Json

/-! ## Writing -/

def hexDigit (n : ℕ) : Char := Char.ofNat (if n < 10 then 48 + n else 87 + n)

/-- `\uXXXX` for one sixteen-bit unit. -/
def unicodeEscape (n : ℕ) : List Char :=
  ['\\', 'u', hexDigit (n / 4096 % 16), hexDigit (n / 256 % 16), hexDigit (n / 16 % 16),
    hexDigit (n % 16)]

/-- A character in a JSON string: outside the basic plane it is a pair of
surrogates. -/
def escapeChar (c : Char) : List Char :=
  if c = '"' then ['\\', '"']
  else if c = '\\' then ['\\', '\\']
  else if c = '\n' then ['\\', 'n']
  else if c = '\r' then ['\\', 'r']
  else if c = '\t' then ['\\', 't']
  else if c.toNat = 8 then ['\\', 'b']
  else if c.toNat = 12 then ['\\', 'f']
  else if 32 ≤ c.toNat ∧ c.toNat ≤ 126 then [c]
  else if c.toNat < 0x10000 then unicodeEscape c.toNat
  else unicodeEscape (0xd800 + (c.toNat - 0x10000) / 1024) ++
    unicodeEscape (0xdc00 + (c.toNat - 0x10000) % 1024)

def quoted (s : String) : String :=
  String.ofList (['"'] ++ s.toList.flatMap escapeChar ++ ['"'])

/-- The separators of `json.dumps`: its own, or `(",", ":")`. -/
structure Separators where
  item : String
  key : String

def spaced : Separators := ⟨", ", ": "⟩

def compact : Separators := ⟨",", ":"⟩

/-- An object's items, already written, by key. -/
def sortedItems (items : List (String × String)) : List (String × String) :=
  items.insertionSort fun a b => a.1 ≤ b.1

mutual

/-- `json.dumps(value, sort_keys=True)`. -/
def Json.dumps (sep : Separators) : Json → String
  | .null => "null"
  | .bool true => "true"
  | .bool false => "false"
  | .int n => toString n
  | .float text => text
  | .str s => quoted s
  | .arr xs => "[" ++ sep.item.intercalate (dumpsAll sep xs) ++ "]"
  | .obj items => "\x7b" ++ sep.item.intercalate
      ((sortedItems (dumpsItems sep items)).map fun e => quoted e.1 ++ sep.key ++ e.2) ++ "\x7d"

def dumpsAll (sep : Separators) : List Json → List String
  | [] => []
  | x :: xs => x.dumps sep :: dumpsAll sep xs

def dumpsItems (sep : Separators) : List (String × Json) → List (String × String)
  | [] => []
  | (k, v) :: items => (k, v.dumps sep) :: dumpsItems sep items

end

def Record.dumps (sep : Separators) (record : Record) : String := (Json.obj record.items).dumps sep

theorem dumpsItems_eq (sep : Separators) (items : List (String × Json)) :
    dumpsItems sep items = items.map fun e => (e.1, e.2.dumps sep) := by
  induction items with
  | nil => rfl
  | cons e items ih =>
    obtain ⟨k, v⟩ := e
    unfold dumpsItems
    rw [ih]
    rfl

/-- Items come out in the order of their keys, whatever order they were in. -/
theorem sortedItems_perm {items items' : List (String × String)} (h : items.Perm items')
    (hnodup : (items.map (·.1)).Nodup) : sortedItems items = sortedItems items' := by
  unfold sortedItems
  have hsorted : ∀ l : List (String × String),
      (l.insertionSort fun a b => a.1 ≤ b.1).Pairwise fun a b => a.1 ≤ b.1 := by
    intro l
    have : Std.Total fun a b : String × String => a.1 ≤ b.1 :=
      ⟨fun a b => String.le_total a.1 b.1⟩
    have : IsTrans (String × String) fun a b => a.1 ≤ b.1 := ⟨fun a b c => String.le_trans⟩
    exact List.pairwise_insertionSort _ l
  have hperm := ((List.perm_insertionSort (fun a b => a.1 ≤ b.1) items).trans h).trans
    (List.perm_insertionSort (fun a b => a.1 ≤ b.1) items').symm
  refine hperm.eq_of_pairwise (fun a b ha hb hab hba => ?_) (hsorted _) (hsorted _)
  have hb' := h.symm.subset ((List.mem_insertionSort _).mp hb)
  exact List.inj_on_of_nodup_map hnodup ((List.mem_insertionSort _).mp ha) hb'
    (String.le_antisymm hab hba)

/-- The text of a record is of what is under its keys. -/
theorem Record.dumps_congr {record record' : Record} (sep : Separators)
    (h : ∀ k, record.get? k = record'.get? k) : record.dumps sep = record'.dumps sep := by
  have hperm := Dict.items_perm h
  unfold Record.dumps Json.dumps
  rw [dumpsItems_eq, dumpsItems_eq, sortedItems_perm (hperm.map _)]
  rw [List.map_map]
  exact record.nodup

/-! ## The checksum -/

/-- One byte of `zlib.crc32`. -/
def crcByte (crc : ℕ) (byte : ℕ) : ℕ :=
  (List.range 8).foldl (fun c _ => if c % 2 = 1 then (c / 2) ^^^ 0xedb88320 else c / 2)
    (crc ^^^ byte)

/-- `zlib.crc32` of ASCII text. -/
def crc32 (text : String) : ℕ :=
  (text.toList.foldl (fun crc c => crcByte crc c.toNat) 0xffffffff) ^^^ 0xffffffff

example : crc32 "123456789" = 0xcbf43926 := by decide +kernel

end TradeDesk.Research
