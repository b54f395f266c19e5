import TradeDesk.Lists.Turns
import TradeDesk.Research.Ledgers
import TradeDesk.Research.Docs

/-!
# The v2 store

The tree the importer reads (`tc/research/importer.py`): files of bytes,
found by their path or by the ending of their name. A document or a table is
read as one text; a JSONL file is split at its newlines before anything is
decoded, so that a corrupt line costs that line and nothing else.

`Python` is what `json.loads` and UTF-8 make of a text. A text of Python's may hold
half of a surrogate pair, which `json.loads` reads from an escape and no
table takes: `encodable` tells which of the texts stand for such a one.
-/

namespace TradeDesk.Research

open TradeDesk.Lists

abbrev Bytes := List UInt8

/-! ## What the interpreter brings -/

/-- What `json.loads` makes of a text: besides `JSONDecodeError` it raises for
values nested too deep and for numbers of too many digits. -/
inductive Loaded where
  | value (v : Json)
  | notJson
  | raised

structure Python where
  loads : List Char → Loaded
  encodable : String → Bool
  symbols : ∀ s, matchesSymbol s = true → encodable s = true

/-- `bytes.decode`: UTF-8, with nothing repaired. -/
def decode (bytes : Bytes) : Option (List Char) :=
  (String.fromUTF8? ⟨bytes.toArray⟩).map String.toList

example : decode [0x41, 0xe2, 0x80, 0x94] = some ['A', '—'] := by decide +kernel
example : decode [0x41, 0xed, 0xa0, 0x80] = none := by decide +kernel

/-- The bytes `bytes.strip` takes off. -/
def isAsciiSpace (b : UInt8) : Bool := b == 32 || (9 ≤ b && b ≤ 13)

def stripBytes (bytes : Bytes) : Bytes :=
  ((bytes.dropWhile isAsciiSpace).reverse.dropWhile isAsciiSpace).reverse

/-! ## The tree -/

inductive Node where
  | file (bytes : Bytes)
  | unreadable
  | directory

/-- Paths are relative to the tree's root. A name that a directory lists may
lead nowhere. -/
structure SourceTree where
  node : String → Option Node
  names : String → List String
  nodup : ∀ dir, (names dir).Nodup

namespace SourceTree

variable (src : SourceTree)

/-- `_is_file`. -/
def isFile (path : String) : Bool :=
  match src.node path with
  | some (.file _) => true
  | some .unreadable => true
  | _ => false

/-- `_is_dir`. -/
def isDir (path : String) : Bool :=
  match src.node path with
  | some .directory => true
  | _ => false

/-- `_read_bytes`: nothing for an `OSError`. -/
def readBytes (path : String) : Option Bytes :=
  match src.node path with
  | some (.file bytes) => some bytes
  | _ => none

/-- `_glob` of `*<suffix>`: names, in order. -/
def glob (dir suffix : String) : List String :=
  ((src.names dir).filter fun n => suffix.toList.isSuffixOf n.toList).insertionSort (· ≤ ·)

end SourceTree

/-- `Path.stem`. -/
def stem (name : String) : String :=
  let ending := name.toList.reverse.takeWhile (· != '.')
  match name.toList.reverse.dropWhile (· != '.') with
  | '.' :: base =>
    if ending.isEmpty || base.isEmpty then name else String.ofList base.reverse
  | _ => name

example : stem "2026-08-28.jsonl" = "2026-08-28" := by decide +kernel
example : stem ".jsonl" = ".jsonl" := by decide +kernel

/-! ## What is named in the report -/

/-- Where something was refused: a file, or one of its lines. -/
structure Place where
  file : String
  line : Option ℕ
deriving DecidableEq, Repr

/-- Why. -/
inductive Reason where
  | unreadable
  | nulInFile
  | nulInLine
  | undecodable
  | notJson
  | notObject
  | filename
  | document (message : String)
  | ledger (e : LedgerError)
  | snapshotted
  | kind
  | columns (expected got : ℕ)
  | notANumber
  | noAssembled
  | noTable
  | columnsMoved
deriving DecidableEq, Repr

/-! ## Reading a file -/

variable (py : Python) (src : SourceTree)

/-- `_read_text`: refused rather than repaired. -/
def SourceTree.readText (path : String) : Except Reason (List Char) :=
  match src.readBytes path with
  | none => .error .unreadable
  | some data =>
    if 0 ∈ data then .error .nulInFile
    else match decode data with
      | none => .error .undecodable
      | some text => .ok text

/-- Numbered entries of a file. -/
def numbered {α : Type} (path : String) (first : ℕ) (lines : List α) : List (Place × α) :=
  (lines.zipIdx first).map fun e => (⟨path, some e.2⟩, e.1)

/-- The lines of a JSONL file, or the one entry of an unreadable one. -/
def SourceTree.lines (path : String) : List (Place × Option Bytes) :=
  match src.readBytes path with
  | none => [(⟨path, none⟩, none)]
  | some data => numbered path 1 ((data.splitOn 10).map some)

/-- The body of the loop of `_read_jsonl`. -/
def readLine : Option Bytes → Read Record Reason
  | none => .bad .unreadable
  | some raw =>
    let line := stripBytes raw
    if line.isEmpty then .blank
    else if 0 ∈ line then .bad .nulInLine
    else match decode line with
      | none => .bad .undecodable
      | some text => match py.loads text with
        | .notJson => .bad .notJson
        | .raised => .raised
        | .value (.obj items) => .row (Dict.ofPairs items)
        | .value _ => .bad .notObject

/-- `_read_jsonl`, and what is done with its rows. -/
def SourceTree.readJsonl {σ κ : Type} (path : String)
    (rows : List (Place × Record) → Part σ Place κ Reason) : Part σ Place κ Reason :=
  wholeFile (readLine py) rows (src.lines path)

/-! ## Places -/

variable {py : Python} {src : SourceTree}

theorem numbered_snd {α : Type} (path : String) (first : ℕ) (lines : List α) :
    (numbered path first lines).map (·.2) = lines := by
  unfold numbered
  rw [List.map_map]
  exact List.zipIdx_map_fst first lines

theorem numbered_file {α : Type} {path : String} {first : ℕ} {lines : List α} {x : Place × α}
    (h : x ∈ numbered path first lines) : x.1.file = path := by
  obtain ⟨e, -, rfl⟩ := List.mem_map.mp h
  rfl

theorem numbered_nodup {α : Type} (path : String) (first : ℕ) (lines : List α) :
    ((numbered path first lines).map (·.1)).Nodup := by
  unfold numbered
  rw [List.map_map]
  have hnumbers : ((lines.zipIdx first).map (·.2)).Nodup := by
    rw [List.zipIdx_map_snd]
    exact List.nodup_range'
  have hsame : (lines.zipIdx first).map ((fun x : Place × α => x.1) ∘ fun e =>
      ((⟨path, some e.2⟩ : Place), e.1)) =
      ((lines.zipIdx first).map (·.2)).map fun n => (⟨path, some n⟩ : Place) := by
    rw [List.map_map]
    rfl
  rw [hsame]
  refine hnumbers.map fun a b hab => ?_
  exact Option.some.inj (Place.mk.inj hab).2

theorem lines_file {path : String} {x : Place × Option Bytes} (h : x ∈ src.lines path) :
    x.1.file = path := by
  unfold SourceTree.lines at h
  split at h
  · rw [List.mem_singleton.mp h]
  · exact numbered_file h

theorem lines_nodup (path : String) : ((src.lines path).map (·.1)).Nodup := by
  unfold SourceTree.lines
  split
  · exact List.nodup_singleton _
  · exact numbered_nodup path 1 _

theorem mem_glob {dir suffix name : String} (h : name ∈ src.glob dir suffix) :
    name ∈ src.names dir ∧ suffix.toList <:+ name.toList := by
  unfold SourceTree.glob at h
  have hmem := List.mem_filter.mp ((List.mem_insertionSort _).mp h)
  exact ⟨hmem.1, List.isSuffixOf_iff_suffix.mp hmem.2⟩

theorem glob_nodup (dir suffix : String) : (src.glob dir suffix).Nodup :=
  (List.perm_insertionSort _ _).nodup_iff.mpr ((src.nodup dir).filter _)

end TradeDesk.Research
