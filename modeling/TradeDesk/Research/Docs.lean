import TradeDesk.Text
import Mathlib.Data.List.Infix

/-!
# The documents

The six documents Claude reads whole (`tc/research/docs.py`). A body is
checked before it is written, the file it replaces is kept beside it, and a
writer may name the `Last pass:` line it read: the write is refused when
the file carries another one. That line is all that is compared.

A file is the text in it. Reading turns every line end into a newline, as
Python's text mode does; from the comparison to the end of the write there
is no await, so a replace is one step for the file.
-/

namespace TradeDesk.Research

/-! ## Lines -/

/-- Reading in text mode: `\r\n` and `\r` are newlines. -/
def universalNewlines : List Char → List Char
  | [] => []
  | '\r' :: '\n' :: cs => '\n' :: universalNewlines cs
  | c :: cs => (if c = '\r' then '\n' else c) :: universalNewlines cs

/-- `re.search("^<mark>.*$", MULTILINE)`, stripped: the first line that
starts so. -/
def stampLine (mark : String) (text : List Char) : Option String :=
  ((text.splitOn '\n').find? fun l => mark.toList.isPrefixOf l).map fun l =>
    String.ofList (stripChars l)

def lastPass (text : List Char) : Option String := stampLine "Last pass:" text
def verifiedAsOf (text : List Char) : Option String := stampLine "Verified as of:" text

/-- Where `str.splitlines` breaks. -/
def isLineBreak (c : Char) : Bool :=
  [0xa, 0xb, 0xc, 0xd, 0x1c, 0x1d, 0x1e, 0x85, 0x2028, 0x2029].contains c.toNat

/-- The lines of the rest of a text, the characters of its first line read
so far in reverse. -/
def linesFrom (line : List Char) : List Char → List (List Char)
  | [] => if line.isEmpty then [] else [line.reverse]
  | '\r' :: '\n' :: cs => line.reverse :: linesFrom [] cs
  | c :: cs => if isLineBreak c then line.reverse :: linesFrom [] cs else linesFrom (c :: line) cs

/-- `str.splitlines`. -/
def splitlines (text : List Char) : List (List Char) := linesFrom [] text

/-! ## The table of documents -/

inductive DocKind where
  | candidates | standing | scorecard | preopen | optionsRoster | universe
deriving DecidableEq, Repr

def DocKind.name : DocKind → String
  | .candidates => "candidates"
  | .standing => "standing"
  | .scorecard => "scorecard"
  | .preopen => "preopen"
  | .optionsRoster => "options-roster"
  | .universe => "universe"

/-- One row of `SPECS`. A dated kind puts the date into its file's name and
its first line. -/
structure Spec where
  filename : String → String
  minLines : ℕ
  firstLine : String → String
  banners : List String
  dated : Bool
  needsLastPass : Bool
  needsVerified : Bool

def spec : DocKind → Spec
  | .candidates => ⟨fun _ => "candidates.md", 10, fun _ => "# Research candidates",
      ["never a source for order parameters"], false, true, false⟩
  | .optionsRoster => ⟨fun _ => "options-roster.md", 5, fun _ => "# Options-viable roster",
      ["never a source for order parameters", "TTL"], false, false, false⟩
  | .preopen => ⟨fun d => "preopen-" ++ d ++ ".md", 5, fun d => "# Pre-open brief — " ++ d,
      ["Pre-market data informs, it never qualifies"], true, false, false⟩
  | .scorecard => ⟨fun _ => "scorecard.md", 5, fun _ => "# Research scorecard",
      ["never loosens a gate in-flight", "explicit conversation with Chris"], false, false, false⟩
  | .universe => ⟨fun _ => "universe.md", 5, fun _ => "# Fallback universe",
      ["never a source for order parameters"], false, false, false⟩
  | .standing => ⟨fun _ => "standing.md", 5, fun _ => "# Standing research reference",
      ["never a source for order parameters"], false, false, true⟩

/-! ## The store -/

/-- `DocValidationError`, `DocCasMismatch` with the line expected and the
line found, or the store's. -/
inductive DocError where
  | validation (message : String)
  | casMismatch (kind : DocKind) (expected found : Option String)
  | store
deriving DecidableEq, Repr

structure DocView where
  kind : DocKind
  path : String
  exists_ : Bool
  body : String
  lastPass : Option String
  verifiedAsOf : Option String
deriving DecidableEq, Repr

structure DocWrite where
  kind : DocKind
  path : String
  lines : ℕ
deriving DecidableEq, Repr

/-- A row of `artifacts`, without the digest of the text. -/
structure Artifact where
  kind : DocKind
  date : Option String
  path : String
  lines : ℕ
deriving DecidableEq, Repr

/-- The files under the root, by path, and the rows of `artifacts`. A date is
its ISO text. -/
structure DocStore where
  files : String → Option (List Char)
  artifacts : List Artifact

def DocStore.write (s : DocStore) (path : String) (text : List Char) : DocStore :=
  { s with files := fun p => if p = path then some text else s.files p }

/-- `path_for`: a dated kind needs a date, no other takes one. The error is
the message of a `DocValidationError`. -/
def pathFor (kind : DocKind) (d : Option String) : Except String String :=
  match (spec kind).dated, d with
  | true, some d => .ok ((spec kind).filename d)
  | true, none => .error (kind.name ++ " needs a date")
  | false, none => .ok ((spec kind).filename "")
  | false, some _ => .error (kind.name ++ " takes no date")

/-- `_read`: nothing, where there is no file. -/
def DocStore.text (s : DocStore) (path : String) : List Char :=
  ((s.files path).map universalNewlines).getD []

def DocStore.read (s : DocStore) (kind : DocKind) (d : Option String) :
    Except DocError DocView := do
  let path ← (pathFor kind d).mapError .validation
  let body := s.text path
  return ⟨kind, path, (s.files path).isSome, String.ofList body, lastPass body, verifiedAsOf body⟩

def refuseUnless (c : Prop) [Decidable c] (message : String) : Except String Unit :=
  if c then .ok () else .error message

/-- The first of the banners the body lacks. -/
def missingBanner (banners : List String) (body : List Char) : Option String :=
  banners.find? fun b => ¬ b.toList <:+: body

/-- `_validate`: long enough, its own first line, its banners and its
stamp. -/
def validate (kind : DocKind) (body : List Char) (d : Option String) : Except String Unit := do
  let s := spec kind
  let lines := splitlines body
  refuseUnless (s.minLines < lines.length) (kind.name ++ ": " ++ toString lines.length ++
    " lines, need more than " ++ toString s.minLines ++ " (truncated heredoc?)")
  let want := s.firstLine (d.getD "")
  refuseUnless (lines.head?.map stripChars = some want.toList)
    (kind.name ++ ": first line must be exactly '" ++ want ++ "'")
  match missingBanner s.banners body with
  | some b => .error (kind.name ++ ": body must contain '" ++ b ++ "'")
  | none => do
    refuseUnless (s.needsLastPass = true → (lastPass body).isSome = true)
      (kind.name ++ ": body must carry a line starting 'Last pass:'")
    refuseUnless (s.needsVerified = true → (verifiedAsOf body).isSome = true)
      (kind.name ++ ": body must carry a line starting 'Verified as of:'")

/-- The text written for a body: it ends with a newline. -/
def written (body : List Char) : List Char :=
  if body.getLast? = some '\n' then body else body ++ ['\n']

/-- The compare of compare-and-swap: no expectation, no file, or the same
line. -/
def Expected (s : DocStore) (path : String) (expectLastPass : Option String) : Prop :=
  ∀ e, expectLastPass = some e → (s.files path).isSome = true →
    lastPass (s.text path) = some (strip e)

instance (s : DocStore) (path : String) (e : Option String) : Decidable (Expected s path e) :=
  match e with
  | none => .isTrue fun _ h => by cases h
  | some e => decidable_of_iff
      ((s.files path).isSome = true → lastPass (s.text path) = some (strip e))
      ⟨fun h _ he => by cases he; exact h, fun h => h e rfl⟩

/-- The file as it was goes to `.prev`, and the new text into its place. -/
def DocStore.swap (s : DocStore) (path : String) (text : List Char) : DocStore :=
  let s' := if (s.files path).isSome then s.write (path ++ ".prev") (s.text path) else s
  s'.write path text

/-- `replace`. The row of `artifacts` comes after the file is in place;
`recorded` says whether the store takes it. -/
def DocStore.replace (s : DocStore) (kind : DocKind) (body : List Char) (d : Option String)
    (expectLastPass : Option String) (recorded : Bool) : DocStore × Except DocError DocWrite :=
  match pathFor kind d, validate kind body d with
  | .error message, _ => (s, .error (.validation message))
  | .ok _, .error message => (s, .error (.validation message))
  | .ok path, .ok () =>
    if Expected s path expectLastPass then
      let text := written body
      let lines := (splitlines text).length
      let s' := s.swap path text
      if recorded then
        ({ s' with artifacts := s'.artifacts ++ [⟨kind, d, path, lines⟩] },
          .ok ⟨kind, path, lines⟩)
      else (s', .error .store)
    else (s, .error (.casMismatch kind expectLastPass (lastPass (s.text path))))

end TradeDesk.Research
