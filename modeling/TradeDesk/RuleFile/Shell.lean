import TradeDesk.RuleFile.Checks
import TradeDesk.Lists.LastOf
import Mathlib.Data.List.TakeWhile

/-!
# The shell's rule loader

`load_rules` and `rule_get` of `scripts/lib-rules.sh`. An `awk` program reads
`rules.yml` line by line: comments and blank lines are passed over, a name
with a colon at the left margin begins a section, an indented one is a rule
of it, and any other line is an error. What it prints is assigned to shell
variables `RULE_<section>_<key>`, of which the last of a name counts.

A line ends at a newline for `awk`, while YAML and Python also end lines at
a carriage return and at three other characters. That makes no difference
to what the lines say (`inTextMode_spoken`) when what stands behind such a
character is blank or a comment.
-/

namespace TradeDesk.RuleFile

open TradeDesk.Lists (lastOf)
open TradeDesk.Research (universalNewlines)

/-! ## Lines -/

/-- `[[:space:]]`, in the POSIX locale. -/
def isAwkSpace (c : Char) : Bool := [0x20, 0x9, 0xa, 0xb, 0xc, 0xd].contains c.toNat

/-- `[a-zA-Z_]`. -/
def isNameStart (c : Char) : Bool :=
  ('a' ≤ c && c ≤ 'z') || ('A' ≤ c && c ≤ 'Z') || c == '_'

/-- `[A-Za-z0-9._-]`. -/
def isValueChar (c : Char) : Bool := isKeyChar c || c == '.' || c == '-'

/-- `sub(/[[:space:]]+$/, "")`. -/
def trimEnd (cs : List Char) : List Char := (cs.reverse.dropWhile isAwkSpace).reverse

/-- `[a-zA-Z_][a-zA-Z0-9_]*:` here: the name, and what follows the colon. -/
def nameAt (cs : List Char) : Option (List Char × List Char) :=
  let name := cs.takeWhile isKeyChar
  match cs.dropWhile isKeyChar with
  | ':' :: rest => if name.head?.any isNameStart then some (name, rest) else none
  | _ => none

/-- What a line is to the program. -/
inductive Line where
  | skip
  | header (name : List Char)
  | entry (key val : List Char)
  | bad
deriving DecidableEq, Repr

/-- The value behind a colon: up to a comment, without the blanks around it. -/
def valueOf (rest : List Char) : List Char :=
  trimEnd ((rest.dropWhile isAwkSpace).takeWhile (· != '#'))

/-- A rule, unless its value is empty or unsafe. -/
def entryOf (key rest : List Char) : Line :=
  let val := valueOf rest
  if !val.isEmpty && val.all isValueChar then .entry key val else .bad

def shellLine (line : List Char) : Line :=
  let body := line.dropWhile isAwkSpace
  if body.isEmpty || body.head? == some '#' then .skip
  else match nameAt line with
  | some (name, rest) => if rest.all isAwkSpace then .header name else .bad
  | none => match nameAt body with
    | some (key, rest) => if line.head?.any isAwkSpace then entryOf key rest else .bad
    | none => .bad

/-! ## The program -/

/-- What the program prints for a rule. -/
structure Assignment where
  sec : List Char
  key : List Char
  val : List Char
deriving DecidableEq, Repr

/-- The program between two lines: its section, and what it has printed. -/
structure AwkState where
  sec : List Char
  out : List Assignment
deriving DecidableEq, Repr

/-- One line, or an error. -/
def awkLine (s : AwkState) : Line → Option AwkState
  | .skip => some s
  | .header name => some { s with sec := name }
  | .entry key val =>
    if s.sec.isEmpty then none else some { s with out := s.out ++ [⟨s.sec, key, val⟩] }
  | .bad => none

def awk (lines : List (List Char)) : Option (List Assignment) :=
  ((lines.map shellLine).foldlM awkLine ⟨[], []⟩).map (·.out)

/-- The lines of a file for `awk`. -/
def shellLines (text : List Char) : List (List Char) := text.splitOn '\n'

/-- `RULE_<section>_<key>`. -/
def variableOf (sec key : String) : String := "RULE_" ++ (sec ++ "_" ++ key)

/-- `load_rules`: the variables it assigns, in order. -/
def loadRulesSh (text : String) : Option (List (String × String)) :=
  (awk (shellLines text.toList)).map fun out => out.map fun a =>
    (variableOf (String.ofList a.sec) (String.ofList a.key), String.ofList a.val)

/-- `rule_get name`, after `load_rules`. -/
def ruleGet (env : List (String × String)) (name : String) : Option String :=
  (lastOf env ("RULE_" ++ name)).filter (!·.isEmpty)

example : (loadRulesSh "manual:\n  a: 1 # one\n\nstrategy:\n  b: 0.5\n").map (ruleGet · "manual_a") =
    some (some "1") := by decide +kernel

/-! ## Blocks -/

/-- The rules up to the next section. -/
def entriesOf : List Line → List (List Char × List Char)
  | [] | .header _ :: _ => []
  | .entry key val :: ls => (key, val) :: entriesOf ls
  | .skip :: ls | .bad :: ls => entriesOf ls

/-- A section's name, and rules of it. -/
abbrev Block := List Char × List (List Char × List Char)

/-- The sections, as often as they are begun. -/
def blocksOf : List Line → List Block
  | [] => []
  | .header name :: ls => (name, entriesOf ls) :: blocksOf ls
  | .entry _ _ :: ls | .skip :: ls | .bad :: ls => blocksOf ls

/-- What is printed for a block. -/
def printedOf (b : Block) : List Assignment :=
  b.2.map fun e => ⟨b.1, e.1, e.2⟩

/-- From within a section: its rules, then the blocks that follow. -/
theorem foldlM_awkLine {ls : List Line} {s s' : AwkState} (h : ls.foldlM awkLine s = some s') :
    s'.out = s.out ++ printedOf (s.sec, entriesOf ls) ++ (blocksOf ls).flatMap printedOf := by
  induction ls generalizing s with
  | nil =>
    cases h
    simp [printedOf, entriesOf, blocksOf]
  | cons x ls ih =>
    rw [List.foldlM_cons] at h
    obtain ⟨mid, hmid, h⟩ := Option.bind_eq_some_iff.mp h
    rw [ih h]
    cases x with
    | skip =>
      cases hmid
      rfl
    | header name =>
      cases hmid
      simp [printedOf, entriesOf, blocksOf]
    | entry key val =>
      simp only [awkLine] at hmid
      split at hmid
      next => cases hmid
      next =>
        cases hmid
        simp [printedOf, entriesOf, blocksOf]
    | bad => cases hmid

/-- Rules are printed only behind a section's name. -/
theorem entriesOf_unnamed {ls : List Line} {s s' : AwkState} (h : ls.foldlM awkLine s = some s')
    (hs : s.sec = []) : entriesOf ls = [] := by
  induction ls generalizing s with
  | nil => rfl
  | cons x ls ih =>
    rw [List.foldlM_cons] at h
    obtain ⟨mid, hmid, h⟩ := Option.bind_eq_some_iff.mp h
    cases x with
    | skip =>
      cases hmid
      exact ih h hs
    | header name => rfl
    | entry key val =>
      simp only [awkLine, hs] at hmid
      cases hmid
    | bad => cases hmid

/-- **What the program prints** is its blocks, one after another. -/
theorem awk_blocks {lines : List (List Char)} {out : List Assignment} (h : awk lines = some out) :
    out = (blocksOf (lines.map shellLine)).flatMap printedOf := by
  obtain ⟨s, hs, rfl⟩ := Option.map_eq_some_iff.mp h
  rw [foldlM_awkLine hs, entriesOf_unnamed hs rfl]
  rfl

/-- No line of an accepted file is bad. -/
theorem awk_good {lines : List (List Char)} {out : List Assignment} (h : awk lines = some out) :
    ∀ l ∈ lines, shellLine l ≠ .bad := by
  obtain ⟨s, hs, -⟩ := Option.map_eq_some_iff.mp h
  have hfold : ∀ (ls : List Line) (s s' : AwkState), ls.foldlM awkLine s = some s' →
      Line.bad ∉ ls := by
    intro ls
    induction ls with
    | nil => exact fun _ _ _ hmem => by cases hmem
    | cons x ls ih =>
      intro s s' h hmem
      rw [List.foldlM_cons] at h
      obtain ⟨mid, hmid, h⟩ := Option.bind_eq_some_iff.mp h
      rcases List.mem_cons.mp hmem with rfl | hmem
      · cases hmid
      · exact ih mid s' h hmem
  intro l hl hbad
  exact hfold _ _ _ hs (List.mem_map.mpr ⟨l, hl, hbad⟩)

/-! ## Lines that are passed over -/

/-- The lines that say something. -/
def spoken (ls : List Line) : List Line := ls.filter (· != .skip)

theorem entriesOf_spoken (ls : List Line) : entriesOf (spoken ls) = entriesOf ls := by
  induction ls with
  | nil => rfl
  | cons x ls ih =>
    cases x with
    | header name => rfl
    | entry key val => exact congrArg (List.cons (key, val)) ih
    | skip => exact ih
    | bad => exact ih

theorem blocksOf_spoken (ls : List Line) : blocksOf (spoken ls) = blocksOf ls := by
  induction ls with
  | nil => rfl
  | cons x ls ih =>
    cases x with
    | header name =>
      show (name, entriesOf (spoken ls)) :: blocksOf (spoken ls) = (name, entriesOf ls) :: blocksOf ls
      rw [entriesOf_spoken, ih]
    | entry key val => exact ih
    | skip => exact ih
    | bad => exact ih

theorem foldlM_spoken (ls : List Line) (s : AwkState) :
    (spoken ls).foldlM awkLine s = ls.foldlM awkLine s := by
  induction ls generalizing s with
  | nil => rfl
  | cons x ls ih =>
    cases x with
    | header name => exact ih _
    | entry key val =>
      show ((Line.entry key val) :: spoken ls).foldlM awkLine s = _
      rw [List.foldlM_cons, List.foldlM_cons]
      exact congrArg _ (funext ih)
    | skip => exact ih s
    | bad => rfl

/-- Lines that say the same make the same of a file. -/
theorem awk_of_spoken {lines lines' : List (List Char)}
    (h : spoken (lines.map shellLine) = spoken (lines'.map shellLine)) :
    awk lines = awk lines' ∧
      blocksOf (lines.map shellLine) = blocksOf (lines'.map shellLine) := by
  unfold awk
  rw [← foldlM_spoken, ← blocksOf_spoken, h, foldlM_spoken, blocksOf_spoken]
  exact ⟨rfl, rfl⟩

theorem spoken_flatMap {β : Type} {f : β → List Line} {g : β → Line} {ls : List β}
    (h : ∀ l ∈ ls, spoken (f l) = spoken [g l]) :
    spoken (ls.flatMap f) = spoken (ls.map g) := by
  induction ls with
  | nil => rfl
  | cons l ls ih =>
    have hrest := ih fun x hx => h x (List.mem_cons_of_mem l hx)
    have hl := h l List.mem_cons_self
    have hsplit : g l :: ls.map g = [g l] ++ ls.map g := rfl
    rw [List.flatMap_cons, List.map_cons, hsplit]
    unfold spoken at hl hrest ⊢
    rw [List.filter_append, List.filter_append, hl, hrest]

/-! ## Other line ends -/

/-- Where a line ends for YAML, or for Python that reads it, and not for
`awk`. -/
def isHiddenBreak (c : Char) : Bool := [0xd, 0x85, 0x2028, 0x2029].contains c.toNat

/-- The lines YAML makes of one. -/
def pieces (line : List Char) : List (List Char) := line.splitOnP isHiddenBreak

def yamlLines (text : List Char) : List (List Char) := (shellLines text).flatMap pieces

/-- Nothing but blanks and comments stands behind a line end that `awk` does
not see. -/
def Quiet (text : List Char) : Prop :=
  ∀ l ∈ shellLines text, ∀ x ∈ (pieces l).tail, shellLine x = .skip

section

variable {p t r : List Char} {c : Char}

/-- What is in front of a comment. -/
def uncommented (cs : List Char) : List Char := cs.takeWhile (· != '#')

theorem uncommented_cons (c : Char) (cs : List Char) :
    uncommented (c :: cs) = if c = '#' then [] else c :: uncommented cs := by
  unfold uncommented
  by_cases h : c = '#'
  · rw [if_pos h, h]
    rfl
  · rw [if_neg h]
    exact List.takeWhile_cons_of_pos (p := fun x : Char => x != '#') (bne_iff_ne.mpr h)

/-- A property of the characters with these codes. -/
theorem of_codes {codes : List ℕ} {P : Char → Prop} (h : codes.contains c.toNat = true)
    (hall : ∀ n ∈ codes, P (Char.ofNat n)) : P c := by
  have hc := hall c.toNat (by simpa using h)
  rwa [Char.ofNat_toNat] at hc

theorem break_not_key (h : isHiddenBreak c = true) :
    isKeyChar c = false ∧ isValueChar c = false ∧ c ≠ ':' ∧ c ≠ '#' :=
  of_codes (P := fun c => isKeyChar c = false ∧ isValueChar c = false ∧ c ≠ ':' ∧ c ≠ '#') h
    (by decide)

theorem space_not_key (h : isAwkSpace c = true) :
    isKeyChar c = false ∧ isValueChar c = false ∧ c ≠ ':' ∧ c ≠ '#' :=
  of_codes (P := fun c => isKeyChar c = false ∧ isValueChar c = false ∧ c ≠ ':' ∧ c ≠ '#') h
    (by decide)

private theorem entryOf_ne_skip {key rest : List Char} : entryOf key rest ≠ .skip := by
  unfold entryOf
  dsimp only
  split <;> exact Line.noConfusion

theorem skip_iff_body {x : List Char} : shellLine x = .skip ↔
    ((x.dropWhile isAwkSpace).isEmpty || (x.dropWhile isAwkSpace).head? == some '#') = true := by
  unfold shellLine
  dsimp only
  split
  next h => exact iff_of_true rfl h
  next h =>
    refine iff_of_false ?_ h
    split
    next => split <;> exact Line.noConfusion
    next =>
      split
      next =>
        split
        next => exact entryOf_ne_skip
        next => exact Line.noConfusion
      next => exact Line.noConfusion

/-- A line is passed over if there is nothing before its comment. -/
theorem skip_iff {x : List Char} :
    shellLine x = .skip ↔ ∀ c ∈ uncommented x, isAwkSpace c = true := by
  rw [skip_iff_body]
  induction x with
  | nil => exact iff_of_true rfl fun c hc => by cases hc
  | cons a x ih =>
    rw [uncommented_cons]
    by_cases ha : isAwkSpace a = true
    · rw [if_neg (space_not_key ha).2.2.2, List.dropWhile_cons_of_pos ha, List.forall_mem_cons,
        and_iff_right ha]
      exact ih
    · rw [List.dropWhile_cons_of_neg ha]
      by_cases hc : a = '#'
      · rw [if_pos hc, hc]
        exact iff_of_true rfl fun c hc => by cases hc
      · rw [if_neg hc, List.forall_mem_cons]
        exact iff_of_false (by simpa using hc) fun h => ha h.1

/-- Behind a hidden line end only blanks and line ends come before a
comment. -/
theorem uncommented_hidden (h : ∀ x ∈ pieces t, shellLine x = .skip) :
    ∀ c ∈ uncommented t, isAwkSpace c = true ∨ isHiddenBreak c = true := by
  induction t with
  | nil => exact fun c hc => by cases hc
  | cons a t ih =>
    unfold pieces at h ih
    rw [List.splitOnP_cons_eq_if_modifyHead] at h
    rw [uncommented_cons]
    split at h
    next ha =>
      rw [if_neg (break_not_key ha).2.2.2]
      intro c hc
      rcases List.mem_cons.mp hc with rfl | hc
      · exact Or.inr ha
      · exact ih (fun x hx => h x (List.mem_cons_of_mem _ hx)) c hc
    next =>
      obtain ⟨x, xs, hxs⟩ := List.exists_cons_of_ne_nil (List.splitOnP_ne_nil isHiddenBreak t)
      rw [hxs, List.modifyHead_cons] at h
      have hfirst := skip_iff.mp (h (a :: x) List.mem_cons_self)
      rw [uncommented_cons] at hfirst
      by_cases hc : a = '#'
      · rw [if_pos hc]
        exact fun c hc => by cases hc
      · rw [if_neg hc] at hfirst ⊢
        obtain ⟨ha, hx⟩ := List.forall_mem_cons.mp hfirst
        rw [List.forall_mem_cons]
        refine ⟨Or.inl ha, ih ?_⟩
        rw [hxs, List.forall_mem_cons]
        exact ⟨skip_iff.mpr hx, fun y hy => h y (List.mem_cons_of_mem _ hy)⟩

/-- A name in front of a hidden line end is read without what is behind. -/
theorem nameAt_append (hc : isHiddenBreak c = true) :
    nameAt (p ++ c :: t) = (nameAt p).map fun x => (x.1, x.2 ++ c :: t) := by
  obtain ⟨hkey, -, hcolon, -⟩ := break_not_key hc
  by_cases hall : ∀ x ∈ p, isKeyChar x = true
  · have hdrop : (p ++ c :: t).dropWhile isKeyChar = c :: t := by
      rw [List.dropWhile_append_of_pos hall, List.dropWhile_cons_of_neg (by simp [hkey])]
    have hdrop' : p.dropWhile isKeyChar = [] := List.dropWhile_eq_nil_iff.mpr hall
    unfold nameAt
    dsimp only
    rw [hdrop, hdrop']
    split
    next heq => exact absurd (List.cons.inj heq).1 hcolon
    next => rfl
  · have hne : p.dropWhile isKeyChar ≠ [] := fun he => hall (List.dropWhile_eq_nil_iff.mp he)
    have hdrop : (p ++ c :: t).dropWhile isKeyChar = p.dropWhile isKeyChar ++ c :: t := by
      rw [List.dropWhile_append, if_neg (by simpa using hne)]
    have htake : (p ++ c :: t).takeWhile isKeyChar = p.takeWhile isKeyChar := by
      rw [List.takeWhile_append, if_neg]
      intro hlen
      have hsplit := congrArg List.length (List.takeWhile_append_dropWhile (p := isKeyChar) (l := p))
      rw [List.length_append, hlen] at hsplit
      exact hne (List.length_eq_zero_iff.mp (by omega))
    unfold nameAt
    dsimp only
    rw [hdrop, htake]
    cases hd : p.dropWhile isKeyChar with
    | nil => exact absurd hd hne
    | cons x r =>
      rw [List.cons_append]
      split
      next rest heq =>
        obtain ⟨rfl, rfl⟩ := List.cons.inj heq
        split <;> rfl
      next hno =>
        split
        next rest heq =>
          obtain ⟨rfl, rfl⟩ := List.cons.inj heq
          exact absurd rfl (hno (r ++ c :: t))
        next => rfl

theorem trimEnd_append_space (hw : ∀ x ∈ t, isAwkSpace x = true) : trimEnd (p ++ t) = trimEnd p := by
  unfold trimEnd
  rw [List.reverse_append, List.dropWhile_append_of_pos]
  exact fun x hx => hw x (List.mem_reverse.mp hx)

theorem trimEnd_append (hne : trimEnd t ≠ []) : trimEnd (p ++ t) = p ++ trimEnd t := by
  unfold trimEnd at hne ⊢
  rw [List.reverse_append, List.dropWhile_append, if_neg, List.reverse_append,
    List.reverse_reverse]
  intro he
  apply hne
  rw [List.isEmpty_iff.mp he]
  rfl

theorem uncommented_append : uncommented (p ++ t) =
    if '#' ∈ p then uncommented p else p ++ uncommented t := by
  induction p with
  | nil => rfl
  | cons a p ih =>
    rw [List.cons_append, uncommented_cons, uncommented_cons, ih]
    by_cases ha : a = '#'
    · rw [if_pos ha, if_pos ha, if_pos (ha ▸ List.mem_cons_self)]
    · rw [if_neg ha, if_neg ha]
      by_cases hp : '#' ∈ p
      · rw [if_pos hp, if_pos (List.mem_cons_of_mem a hp)]
      · rw [if_neg hp, if_neg (by simp [hp, Ne.symm ha])]
        rfl

theorem uncommented_plain (h : '#' ∉ p) : uncommented p = p := by
  have happ := uncommented_append (p := p) (t := [])
  rw [List.append_nil, if_neg h] at happ
  rw [happ]
  exact List.append_nil p

/-- Blanks in front are of no account. -/
private theorem uncommented_dropWhile :
    uncommented (t.dropWhile isAwkSpace) ⊆ uncommented t := by
  induction t with
  | nil => exact List.Subset.refl _
  | cons a t ih =>
    by_cases ha : isAwkSpace a = true
    · rw [List.dropWhile_cons_of_pos ha, uncommented_cons, if_neg (space_not_key ha).2.2.2]
      exact fun x hx => List.mem_cons_of_mem a (ih hx)
    · rw [List.dropWhile_cons_of_neg ha]
      exact List.Subset.refl _

private theorem trimEnd_eq_nil : trimEnd t = [] ↔ ∀ x ∈ t, isAwkSpace x = true := by
  unfold trimEnd
  rw [List.reverse_eq_nil_iff, List.dropWhile_eq_nil_iff]
  exact ⟨fun h x hx => h x (List.mem_reverse.mpr hx), fun h x hx => h x (List.mem_reverse.mp hx)⟩

private theorem trimEnd_subset : trimEnd t ⊆ t := by
  intro x hx
  exact List.mem_reverse.mp ((List.dropWhile_suffix _).subset (List.mem_reverse.mp hx))

/-- A safe value is not changed by blanks and line ends behind it. -/
theorem valueOf_append {rest : List Char}
    (hhidden : ∀ x ∈ uncommented rest, isAwkSpace x = true ∨ isHiddenBreak x = true)
    (hne : valueOf (r ++ rest) ≠ []) (hsafe : ∀ x ∈ valueOf (r ++ rest), isValueChar x = true) :
    valueOf (r ++ rest) = valueOf r := by
  have hforeign : ∀ x, isAwkSpace x = true ∨ isHiddenBreak x = true → isValueChar x = false := by
    intro x hx
    rcases hx with hx | hx
    · exact (space_not_key hx).2.1
    · exact (break_not_key hx).2.1
  have hval : ∀ cs, valueOf cs = trimEnd (uncommented (cs.dropWhile isAwkSpace)) := fun _ => rfl
  -- a value of blanks and line ends only is empty or unsafe
  have hnone : ∀ cs, trimEnd cs ⊆ valueOf (r ++ rest) →
      (∀ x ∈ cs, isAwkSpace x = true ∨ isHiddenBreak x = true) → trimEnd cs = [] := by
    intro cs hsub hcs
    refine List.eq_nil_iff_forall_not_mem.mpr fun x hx => ?_
    have hyes := hsafe x (hsub hx)
    rw [hforeign x (hcs x (trimEnd_subset hx))] at hyes
    cases hyes
  by_cases hr : r.dropWhile isAwkSpace = []
  · rw [List.dropWhile_eq_nil_iff] at hr
    have hdrop : (r ++ rest).dropWhile isAwkSpace = rest.dropWhile isAwkSpace :=
      List.dropWhile_append_of_pos hr
    refine absurd ?_ hne
    rw [hval, hdrop]
    refine hnone _ ?_ fun x hx => hhidden x (uncommented_dropWhile hx)
    rw [hval, hdrop]
    exact List.Subset.refl _
  · have hdrop : (r ++ rest).dropWhile isAwkSpace = r.dropWhile isAwkSpace ++ rest := by
      rw [List.dropWhile_append, if_neg (by simpa using hr)]
    by_cases hmark : '#' ∈ r.dropWhile isAwkSpace
    · rw [hval, hval, hdrop, uncommented_append, if_pos hmark]
    · have hvalue : valueOf (r ++ rest) =
          trimEnd (r.dropWhile isAwkSpace ++ uncommented rest) := by
        rw [hval, hdrop, uncommented_append, if_neg hmark]
      rw [hvalue, hval, uncommented_plain hmark]
      refine trimEnd_append_space (trimEnd_eq_nil.mp ?_)
      by_contra hend
      refine hend (hnone _ ?_ hhidden)
      rw [hvalue, trimEnd_append hend]
      exact List.subset_append_right _ _

theorem nameAt_none {a : Char} (hkey : isKeyChar a = false) (hcolon : a ≠ ':') :
    nameAt (a :: r) = none := by
  unfold nameAt
  dsimp only
  rw [List.dropWhile_cons_of_neg (by simp [hkey])]
  split
  next heq => exact absurd (List.cons.inj heq).1 hcolon
  next => rfl

/-- What is in neither of the first two rules, nor begins with a name. -/
private theorem shellLine_unnamed (hskip : shellLine p ≠ .skip) (hname : nameAt p = none)
    (hbody : nameAt (p.dropWhile isAwkSpace) = none) : shellLine p = .bad := by
  rw [Ne, skip_iff_body] at hskip
  unfold shellLine
  dsimp only
  rw [if_neg hskip, hname, hbody]

private theorem not_named {cs : List Char}
    (h : ∀ x ∈ uncommented cs, isAwkSpace x = true ∨ isHiddenBreak x = true)
    (hmark : cs.head? ≠ some '#') : nameAt cs = none := by
  cases cs with
  | nil => rfl
  | cons a cs =>
    rw [uncommented_cons, if_neg (by simpa using hmark), List.forall_mem_cons] at h
    rcases h.1 with ha | ha
    · exact nameAt_none (space_not_key ha).1 (space_not_key ha).2.2.1
    · exact nameAt_none (break_not_key ha).1 (break_not_key ha).2.2.1

/-- **A line that goes on behind a hidden line end** is what it is up to
there, if it is accepted and only blanks and comments follow. -/
theorem shellLine_append (hc : isHiddenBreak c = true) (hquiet : ∀ x ∈ pieces t, shellLine x = .skip)
    (hgood : shellLine (p ++ c :: t) ≠ .bad) : shellLine (p ++ c :: t) = shellLine p := by
  have hhidden : ∀ x ∈ uncommented (c :: t), isAwkSpace x = true ∨ isHiddenBreak x = true := by
    rw [uncommented_cons, if_neg (break_not_key hc).2.2.2, List.forall_mem_cons]
    exact ⟨Or.inr hc, uncommented_hidden hquiet⟩
  by_cases hskip : shellLine (p ++ c :: t) = .skip
  · rw [hskip, eq_comm, skip_iff]
    rw [skip_iff, uncommented_append] at hskip
    by_cases hmark : '#' ∈ p
    · rwa [if_pos hmark] at hskip
    · rw [if_neg hmark] at hskip
      rw [uncommented_plain hmark]
      exact fun x hx => hskip x (List.mem_append_left _ hx)
  have hp : shellLine p ≠ .skip := by
    intro hp
    rw [skip_iff] at hp
    have hmark : '#' ∉ p := by
      intro hmark
      apply hskip
      rw [skip_iff, uncommented_append, if_pos hmark]
      exact hp
    have hall : ∀ x ∈ uncommented (p ++ c :: t), isAwkSpace x = true ∨ isHiddenBreak x = true := by
      rw [uncommented_append, if_neg hmark]
      intro x hx
      rcases List.mem_append.mp hx with hx | hx
      · exact Or.inl (hp x (by rwa [uncommented_plain hmark]))
      · exact hhidden x hx
    have hbody : ((p ++ c :: t).dropWhile isAwkSpace).head? ≠ some '#' := by
      intro he
      apply hskip
      rw [skip_iff_body, he, Bool.or_eq_true]
      exact Or.inr rfl
    refine hgood (shellLine_unnamed hskip (not_named hall fun he => ?_)
      (not_named (fun x hx => hall x (uncommented_dropWhile hx)) hbody))
    cases p with
    | nil => exact (break_not_key hc).2.2.2 (by simpa using he)
    | cons a p => exact hmark (by simp_all)
  have hcond := mt skip_iff_body.mpr hp
  have hcond' := mt skip_iff_body.mpr hskip
  have hne : p.dropWhile isAwkSpace ≠ [] := by
    intro he
    rw [he] at hcond
    exact hcond rfl
  have hbody : (p ++ c :: t).dropWhile isAwkSpace = p.dropWhile isAwkSpace ++ c :: t := by
    rw [List.dropWhile_append, if_neg (by simpa using hne)]
  have hhead : (p ++ c :: t).head? = p.head? := by
    cases p with
    | nil => exact absurd rfl hne
    | cons a p => rfl
  unfold shellLine at hgood ⊢
  dsimp only at hgood ⊢
  rw [if_neg hcond'] at hgood ⊢
  rw [if_neg hcond]
  rw [hbody, hhead, nameAt_append hc, nameAt_append hc] at hgood ⊢
  cases hname : nameAt p with
  | some x =>
    rw [hname] at hgood
    simp only [Option.map_some] at hgood ⊢
    split at hgood
    next hall =>
      rw [List.all_append, Bool.and_eq_true] at hall
      rw [List.all_append, hall.1, hall.2]
      rfl
    next => exact absurd rfl hgood
  | none =>
    rw [hname] at hgood
    simp only [Option.map_none] at hgood ⊢
    cases hkey : nameAt (p.dropWhile isAwkSpace) with
    | none => rfl
    | some x =>
      rw [hkey] at hgood
      simp only [Option.map_some] at hgood ⊢
      by_cases hindent : p.head?.any isAwkSpace = true
      · rw [if_pos hindent] at hgood ⊢
        rw [if_pos hindent]
        unfold entryOf at hgood ⊢
        dsimp only at hgood ⊢
        split at hgood
        next hsafe =>
          obtain ⟨hne', hall⟩ := Bool.and_eq_true_iff.mp hsafe
          rw [valueOf_append hhidden (by simpa using hne') (List.all_eq_true.mp hall)]
        next => exact absurd rfl hgood
      · rw [if_neg hindent] at hgood
        exact absurd rfl hgood

/-- The lines YAML makes of an accepted one say what it says. -/
theorem pieces_spoken {line : List Char} (hgood : shellLine line ≠ .bad)
    (hquiet : ∀ x ∈ (pieces line).tail, shellLine x = .skip) :
    spoken ((pieces line).map shellLine) = spoken [shellLine line] := by
  have hfront : ∀ x ∈ line.takeWhile (!isHiddenBreak ·), isHiddenBreak x = false := fun x hx => by
    simpa using List.mem_takeWhile_imp hx
  cases hrest : line.dropWhile (!isHiddenBreak ·) with
  | nil =>
    have hwhole : ∀ x ∈ line, isHiddenBreak x = false := fun x hx => by
      simpa using List.dropWhile_eq_nil_iff.mp hrest x hx
    unfold pieces
    rw [List.splitOnP_eq_singleton hwhole]
    rfl
  | cons c t =>
    have hc : isHiddenBreak c = true := by
      have hhead := List.head?_dropWhile_not (!isHiddenBreak ·) line
      rw [hrest] at hhead
      simpa using hhead
    have hline : line = line.takeWhile (!isHiddenBreak ·) ++ c :: t := by
      rw [← hrest, List.takeWhile_append_dropWhile]
    have hpieces : pieces line = line.takeWhile (!isHiddenBreak ·) :: pieces t := by
      unfold pieces
      conv => lhs; rw [hline]
      exact List.splitOnP_append_cons_of_forall_mem hfront c hc t
    rw [hpieces, List.tail_cons] at hquiet
    have hsame := shellLine_append (p := line.takeWhile (!isHiddenBreak ·)) hc hquiet
      (by rwa [← hline])
    rw [← hline] at hsame
    have hskip : (pieces t).map shellLine = List.replicate (pieces t).length .skip := by
      refine List.eq_replicate_iff.mpr ⟨List.length_map _, fun x hx => ?_⟩
      obtain ⟨y, hy, rfl⟩ := List.mem_map.mp hx
      exact hquiet y hy
    have hnone : spoken (List.replicate (pieces t).length .skip) = [] := by
      refine List.filter_eq_nil_iff.mpr fun x hx => ?_
      rw [(List.mem_replicate.mp hx).2]
      decide
    have hsplit : ∀ ls : List Line, spoken (shellLine line :: ls) =
        spoken [shellLine line] ++ spoken ls := fun ls => List.filter_append [shellLine line] ls
    rw [hpieces, List.map_cons, ← hsame, hskip, hsplit, hnone, List.append_nil]

end

/-- **YAML's lines say what the shell's do.** -/
theorem yamlLines_spoken {text : List Char} {out : List Assignment} (hquiet : Quiet text)
    (h : awk (shellLines text) = some out) :
    spoken ((yamlLines text).map shellLine) = spoken ((shellLines text).map shellLine) := by
  unfold yamlLines
  rw [List.map_flatMap]
  exact spoken_flatMap fun l hl => pieces_spoken (awk_good h l hl) (hquiet l hl)

theorem yamlLines_cons (c : Char) (cs : List Char) : yamlLines (c :: cs) =
    if c = '\n' ∨ isHiddenBreak c = true then [] :: yamlLines cs
    else (yamlLines cs).modifyHead (c :: ·) := by
  unfold yamlLines shellLines
  rw [List.splitOn_cons_eq_if_modifyHead]
  by_cases hn : c = '\n'
  · rw [if_pos (Or.inl hn), if_pos (beq_iff_eq.mpr hn)]
    rfl
  · rw [if_neg (by simpa using hn)]
    obtain ⟨l, ls, hls⟩ := List.exists_cons_of_ne_nil (List.splitOn_ne_nil '\n' cs)
    rw [hls, List.modifyHead_cons, List.flatMap_cons, List.flatMap_cons]
    unfold pieces
    rw [List.splitOnP_cons_eq_if_modifyHead]
    by_cases hc : isHiddenBreak c = true
    · rw [if_pos hc, if_pos (Or.inr hc)]
      rfl
    · rw [if_neg hc, if_neg (not_or.mpr ⟨hn, hc⟩)]
      obtain ⟨x, xs, hxs⟩ := List.exists_cons_of_ne_nil (List.splitOnP_ne_nil isHiddenBreak l)
      rw [hxs]
      rfl

/-- Text mode has no other effect than to take away empty lines. -/
theorem yamlLines_universalNewlines (cs : List Char) : ∃ first rest rest',
    yamlLines (universalNewlines cs) = first :: rest ∧ yamlLines cs = first :: rest' ∧
      spoken (rest.map shellLine) = spoken (rest'.map shellLine) := by
  fun_induction universalNewlines cs with
  | case1 => exact ⟨[], [], [], rfl, rfl, rfl⟩
  | case2 cs ih =>
    obtain ⟨first, rest, rest', hnew, hold, hsame⟩ := ih
    refine ⟨[], first :: rest, [] :: first :: rest', ?_, ?_, ?_⟩
    · rw [yamlLines_cons, if_pos (Or.inl rfl), hnew]
    · rw [yamlLines_cons, if_pos (Or.inr (by decide)), yamlLines_cons, if_pos (Or.inl rfl), hold]
    · show spoken (shellLine first :: rest.map shellLine) =
        spoken (shellLine first :: rest'.map shellLine)
      unfold spoken at hsame ⊢
      rw [List.filter_cons, List.filter_cons, hsame]
  | case3 c cs _ ih =>
    obtain ⟨first, rest, rest', hnew, hold, hsame⟩ := ih
    by_cases hc : c = '\n' ∨ isHiddenBreak c = true
    · refine ⟨[], first :: rest, first :: rest', ?_, ?_, ?_⟩
      · rw [yamlLines_cons, hnew]
        refine if_pos ?_
        split
        next => exact Or.inl rfl
        next => exact hc
      · rw [yamlLines_cons, if_pos hc, hold]
      · rw [List.map_cons, List.map_cons]
        unfold spoken at hsame ⊢
        rw [List.filter_cons, List.filter_cons, hsame]
    · have hcr : c ≠ '\r' := by
        rintro rfl
        exact hc (Or.inr (by decide))
      refine ⟨c :: first, rest, rest', ?_, ?_, hsame⟩
      · rw [if_neg hcr, yamlLines_cons, if_neg hc, hnew]
        rfl
      · rw [yamlLines_cons, if_neg hc, hold]
        rfl

/-- **What YAML reads in text mode** says what the shell's lines do. -/
theorem inTextMode_spoken {text : String} {out : List Assignment} (hquiet : Quiet text.toList)
    (h : awk (shellLines text.toList) = some out) :
    spoken ((yamlLines (inTextMode text).toList).map shellLine) =
      spoken ((shellLines text.toList).map shellLine) := by
  obtain ⟨first, rest, rest', hnew, hold, hsame⟩ := yamlLines_universalNewlines text.toList
  rw [← yamlLines_spoken hquiet h, inTextMode, String.toList_ofList, hnew, hold, List.map_cons,
    List.map_cons]
  unfold spoken at hsame ⊢
  rw [List.filter_cons, List.filter_cons, hsame]

end TradeDesk.RuleFile
