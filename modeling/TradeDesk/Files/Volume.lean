import TradeDesk.Lists.Dict
import Mathlib.Data.List.TakeDrop

/-!
# A volume that may lose power

A directory maps names to files, and a file is a number: a rename moves the
number. What a process has done it sees at once; what a power cut leaves is
less. A file's text and mode are safe once it was synced, else they may be
anything. The directory is changed in order and may fall back to any of the
states since it was synced last (`kept`).

`replaceFile` is the usual way to put a new text under a name: write it
under another name, sync it, rename it, sync the directory. It may stop
after any operation. `Sound` says of one name what every directory that may
be left has there; each operation keeps it, and `Sound.replaceFile` is what
one replacement makes of it.
-/

namespace TradeDesk.Files

open TradeDesk.Lists

structure Inode where
  text : List Char
  mode : ℕ
  synced : Bool
deriving DecidableEq, Repr

abbrev Directory := Dict String ℕ

/-- `kept` are the directories a power cut may leave, the present one with
them. -/
structure Volume where
  inodes : List Inode
  dir : Directory
  kept : List Directory

/-- What may be under a name: nothing, or a text and a mode. -/
abbrev Found := Option (List Char × ℕ)

namespace Volume

/-- What a directory has under a name. -/
def found (v : Volume) (d : Directory) (name : String) : Found :=
  ((d.get? name).bind (v.inodes[·]?)).map fun x => (x.text, x.mode)

def alter (v : Volume) (i : ℕ) (f : Inode → Inode) : Volume :=
  { v with inodes := v.inodes.modify i f }

def enter (v : Volume) (d : Directory) : Volume := { v with dir := d, kept := d :: v.kept }

/-- `open` with `O_CREAT` and `O_TRUNC`: the mode is only that of a new
file. -/
def create (v : Volume) (name : String) (mode : ℕ) : ℕ × Volume :=
  match v.dir.get? name with
  | some i => (i, v.alter i fun x => { x with text := [], synced := false })
  | none =>
    let made : Volume := { v with inodes := v.inodes ++ [⟨[], mode, false⟩] }
    (v.inodes.length, made.enter (v.dir.set name v.inodes.length))

/-- `rename`, nothing where there is no such name. -/
def rename (v : Volume) (src dst : String) : Volume :=
  match v.dir.get? src with
  | some i => v.enter ((v.dir.without [src]).set dst i)
  | none => v

def unlink (v : Volume) (name : String) : Volume := v.enter (v.dir.without [name])

/-- The power goes, and `d` is what is left of the directory; a file not
synced may be left as anything. -/
def cut (v : Volume) (d : Directory) (left : ℕ → List Char × ℕ) : Volume where
  inodes := v.inodes.mapIdx fun i x => if x.synced then x else ⟨(left i).1, (left i).2, true⟩
  dir := d
  kept := [d]

end Volume

/-! ## Replacing a file -/

/-- What a writer does with a file it has open, and with names. -/
inductive Op where
  | chmod (i mode : ℕ)
  | append (i : ℕ) (c : Char)
  | sync (i : ℕ)
  | rename (src dst : String)
  | syncDir

def Op.apply (v : Volume) : Op → Volume
  | .chmod i mode => v.alter i fun x => { x with mode, synced := false }
  | .append i c => v.alter i fun x => { x with text := x.text ++ [c], synced := false }
  | .sync i => v.alter i fun x => { x with synced := true }
  | .rename src dst => v.rename src dst
  | .syncDir => { v with kept := [v.dir] }

def applyAll (v : Volume) (ops : List Op) : Volume := ops.foldl Op.apply v

/-- Up to where the new file is whole. -/
def fillOps (i mode : ℕ) (text : List Char) : List Op :=
  Op.chmod i mode :: (text.map (Op.append i) ++ [Op.sync i])

def replaceOps (i mode : ℕ) (text : List Char) (path tmp : String) : List Op :=
  fillOps i mode text ++ [Op.rename tmp path, Op.syncDir]

/-- Puts a text under `path` by way of `tmp`. A `stop` is how many
operations it gets to do. -/
def replaceFile (v : Volume) (path tmp : String) (mode : ℕ) (text : List Char) :
    Option ℕ → Volume
  | some 0 => v
  | some (k + 1) =>
    let (i, v) := v.create tmp mode
    applyAll v ((replaceOps i mode text path tmp).take k)
  | none =>
    let (i, v) := v.create tmp mode
    applyAll v (replaceOps i mode text path tmp)

/-! ## Renames -/

/-- What a directory has after a rename. -/
theorem get?_renamed {d : Directory} {src dst a : String} {i : ℕ} (hi : d.get? src = some i) :
    ((d.without [src]).set dst i).get? a =
      if a = dst then d.get? src else if a = src then none else d.get? a := by
  rw [Dict.get?_set, Dict.get?_without, hi]
  simp only [List.mem_singleton]

/-- A rename keeps each file under one name at most. -/
theorem single_renamed {d : Directory} {src dst : String} {i : ℕ} (hi : d.get? src = some i)
    (h : ∀ a b j, d.get? a = some j → d.get? b = some j → a = b) (a b : String) (j : ℕ)
    (ha : ((d.without [src]).set dst i).get? a = some j)
    (hb : ((d.without [src]).set dst i).get? b = some j) : a = b := by
  rw [get?_renamed hi] at ha hb
  by_cases hadst : a = dst
  · by_cases hbdst : b = dst
    · rw [hadst, hbdst]
    · rw [if_pos hadst] at ha
      rw [if_neg hbdst] at hb
      split at hb
      · cases hb
      next hbsrc => exact absurd (h b src j hb ha) hbsrc
  · rw [if_neg hadst] at ha
    split at ha
    · cases ha
    next hasrc =>
      by_cases hbdst : b = dst
      · rw [if_pos hbdst] at hb
        exact absurd (h a src j ha hb) hasrc
      · rw [if_neg hbdst] at hb
        split at hb
        · cases hb
        · exact h a b j ha hb

theorem bounded_renamed {d : Directory} {src dst : String} {i n : ℕ} (hi : d.get? src = some i)
    (h : ∀ a j, d.get? a = some j → j < n) (a : String) (j : ℕ)
    (ha : ((d.without [src]).set dst i).get? a = some j) : j < n := by
  rw [get?_renamed hi] at ha
  split at ha
  · exact h src j ha
  · split at ha
    · cases ha
    · exact h a j ha

/-! ## New files -/

/-- A name for a new file: its number is the next. -/
theorem bounded_added {d : Directory} {n : ℕ} (h : ∀ a j, d.get? a = some j → j < n) (b : String)
    (a : String) (j : ℕ) (hj : (d.set b n).get? a = some j) : j < n + 1 := by
  rw [Dict.get?_set] at hj
  split at hj
  · obtain rfl := Option.some.inj hj
    exact Nat.lt_succ_self _
  · exact Nat.lt_succ_of_lt (h a j hj)

theorem single_added {d : Directory} {n : ℕ} (hbounded : ∀ a j, d.get? a = some j → j < n)
    (h : ∀ a b j, d.get? a = some j → d.get? b = some j → a = b) (b : String) (a a' : String)
    (j : ℕ) (ha : (d.set b n).get? a = some j) (ha' : (d.set b n).get? a' = some j) :
    a = a' := by
  rw [Dict.get?_set] at ha ha'
  -- the new number is under no name but the new one
  split at ha <;> split at ha'
  next hab hab' => rw [hab, hab']
  next =>
    obtain rfl := Option.some.inj ha
    exact absurd (hbounded a' _ ha') (Nat.lt_irrefl _)
  next =>
    obtain rfl := Option.some.inj ha'
    exact absurd (hbounded a _ ha) (Nat.lt_irrefl _)
  next => exact h a a' j ha ha'

/-! ## What one name holds -/

/-- Under `path` there is, in whatever directory is left, something `P`
allows, and it is safe. The names of `temps` may be opened for writing. -/
structure Sound (temps : List String) (path : String) (P : Found → Prop) (v : Volume) :
    Prop where
  here : v.dir ∈ v.kept
  bounded : ∀ d ∈ v.kept, ∀ a i, d.get? a = some i → i < v.inodes.length
  single : ∀ d ∈ v.kept, ∀ a b i, d.get? a = some i → d.get? b = some i → a = b
  /-- No name that is opened leads to what is safe. -/
  apart : ∀ d ∈ v.kept, ∀ b ∈ temps, ∀ i, d.get? path = some i → v.dir.get? b ≠ some i
  holds : ∀ d ∈ v.kept, (d.get? path = none ∧ P none) ∨
    ∃ i x, d.get? path = some i ∧ v.inodes[i]? = some x ∧ x.synced = true ∧
      P (some (x.text, x.mode))

variable {temps : List String} {path tmp : String} {P Q : Found → Prop} {v : Volume}

namespace Sound

theorem found (h : Sound temps path P v) {d : Directory} (hd : d ∈ v.kept) :
    P (v.found d path) := by
  unfold Volume.found
  rcases h.holds d hd with ⟨hnone, hP⟩ | ⟨i, x, hi, hx, -, hP⟩
  · rw [hnone]
    exact hP
  · rw [hi, Option.bind_some, hx]
    exact hP

theorem mono (h : Sound temps path P v) (hPQ : ∀ x, P x → Q x) : Sound temps path Q v := by
  refine { h with holds := fun d hd => ?_ }
  rcases h.holds d hd with ⟨hnone, hP⟩ | ⟨i, x, hi, hx, hs, hP⟩
  · exact Or.inl ⟨hnone, hPQ _ hP⟩
  · exact Or.inr ⟨i, x, hi, hx, hs, hPQ _ hP⟩

/-- A volume with no files. -/
theorem empty (hP : P none) : Sound temps path P ⟨[], Dict.empty, [Dict.empty]⟩ := by
  have hno : ∀ d : Directory, d ∈ [Dict.empty] → ∀ a, d.get? a = none := by
    intro d hd a
    rw [List.mem_singleton.mp hd]
    exact Dict.get?_empty
  refine ⟨List.mem_cons_self, ?_, ?_, ?_, fun d hd => Or.inl ⟨hno d hd path, hP⟩⟩
  · intro d hd a i hi
    rw [hno d hd a] at hi
    cases hi
  · intro d hd a b i hi
    rw [hno d hd a] at hi
    cases hi
  · intro d hd b _ i hi
    rw [hno d hd path] at hi
    cases hi

/-! ### Files -/

/-- A file open for writing is not the safe one. -/
theorem alter (h : Sound temps path P v) {b : String} {i : ℕ} (hb : b ∈ temps)
    (hi : v.dir.get? b = some i) (f : Inode → Inode) : Sound temps path P (v.alter i f) := by
  refine ⟨h.here, ?_, h.single, h.apart, ?_⟩
  · intro d hd a j hj
    rw [Volume.alter, List.length_modify]
    exact h.bounded d hd a j hj
  · intro d hd
    rcases h.holds d hd with hnone | ⟨j, x, hj, hx, hs, hP⟩
    · exact Or.inl hnone
    · refine Or.inr ⟨j, x, hj, ?_, hs, hP⟩
      have hne : i ≠ j := by
        rintro rfl
        exact h.apart d hd b hb i hj hi
      simp [Volume.alter, hne, hx]

/-! ### Directories -/

/-- A changed directory: its files are old ones, none twice, what is opened
is not what is safe elsewhere, and what it has under `path` is safe. -/
theorem enter (h : Sound temps path P v) {e : Directory} (hpath : path ∉ temps)
    (hbounded : ∀ a i, e.get? a = some i → i < v.inodes.length)
    (hsingle : ∀ a b i, e.get? a = some i → e.get? b = some i → a = b)
    (hold : ∀ b ∈ temps, ∀ i, e.get? b = some i → v.dir.get? b = some i ∨
      ∀ d ∈ v.kept, d.get? path ≠ some i)
    (hPQ : ∀ x, P x → Q x)
    (hholds : (e.get? path = none ∧ Q none) ∨ ∃ i x, e.get? path = some i ∧
      v.inodes[i]? = some x ∧ x.synced = true ∧ Q (some (x.text, x.mode))) :
    Sound temps path Q (v.enter e) := by
  refine ⟨List.mem_cons_self, ?_, ?_, ?_, ?_⟩
  · intro d hd
    rcases List.mem_cons.mp hd with rfl | hd
    · exact hbounded
    · exact h.bounded d hd
  · intro d hd
    rcases List.mem_cons.mp hd with rfl | hd
    · exact hsingle
    · exact h.single d hd
  · intro d hd b hb i hi hbi
    -- in the new directory no file has two names; an older one is kept from what is opened now
    rcases List.mem_cons.mp hd with rfl | hd
    · exact hpath (hsingle path b i hi hbi ▸ hb)
    · rcases hold b hb i hbi with hsame | hnew
      · exact h.apart d hd b hb i hi hsame
      · exact hnew d hd hi
  · intro d hd
    rcases List.mem_cons.mp hd with rfl | hd
    · exact hholds
    · exact (h.mono hPQ).holds d hd

/-- A directory that has under `path` what the last one had. -/
theorem enter_same (h : Sound temps path P v) {e : Directory} (hpath : path ∉ temps)
    (hbounded : ∀ a i, e.get? a = some i → i < v.inodes.length)
    (hsingle : ∀ a b i, e.get? a = some i → e.get? b = some i → a = b)
    (hold : ∀ b ∈ temps, ∀ i, e.get? b = some i → v.dir.get? b = some i ∨
      ∀ d ∈ v.kept, d.get? path ≠ some i)
    (hsame : e.get? path = v.dir.get? path) : Sound temps path P (v.enter e) := by
  apply h.enter hpath hbounded hsingle hold (fun _ hx => hx)
  rw [hsame]
  exact h.holds _ h.here

/-- A new file that no name leads to. -/
theorem grow (h : Sound temps path P v) (x : Inode) :
    Sound temps path P { v with inodes := v.inodes ++ [x] } := by
  refine ⟨h.here, ?_, h.single, h.apart, ?_⟩
  · intro d hd a i hi
    have hlt := h.bounded d hd a i hi
    rw [List.length_append]
    omega
  · intro d hd
    rcases h.holds d hd with hnone | ⟨i, y, hi, hy, hs, hP⟩
    · exact Or.inl hnone
    · refine Or.inr ⟨i, y, hi, ?_, hs, hP⟩
      rw [List.getElem?_append_left (h.bounded d hd path i hi)]
      exact hy

theorem create (h : Sound temps path P v) {b : String} (hb : b ∈ temps) (hpath : path ∉ temps)
    (mode : ℕ) : Sound temps path P (v.create b mode).2 := by
  unfold Volume.create
  split
  next i hi => exact h.alter hb hi _
  next hnone =>
    have hbounded := h.bounded _ h.here
    refine (h.grow _).enter_same hpath ?_ (single_added hbounded (h.single _ h.here) b) ?_ ?_
    · intro a i hi
      rw [List.length_append, List.length_singleton]
      exact bounded_added hbounded b a i hi
    · intro b' _ i hi
      rw [Dict.get?_set] at hi
      split at hi
      · obtain rfl := Option.some.inj hi
        exact Or.inr fun d hd hp => absurd (h.bounded d hd path _ hp) (Nat.lt_irrefl _)
      · exact Or.inl hi
    · rw [Dict.get?_set, if_neg]
      rintro rfl
      exact hpath hb

/-! ### Renames -/

/-- A whole new file takes the place of the old one. -/
theorem rename_in (h : Sound temps path P v) (hpath : path ∉ temps) {i : ℕ} {x : Inode}
    (hi : v.dir.get? tmp = some i) (hx : v.inodes[i]? = some x) (hs : x.synced = true) :
    Sound temps path (fun f => P f ∨ f = some (x.text, x.mode)) (v.rename tmp path) := by
  unfold Volume.rename
  rw [hi]
  refine h.enter hpath (bounded_renamed hi (h.bounded _ h.here))
    (single_renamed hi (h.single _ h.here)) ?_ (fun _ => Or.inl) ?_
  · intro b hb j hj
    rw [get?_renamed hi, if_neg (fun hbp : b = path => hpath (hbp ▸ hb))] at hj
    split at hj
    · cases hj
    · exact Or.inl hj
  · right
    refine ⟨i, x, ?_, hx, hs, Or.inr rfl⟩
    rw [get?_renamed hi, if_pos rfl, hi]

/-- The file is moved to a name that nobody opens. -/
theorem rename_away (h : Sound temps path P v) (hpath : path ∉ temps) {dst : String}
    (hdst : dst ∉ temps) (hne : dst ≠ path) :
    Sound temps path (fun f => P f ∨ f = none) (v.rename path dst) := by
  unfold Volume.rename
  split
  next i hi =>
    refine h.enter hpath (bounded_renamed hi (h.bounded _ h.here))
      (single_renamed hi (h.single _ h.here)) ?_ (fun _ => Or.inl) ?_
    · intro b hb j hj
      rw [get?_renamed hi, if_neg (fun hbd : b = dst => hdst (hbd ▸ hb))] at hj
      split at hj
      · cases hj
      · exact Or.inl hj
    · left
      refine ⟨?_, Or.inr rfl⟩
      rw [get?_renamed hi, if_neg (Ne.symm hne), if_pos rfl]
  next => exact h.mono fun _ => Or.inl

/-- Other files are moved. -/
theorem rename_other (h : Sound temps path P v) (hpath : path ∉ temps) {src dst : String}
    (hsrc : src ≠ path) (hdst : dst ∉ temps) (hne : dst ≠ path) :
    Sound temps path P (v.rename src dst) := by
  unfold Volume.rename
  split
  next i hi =>
    refine h.enter_same hpath (bounded_renamed hi (h.bounded _ h.here))
      (single_renamed hi (h.single _ h.here)) ?_ ?_
    · intro b hb j hj
      rw [get?_renamed hi, if_neg (fun hbd : b = dst => hdst (hbd ▸ hb))] at hj
      split at hj
      · cases hj
      · exact Or.inl hj
    · rw [get?_renamed hi, if_neg (Ne.symm hne), if_neg (Ne.symm hsrc)]
  next => exact h

theorem unlink (h : Sound temps path P v) (hpath : path ∉ temps) {name : String}
    (hne : name ≠ path) : Sound temps path P (v.unlink name) := by
  have hget : ∀ a i, (v.dir.without [name]).get? a = some i → v.dir.get? a = some i := by
    intro a i hi
    rw [Dict.get?_without] at hi
    split at hi
    · cases hi
    · exact hi
  apply h.enter_same hpath
  · exact fun a i hi => h.bounded _ h.here a i (hget a i hi)
  · exact fun a b i hi hi' => h.single _ h.here a b i (hget a i hi) (hget b i hi')
  · exact fun b _ i hi => Or.inl (hget b i hi)
  · rw [Dict.get?_without, if_neg]
    simpa using Ne.symm hne

/-! ### Power -/

/-- Once the directory is synced, only what is there now may be left. -/
theorem syncDir (h : Sound temps path P v) (hQ : Q (v.found v.dir path)) :
    Sound temps path Q (Op.syncDir.apply v) := by
  refine ⟨List.mem_cons_self, ?_, ?_, ?_, ?_⟩
  · intro d hd
    obtain rfl := List.mem_singleton.mp hd
    exact h.bounded _ h.here
  · intro d hd
    obtain rfl := List.mem_singleton.mp hd
    exact h.single _ h.here
  · intro d hd
    obtain rfl := List.mem_singleton.mp hd
    exact h.apart _ h.here
  · intro d hd
    obtain rfl := List.mem_singleton.mp hd
    unfold Volume.found at hQ
    rcases h.holds _ h.here with ⟨hnone, -⟩ | ⟨i, x, hi, hx, hs, -⟩
    · left
      rw [hnone] at hQ
      exact ⟨hnone, hQ⟩
    · right
      rw [hi, Option.bind_some, hx] at hQ
      exact ⟨i, x, hi, hx, hs, hQ⟩

/-- A power cut leaves what is safe. -/
theorem cut (h : Sound temps path P v) (hpath : path ∉ temps) {d : Directory} (hd : d ∈ v.kept)
    (left : ℕ → List Char × ℕ) : Sound temps path P (v.cut d left) := by
  have honly : ∀ e ∈ (v.cut d left).kept, e = d := fun e he => List.mem_singleton.mp he
  refine ⟨List.mem_cons_self, ?_, ?_, ?_, ?_⟩
  · intro e he a i hi
    rw [Volume.cut, List.length_mapIdx]
    exact h.bounded d hd a i (honly e he ▸ hi)
  · intro e he
    rw [honly e he]
    exact h.single d hd
  · intro e he b hb i hi hbi
    rw [honly e he] at hi
    exact hpath (h.single d hd path b i hi hbi ▸ hb)
  · intro e he
    rw [honly e he]
    rcases h.holds d hd with hnone | ⟨i, x, hi, hx, hs, hP⟩
    · exact Or.inl hnone
    · refine Or.inr ⟨i, x, hi, ?_, hs, hP⟩
      simp [Volume.cut, hx, hs]

end Sound

/-! ## One replacement -/

/-- An operation on one open file. -/
def Op.on (i : ℕ) : Op → Prop
  | .chmod j _ => j = i
  | .append j _ => j = i
  | .sync j => j = i
  | .rename _ _ => False
  | .syncDir => False

theorem Op.on_apply {i : ℕ} {op : Op} (h : op.on i) (v : Volume) :
    ∃ f, op.apply v = v.alter i f := by
  cases op with
  | chmod j mode => exact ⟨_, congrArg (v.alter · _) h⟩
  | append j c => exact ⟨_, congrArg (v.alter · _) h⟩
  | sync j => exact ⟨_, congrArg (v.alter · _) h⟩
  | rename src dst => exact h.elim
  | syncDir => exact h.elim

theorem fillOps_on (i mode : ℕ) (text : List Char) : ∀ op ∈ fillOps i mode text, op.on i := by
  intro op hop
  unfold fillOps at hop
  rcases List.mem_cons.mp hop with rfl | hop
  · exact rfl
  · rcases List.mem_append.mp hop with hop | hop
    · obtain ⟨c, -, rfl⟩ := List.mem_map.mp hop
      exact rfl
    · obtain rfl := List.mem_singleton.mp hop
      exact rfl

theorem taken_on (i mode : ℕ) (text : List Char) (k : ℕ) :
    ∀ op ∈ (fillOps i mode text).take k, op.on i :=
  fun op hop => fillOps_on i mode text op (List.mem_of_mem_take hop)

/-- While a file is filled nothing else changes. -/
theorem Sound.fill {ops : List Op} {i : ℕ} (h : Sound temps path P v) (htmp : tmp ∈ temps)
    (hi : v.dir.get? tmp = some i) (hops : ∀ op ∈ ops, op.on i) :
    Sound temps path P (applyAll v ops) ∧ (applyAll v ops).dir.get? tmp = some i := by
  induction ops generalizing v with
  | nil => exact ⟨h, hi⟩
  | cons op ops ih =>
    obtain ⟨f, hf⟩ := Op.on_apply (hops op List.mem_cons_self) v
    have hstep : applyAll v (op :: ops) = applyAll (v.alter i f) ops := by
      rw [← hf]
      rfl
    rw [hstep]
    exact ih (h.alter htmp hi f) hi fun op hop => hops op (List.mem_cons_of_mem _ hop)

private theorem append_all {i : ℕ} {x : Inode} (text : List Char) (hx : v.inodes[i]? = some x)
    (hs : x.synced = false) :
    (applyAll v (text.map (Op.append i))).inodes[i]? =
      some { x with text := x.text ++ text } := by
  induction text generalizing v x with
  | nil => simp [applyAll, hx]
  | cons c text ih =>
    rw [List.map_cons]
    have hstep : (Op.append i c |>.apply v).inodes[i]? =
        some { x with text := x.text ++ [c] } := by
      simp [Op.apply, Volume.alter, hx, hs]
    have hrest := ih hstep hs
    rw [List.append_assoc] at hrest
    exact hrest

/-- A filled file has the whole text, the mode it was given, and is safe. -/
theorem filled {i : ℕ} {x : Inode} (hx : v.inodes[i]? = some x) (mode : ℕ)
    (text : List Char) :
    (applyAll v (fillOps i mode text)).inodes[i]? = some ⟨x.text ++ text, mode, true⟩ := by
  have hchmod : (Op.chmod i mode |>.apply v).inodes[i]? = some ⟨x.text, mode, false⟩ := by
    simp [Op.apply, Volume.alter, hx]
  have htext := append_all text hchmod rfl
  have hops : applyAll v (fillOps i mode text) = Op.apply
      (applyAll ((Op.chmod i mode).apply v) (text.map (Op.append i))) (Op.sync i) := by
    unfold applyAll fillOps
    rw [List.foldl_cons, List.foldl_append]
    rfl
  rw [hops]
  generalize applyAll ((Op.chmod i mode).apply v) (text.map (Op.append i)) = w at htext
  simp [Op.apply, Volume.alter, htext]

/-- The file that is opened is empty and under its name. -/
theorem create_spec (h : Sound temps path P v) (tmp : String) (mode : ℕ) :
    (v.create tmp mode).2.dir.get? tmp = some (v.create tmp mode).1 ∧
      ∃ x, (v.create tmp mode).2.inodes[(v.create tmp mode).1]? = some x ∧ x.text = [] := by
  unfold Volume.create
  split
  next i hi =>
    obtain ⟨x, hx⟩ : ∃ x, v.inodes[i]? = some x :=
      ⟨_, List.getElem?_eq_getElem (h.bounded _ h.here tmp i hi)⟩
    exact ⟨hi, { x with text := [], synced := false }, by simp [Volume.alter, hx], rfl⟩
  next hnone =>
    refine ⟨?_, ⟨[], mode, false⟩, ?_, rfl⟩
    · simp [Volume.enter]
    · simp [Volume.enter]

/-- How far a replacement got: not begun, some way into the new file, renamed,
or done. -/
theorem replaceFile_cases (v : Volume) (path tmp : String) (mode : ℕ) (text : List Char)
    (stop : Option ℕ) :
    (stop ≠ none ∧ (replaceFile v path tmp mode text stop = v ∨
      (∃ k, replaceFile v path tmp mode text stop = applyAll (v.create tmp mode).2
        ((fillOps (v.create tmp mode).1 mode text).take k)) ∨
      replaceFile v path tmp mode text stop = (applyAll (v.create tmp mode).2
        (fillOps (v.create tmp mode).1 mode text)).rename tmp path)) ∨
    replaceFile v path tmp mode text stop = Op.syncDir.apply ((applyAll (v.create tmp mode).2
      (fillOps (v.create tmp mode).1 mode text)).rename tmp path) := by
  have hall : applyAll (v.create tmp mode).2 (replaceOps (v.create tmp mode).1 mode text path tmp) =
      Op.syncDir.apply ((applyAll (v.create tmp mode).2
        (fillOps (v.create tmp mode).1 mode text)).rename tmp path) := by
    unfold applyAll replaceOps
    rw [List.foldl_append]
    rfl
  cases stop with
  | none => exact Or.inr hall
  | some k =>
    cases k with
    | zero => exact Or.inl ⟨by simp, Or.inl rfl⟩
    | succ k =>
      -- `n` operations fill the file, one renames it, and the last syncs the directory
      generalize hn : (fillOps (v.create tmp mode).1 mode text).length = n
      rcases Nat.lt_or_ge n k with hlt | hle
      · by_cases hone : k = n + 1
        · refine Or.inl ⟨by simp, Or.inr (Or.inr ?_)⟩
          have htake : (replaceOps (v.create tmp mode).1 mode text path tmp).take k =
              fillOps (v.create tmp mode).1 mode text ++ [Op.rename tmp path] := by
            unfold replaceOps
            rw [List.take_append, hn, hone, Nat.add_sub_cancel_left,
              List.take_of_length_le (by omega)]
            rfl
          unfold replaceFile applyAll
          dsimp only
          rw [htake, List.foldl_append]
          rfl
        · right
          have htake : (replaceOps (v.create tmp mode).1 mode text path tmp).take k =
              replaceOps (v.create tmp mode).1 mode text path tmp := by
            apply List.take_of_length_le
            unfold replaceOps
            rw [List.length_append, hn]
            simp only [List.length_cons, List.length_nil]
            omega
          unfold replaceFile
          dsimp only
          rw [htake, hall]
      · refine Or.inl ⟨by simp, Or.inr (Or.inl ⟨k, ?_⟩)⟩
        unfold replaceFile replaceOps
        dsimp only
        rw [List.take_append_of_le_length (by omega)]

/-- **One replacement.** Stopped anywhere, it leaves what was there or the
whole new text, whatever a power cut does next; once it has returned, only
the new text. -/
theorem Sound.replaceFile (h : Sound temps path P v) (htmp : tmp ∈ temps) (hpath : path ∉ temps)
    (mode : ℕ) (text : List Char) (stop : Option ℕ) :
    Sound temps path (fun f => (stop ≠ none ∧ P f) ∨ f = some (text, mode))
      (replaceFile v path tmp mode text stop) := by
  have hmade := h.create htmp hpath mode
  obtain ⟨hi, x, hx, hempty⟩ := create_spec h tmp mode
  have hwhole := filled hx mode text
  rw [hempty, List.nil_append] at hwhole
  obtain ⟨hfill, hfd⟩ := hmade.fill htmp hi (fillOps_on _ mode text)
  have hin := hfill.rename_in hpath hfd hwhole rfl
  rcases replaceFile_cases v path tmp mode text stop with ⟨hstop, heq | ⟨k, heq⟩ | heq⟩ | heq
  · rw [heq]
    exact h.mono fun f hf => Or.inl ⟨hstop, hf⟩
  · rw [heq]
    -- a part of the text is only in the temporary file
    have hpart := (hmade.fill htmp hi (taken_on _ mode text k)).1
    exact hpart.mono fun f hf => Or.inl ⟨hstop, hf⟩
  · rw [heq]
    exact hin.mono fun f hf => hf.imp (fun hf => ⟨hstop, hf⟩) id
  · rw [heq]
    refine hin.syncDir (Or.inr ?_)
    unfold Volume.found Volume.rename
    rw [hfd]
    simp [Volume.enter, hwhole]

/-- Replacing another file leaves this one alone. -/
theorem Sound.replaceOther (h : Sound temps path P v) (htmp : tmp ∈ temps) (hpath : path ∉ temps)
    {other : String} (hother : other ∉ temps) (hne : other ≠ path) (mode : ℕ) (text : List Char)
    (stop : Option ℕ) : Sound temps path P (Files.replaceFile v other tmp mode text stop) := by
  have hmade := h.create htmp hpath mode
  obtain ⟨hi, -⟩ := create_spec h tmp mode
  obtain ⟨hfill, -⟩ := hmade.fill htmp hi (fillOps_on _ mode text)
  have hmoved := hfill.rename_other hpath (fun heq => hpath (heq ▸ htmp)) hother hne
  rcases replaceFile_cases v other tmp mode text stop with ⟨hstop, heq | ⟨k, heq⟩ | heq⟩ | heq
  · rw [heq]
    exact h
  · rw [heq]
    exact (hmade.fill htmp hi (taken_on _ mode text k)).1
  · rw [heq]
    exact hmoved
  · rw [heq]
    exact hmoved.syncDir (hmoved.found hmoved.here)

/-! ## A file nobody touches -/

/-- Each name's file is there, and no file has two names. -/
structure Neat (v : Volume) : Prop where
  bounded : ∀ a i, v.dir.get? a = some i → i < v.inodes.length
  single : ∀ a b i, v.dir.get? a = some i → v.dir.get? b = some i → a = b

/-- What was under a name, and how it was, still is. -/
def Unmoved (name : String) (v w : Volume) : Prop :=
  ∀ i x, v.dir.get? name = some i → v.inodes[i]? = some x →
    w.dir.get? name = some i ∧ w.inodes[i]? = some x

theorem Unmoved.refl (name : String) (v : Volume) : Unmoved name v v := fun _ _ hi hx => ⟨hi, hx⟩

theorem Unmoved.trans {name : String} {u w : Volume} (h : Unmoved name v u)
    (h' : Unmoved name u w) : Unmoved name v w :=
  fun i x hi hx => h' i x (h i x hi hx).1 (h i x hi hx).2

namespace Neat

theorem alter (h : Neat v) {b : String} {i : ℕ} (hi : v.dir.get? b = some i)
    (f : Inode → Inode) : Neat (v.alter i f) ∧ ∀ name, name ≠ b → Unmoved name v (v.alter i f) := by
  refine ⟨⟨fun a j hj => ?_, h.single⟩, fun name hne j x hj hx => ⟨hj, ?_⟩⟩
  · rw [Volume.alter, List.length_modify]
    exact h.bounded a j hj
  · have hij : i ≠ j := by
      rintro rfl
      exact hne (h.single name b i hj hi)
    simp [Volume.alter, hij, hx]

theorem create (h : Neat v) (b : String) (mode : ℕ) : Neat (v.create b mode).2 ∧
    ∀ name, name ≠ b → Unmoved name v (v.create b mode).2 := by
  unfold Volume.create
  split
  next i hi => exact h.alter hi _
  next hnone =>
    refine ⟨⟨fun a i hi => ?_, single_added h.bounded h.single b⟩,
      fun name hne i x hi hx => ⟨?_, ?_⟩⟩
    · show i < (v.inodes ++ [_]).length
      rw [List.length_append, List.length_singleton]
      exact bounded_added h.bounded b a i hi
    · show (v.dir.set b v.inodes.length).get? name = some i
      rw [Dict.get?_set, if_neg hne]
      exact hi
    · show (v.inodes ++ [_])[i]? = some x
      rw [List.getElem?_append_left (h.bounded name i hi)]
      exact hx

theorem rename (h : Neat v) (src dst : String) : Neat (v.rename src dst) ∧
    ∀ name, name ≠ src → name ≠ dst → Unmoved name v (v.rename src dst) := by
  unfold Volume.rename
  split
  next i hi =>
    refine ⟨⟨bounded_renamed hi h.bounded, single_renamed hi h.single⟩, ?_⟩
    intro name hsrc hdst j x hj hx
    refine ⟨?_, hx⟩
    show ((v.dir.without [src]).set dst i).get? name = some j
    rw [get?_renamed hi, if_neg hdst, if_neg hsrc]
    exact hj
  next => exact ⟨h, fun name _ _ => Unmoved.refl name v⟩

/-- A renamed file is what it was. -/
theorem renamed {src : String} {i : ℕ} (hi : v.dir.get? src = some i) (dst : String) :
    (v.rename src dst).dir.get? dst = some i ∧ (v.rename src dst).inodes = v.inodes := by
  unfold Volume.rename
  rw [hi]
  refine ⟨?_, rfl⟩
  show ((v.dir.without [src]).set dst i).get? dst = some i
  rw [get?_renamed hi, if_pos rfl, hi]

theorem unlink (h : Neat v) (b : String) : Neat (v.unlink b) ∧
    ∀ name, name ≠ b → Unmoved name v (v.unlink b) := by
  have hget : ∀ a, (v.unlink b).dir.get? a = if a = b then none else v.dir.get? a := by
    intro a
    show (v.dir.without [b]).get? a = _
    rw [Dict.get?_without]
    simp only [List.mem_singleton]
  have hold : ∀ a i, (v.unlink b).dir.get? a = some i → v.dir.get? a = some i := by
    intro a i hi
    rw [hget] at hi
    split at hi
    · cases hi
    · exact hi
  refine ⟨⟨fun a i hi => h.bounded a i (hold a i hi), fun a a' i hi hi' =>
    h.single a a' i (hold a i hi) (hold a' i hi')⟩, fun name hne i x hi hx => ⟨?_, hx⟩⟩
  rw [hget, if_neg hne]
  exact hi

theorem fill {ops : List Op} {i : ℕ} (h : Neat v) (hi : v.dir.get? tmp = some i)
    (hops : ∀ op ∈ ops, op.on i) : Neat (applyAll v ops) ∧
    ∀ name, name ≠ tmp → Unmoved name v (applyAll v ops) := by
  induction ops generalizing v with
  | nil => exact ⟨h, fun name _ => Unmoved.refl name v⟩
  | cons op ops ih =>
    obtain ⟨f, hf⟩ := Op.on_apply (hops op List.mem_cons_self) v
    have hstep : applyAll v (op :: ops) = applyAll (v.alter i f) ops := by
      rw [← hf]
      rfl
    obtain ⟨hneat, hsame⟩ := h.alter hi f
    obtain ⟨hneat', hsame'⟩ := ih hneat hi fun op hop => hops op (List.mem_cons_of_mem _ hop)
    rw [hstep]
    exact ⟨hneat', fun name hne => (hsame name hne).trans (hsame' name hne)⟩

/-- A replacement touches the file it replaces and its temporary one. -/
theorem replaceFile (h : Neat v) (path tmp : String) (mode : ℕ) (text : List Char)
    (stop : Option ℕ) : Neat (Files.replaceFile v path tmp mode text stop) ∧
    ∀ name, name ≠ path → name ≠ tmp →
      Unmoved name v (Files.replaceFile v path tmp mode text stop) := by
  obtain ⟨hmade, hother⟩ := h.create tmp mode
  have hi : (v.create tmp mode).2.dir.get? tmp = some (v.create tmp mode).1 := by
    unfold Volume.create
    split
    next i hi => exact hi
    next => simp [Volume.enter]
  have hpart : ∀ k, Neat (applyAll (v.create tmp mode).2
      ((fillOps (v.create tmp mode).1 mode text).take k)) ∧ ∀ name, name ≠ tmp → Unmoved name v
        (applyAll (v.create tmp mode).2 ((fillOps (v.create tmp mode).1 mode text).take k)) := by
    intro k
    obtain ⟨hneat, hsame⟩ := hmade.fill hi (taken_on _ mode text k)
    exact ⟨hneat, fun name hne => (hother name hne).trans (hsame name hne)⟩
  obtain ⟨hfilled, hfsame⟩ := hpart (fillOps (v.create tmp mode).1 mode text).length
  rw [List.take_length] at hfilled hfsame
  obtain ⟨hmoved, hmsame⟩ := hfilled.rename tmp path
  rcases replaceFile_cases v path tmp mode text stop with ⟨-, heq | ⟨k, heq⟩ | heq⟩ | heq
  · rw [heq]
    exact ⟨h, fun name _ _ => Unmoved.refl name v⟩
  · rw [heq]
    exact ⟨(hpart k).1, fun name _ hne => (hpart k).2 name hne⟩
  · rw [heq]
    exact ⟨hmoved, fun name hp ht => (hfsame name ht).trans (hmsame name ht hp)⟩
  · rw [heq]
    exact ⟨⟨hmoved.bounded, hmoved.single⟩,
      fun name hp ht => (hfsame name ht).trans (hmsame name ht hp)⟩

end Neat

end TradeDesk.Files
