import TradeDesk.Research.Docs
import Mathlib.Data.List.DropRight

/-!
# Compare-and-swap on the stamp

Clients read the candidates document and replace it, passing the `Last
pass:` line they read. The line is the whole comparison, so what a
successful replace knows is that the document carries the line it read: if
others wrote in between, the last of them wrote that line too. A writer
that carries the line forward is not noticed.
-/

namespace TradeDesk.Research

/-! ## Clients -/

abbrev Client := ℕ

/-- What happened to the document: a client read it and saw this line,
replaced it, replaced it but for the row of `artifacts`, or was refused. -/
inductive DocEvent where
  | read (c : Client) (seen : Option String)
  | replaced (c : Client) (body : List Char)
  | unrecorded (c : Client) (body : List Char)
  | refused (c : Client) (body : List Char)
deriving DecidableEq, Repr

/-- The documents, the line each client holds from its last read, and what
happened so far. -/
structure Clients where
  docs : DocStore
  held : Client → Option String
  log : List DocEvent

/-- A client reads, or replaces what it read; the store takes the row of
`artifacts` or does not. -/
inductive DocAct where
  | read (c : Client)
  | replace (c : Client) (body : List Char) (recorded : Bool)

def candidatesPath : String := "candidates.md"

/-- The line the document carries. -/
def DocStore.stamp (s : DocStore) : Option String := lastPass (s.text candidatesPath)

def Clients.read (w : Clients) (c : Client) : Clients :=
  let seen := w.docs.stamp
  { w with held := fun x => if x = c then seen else w.held x, log := w.log ++ [.read c seen] }

/-- What is logged of a replace. -/
def eventOf (c : Client) (body : List Char) : Except DocError DocWrite → DocEvent
  | .ok _ => .replaced c body
  | .error .store => .unrecorded c body
  | .error _ => .refused c body

/-- A client that has read a line replaces the document, naming it. -/
def Clients.replace (w : Clients) (c : Client) (body : List Char) (recorded : Bool) : Clients :=
  match w.held c with
  | none => w
  | some seen =>
    let r := w.docs.replace .candidates body none (some seen) recorded
    { w with docs := r.1, log := w.log ++ [eventOf c body r.2] }

def Clients.act (w : Clients) : DocAct → Clients
  | .read c => w.read c
  | .replace c body recorded => w.replace c body recorded

/-- Nobody has read yet. -/
def Clients.opening (docs : DocStore) : Clients := ⟨docs, fun _ => none, []⟩

def Clients.run (docs : DocStore) (acts : List DocAct) : Clients := acts.foldl Clients.act (.opening docs)

/-! ## Reading the log -/

def DocEvent.IsRead (c : Client) : DocEvent → Prop
  | .read c' _ => c' = c
  | _ => False

/-- The body the event put into the file. -/
def DocEvent.body? : DocEvent → Option (List Char)
  | .replaced _ body | .unrecorded _ body => some body
  | .read _ _ | .refused _ _ => none

def DocEvent.Succeeded : DocEvent → Prop
  | .replaced _ _ => True
  | _ => False

/-- The line of a document written with this body, as it is read back. -/
def stampOf (body : List Char) : Option String := lastPass (universalNewlines (written body))

/-- A client that replaces what it read did so with no other replace in
between. -/
def LosesNoUpdate (log : List DocEvent) : Prop :=
  ∀ before c seen between body after,
    log = before ++ .read c seen :: (between ++ .replaced c body :: after) →
    (∀ e ∈ between, ¬ e.IsRead c) → ∀ e ∈ between, ¬ e.Succeeded

/-- A client that replaces what it read finds the line it read: if others
wrote in between, the last of them wrote the same line. -/
def KeepsStamp (log : List DocEvent) : Prop :=
  ∀ before c seen between body after,
    log = before ++ .read c seen :: (between ++ .replaced c body :: after) →
    (∀ e ∈ between, ¬ e.IsRead c) →
    ∀ last, (between.filterMap DocEvent.body?).getLast? = some last → stampOf last = seen

/-! ## One replace -/

theorem stripChars_eq (cs : List Char) :
    stripChars cs = (cs.dropWhile isSpace).rdropWhile isSpace := rfl

/-- Stripping twice is stripping once. -/
theorem stripChars_idem (cs : List Char) : stripChars (stripChars cs) = stripChars cs := by
  have hfront : ((cs.dropWhile isSpace).rdropWhile isSpace).dropWhile isSpace =
      (cs.dropWhile isSpace).rdropWhile isSpace := by
    rw [List.dropWhile_eq_self_iff]
    intro hl
    -- what is left begins as the text without its leading spaces does
    have hpre := List.rdropWhile_prefix isSpace (l := cs.dropWhile isSpace)
    have hlen := lt_of_lt_of_le hl hpre.length_le
    have hnot := List.dropWhile_eq_self_iff.mp (List.dropWhile_idempotent isSpace cs) hlen
    rwa [← hpre.getElem hl] at hnot
  rw [stripChars_eq (stripChars cs), stripChars_eq cs, hfront, List.rdropWhile_idempotent]

theorem strip_lastPass {text : List Char} {s : String} (h : lastPass text = some s) :
    strip s = s := by
  obtain ⟨l, _, rfl⟩ := Option.map_eq_some_iff.mp h
  unfold strip
  rw [String.toList_ofList, stripChars_idem]

/-- A document that carries a line is there. -/
theorem DocStore.exists_of_stamp {s : DocStore} {seen : String} (h : s.stamp = some seen) :
    (s.files candidatesPath).isSome = true := by
  unfold DocStore.stamp DocStore.text at h
  cases hf : s.files candidatesPath with
  | none =>
    rw [hf] at h
    cases h
  | some text => rfl

theorem DocStore.swap_text (s : DocStore) (path : String) (text : List Char) :
    (s.swap path text).text path = universalNewlines text := by
  unfold DocStore.swap DocStore.text DocStore.write
  simp

theorem DocStore.swap_exists (s : DocStore) (path : String) (text : List Char) :
    ((s.swap path text).files path).isSome = true := by
  unfold DocStore.swap DocStore.write
  simp

variable {s : DocStore} {c : Client} {body : List Char} {seen : String} {recorded : Bool}

/-- **What a replace does to the candidates**: nothing, and it is refused, or
the file carries the line expected and then the line of the new body. -/
theorem replace_cases (s : DocStore) (c : Client) (body : List Char) (seen : String)
    (recorded : Bool) :
    let r := s.replace .candidates body none (some seen) recorded
    (r.1 = s ∧ eventOf c body r.2 = .refused c body) ∨
      (Expected s candidatesPath (some seen) ∧ r.1.stamp = stampOf body ∧
        (r.1.files candidatesPath).isSome = true ∧
        (eventOf c body r.2 = .replaced c body ∨ eventOf c body r.2 = .unrecorded c body)) := by
  have hpath : pathFor .candidates none = .ok candidatesPath := rfl
  unfold DocStore.replace
  rw [hpath]
  dsimp only
  cases hv : validate .candidates body none with
  | error message => exact .inl ⟨rfl, rfl⟩
  | ok u =>
    cases u
    dsimp only
    by_cases he : Expected s candidatesPath (some seen)
    · rw [if_pos he]
      refine .inr ⟨he, ?_⟩
      have htext := DocStore.swap_text s candidatesPath (written body)
      have hfile := DocStore.swap_exists s candidatesPath (written body)
      cases recorded with
      | true => exact ⟨congrArg lastPass htext, hfile, .inl rfl⟩
      | false => exact ⟨congrArg lastPass htext, hfile, .inr rfl⟩
    · rw [if_neg he]
      exact .inl ⟨rfl, rfl⟩

/-! ## The log -/

/-- What the client saw, if the event is its read. -/
def DocEvent.seenBy (c : Client) : DocEvent → Option (Option String)
  | .read c' seen => if c' = c then some seen else none
  | _ => none

/-- The line the document carries after these events. -/
def stampAfter (start : Option String) (log : List DocEvent) : Option String :=
  ((log.filterMap DocEvent.body?).getLast?.map stampOf).getD start

/-- The line the client holds after these events. -/
def heldAfter (c : Client) (log : List DocEvent) : Option String :=
  (log.filterMap (DocEvent.seenBy c)).getLast?.join

theorem stampAfter_concat (start : Option String) (log : List DocEvent) (e : DocEvent) :
    stampAfter start (log ++ [e]) = (e.body?.map stampOf).getD (stampAfter start log) := by
  unfold stampAfter
  rw [List.filterMap_append]
  cases hb : e.body? with
  | none => simp [hb]
  | some b => simp [hb]

theorem heldAfter_concat (c : Client) (log : List DocEvent) (e : DocEvent) :
    heldAfter c (log ++ [e]) = (e.seenBy c).getD (heldAfter c log) := by
  unfold heldAfter
  rw [List.filterMap_append]
  cases hb : e.seenBy c with
  | none => simp [hb]
  | some b => simp [hb]

/-- The store and the log agree, and each replace found the line its client
held. -/
structure Faithful (start : Option String) (w : Clients) : Prop where
  stamp : w.docs.stamp = stampAfter start w.log
  held : ∀ c, w.held c = heldAfter c w.log
  line : ∀ c seen, w.held c = some seen → strip seen = seen ∧
    (w.docs.files candidatesPath).isSome = true
  found : ∀ before c body after, w.log = before ++ .replaced c body :: after →
    stampAfter start before = heldAfter c before

variable {w : Clients} {start : Option String}

theorem Faithful.opening (docs : DocStore) : Faithful docs.stamp (.opening docs) where
  stamp := rfl
  held := fun _ => rfl
  line := fun _ _ h => by cases h
  found := fun before _ _ _ h => by cases before <;> cases h

/-- The last event of a list split at an event. -/
private theorem concat_split {log before after : List DocEvent} {e x : DocEvent}
    (h : log ++ [e] = before ++ x :: after) :
    (before = log ∧ x = e ∧ after = []) ∨ ∃ rest, log = before ++ x :: rest := by
  rcases List.eq_nil_or_concat after with rfl | ⟨rest, y, rfl⟩
  · have := List.append_inj' h rfl
    exact .inl ⟨this.1.symm, (List.cons.inj this.2).1.symm, rfl⟩
  · rw [List.concat_eq_append, ← List.cons_append, ← List.append_assoc] at h
    exact .inr ⟨rest, (List.append_inj' h rfl).1⟩

theorem Faithful.read (hw : Faithful start w) (c : Client) : Faithful start (w.read c) := by
  refine ⟨?_, ?_, ?_, ?_⟩
  · unfold Clients.read
    rw [stampAfter_concat]
    exact hw.stamp
  · intro x
    unfold Clients.read
    dsimp only
    rw [heldAfter_concat, DocEvent.seenBy]
    by_cases hx : x = c
    · rw [if_pos hx, if_pos hx.symm]
      rfl
    · rw [if_neg hx, if_neg fun h => hx h.symm]
      exact hw.held x
  · intro x seen hseen
    unfold Clients.read at hseen
    dsimp only at hseen
    split at hseen
    · exact ⟨strip_lastPass hseen, DocStore.exists_of_stamp hseen⟩
    · exact hw.line x seen hseen
  · intro before c' body after h
    rcases concat_split h with ⟨_, hx, _⟩ | ⟨rest, hlog⟩
    · cases hx
    · exact hw.found before c' body rest hlog

theorem Faithful.replace (hw : Faithful start w) (c : Client) (body : List Char)
    (recorded : Bool) : Faithful start (w.replace c body recorded) := by
  unfold Clients.replace
  split
  · exact hw
  next seen hseen =>
    obtain ⟨hstrip, hexists⟩ := hw.line c seen hseen
    rcases replace_cases w.docs c body seen recorded with ⟨hdocs, hev⟩ | ⟨hexp, hstamp, hfile, hev⟩
    · dsimp only
      rw [hdocs, hev]
      refine ⟨?_, ?_, hw.line, ?_⟩
      · rw [stampAfter_concat]
        exact hw.stamp
      · intro x
        rw [heldAfter_concat]
        exact hw.held x
      · intro before c' body' after h
        rcases concat_split h with ⟨_, hx, _⟩ | ⟨rest, hlog⟩
        · cases hx
        · exact hw.found before c' body' rest hlog
    · -- the line expected was there, and the new one is now
      have hfound : stampAfter start w.log = heldAfter c w.log := by
        rw [← hw.stamp, ← hw.held c, hseen]
        have := hexp seen rfl hexists
        rwa [hstrip] at this
      refine ⟨?_, ?_, ?_, ?_⟩
      · rw [stampAfter_concat]
        rcases hev with hev | hev <;> rw [hev] <;> exact hstamp
      · intro x
        rw [heldAfter_concat]
        rcases hev with hev | hev <;> rw [hev] <;> exact hw.held x
      · intro x s hs
        exact ⟨(hw.line x s hs).1, hfile⟩
      · intro before c' body' after h
        rcases concat_split h with ⟨rfl, hx, _⟩ | ⟨rest, hlog⟩
        · rcases hev with hev | hev
          · rw [hev] at hx
            cases hx
            exact hfound
          · rw [hev] at hx
            cases hx
        · exact hw.found before c' body' rest hlog

theorem Clients.run_faithful (docs : DocStore) (acts : List DocAct) :
    Faithful docs.stamp (Clients.run docs acts) := by
  unfold Clients.run
  induction acts using List.reverseRecOn with
  | nil => exact .opening docs
  | append_singleton acts a ih =>
    rw [List.foldl_append]
    cases a with
    | read c => exact ih.read c
    | replace c body recorded => exact ih.replace c body recorded

/-- **A replace finds the line its client read**: whatever the clients do and
in whatever order, if a client's replace succeeds and others wrote the
document since its read, the last of them wrote the very line it had
read. -/
theorem replace_keepsStamp (docs : DocStore) (acts : List DocAct) :
    KeepsStamp (Clients.run docs acts).log := by
  intro before c seen between body after hlog hreads last hlast
  have hfound := (Clients.run_faithful docs acts).found (before ++ .read c seen :: between) c body
    after (by rw [hlog, List.append_assoc, List.cons_append])
  have hnone : between.filterMap (DocEvent.seenBy c) = [] := by
    rw [List.filterMap_eq_nil_iff]
    intro e he
    have := hreads e he
    cases e with
    | read c' s => exact if_neg this
    | _ => rfl
  have hheld : heldAfter c (before ++ .read c seen :: between) = seen := by
    unfold heldAfter
    rw [List.filterMap_append, List.filterMap_cons, DocEvent.seenBy, if_pos rfl, hnone,
      List.getLast?_append]
    rfl
  have hstamp : stampAfter docs.stamp (before ++ .read c seen :: between) = stampOf last := by
    unfold stampAfter
    rw [List.filterMap_append, List.filterMap_cons, DocEvent.body?, List.getLast?_append, hlast]
    rfl
  rw [← hstamp, hfound, hheld]

/-- Where every write gives the document a line no client has read yet, no
update is lost. -/
theorem losesNoUpdate_of_fresh {log : List DocEvent} (hkeeps : KeepsStamp log)
    (hfresh : ∀ before e after b, log = before ++ e :: after → e.body? = some b →
      ∀ c, .read c (stampOf b) ∉ before) : LosesNoUpdate log := by
  intro before c seen between body after hlog hreads e he hsucc
  have hbody : ∃ b, e.body? = some b := by
    cases e with
    | replaced c' b => exact ⟨b, rfl⟩
    | _ => cases hsucc
  obtain ⟨b, hb⟩ := hbody
  have hmem : b ∈ between.filterMap DocEvent.body? := List.mem_filterMap.mpr ⟨e, he, hb⟩
  obtain ⟨last, hlast⟩ := Option.isSome_iff_exists.mp
    (List.getLast?_isSome.mpr (List.ne_nil_of_mem hmem))
  obtain ⟨x, hx, hxl⟩ := List.mem_filterMap.mp (List.mem_of_getLast? hlast)
  obtain ⟨pre, post, rfl⟩ := List.append_of_mem hx
  have hline := hkeeps before c seen _ body after hlog hreads last hlast
  refine hfresh (before ++ .read c seen :: pre) x (post ++ .replaced c body :: after) last ?_ hxl c ?_
  · rw [hlog]
    simp
  · rw [hline]
    exact List.mem_append_right _ List.mem_cons_self

/-- A candidates document with this name under HOT. -/
def candidatesWith (hot : String) : List Char :=
  ("# Research candidates\n\nThis file is never a source for order parameters.\n\n" ++
    "Last pass: 2026-09-07 14:44 ET\n\n## HOT\n\n" ++ hot ++ "\n\n## WATCH\n\n(none)\n").toList

def standingDocs : DocStore where
  files p := if p = candidatesPath then some (candidatesWith "(none)") else none
  artifacts := []

/-- Two passes read the document; each adds a name and carries the line
forward. -/
def carriedForward : List DocAct :=
  [.read 1, .read 2, .replace 1 (candidatesWith "AAA") true, .replace 2 (candidatesWith "BBB") true]

/-- **A lost update**: the second pass replaces the first one's document, and
is told nothing. -/
theorem update_lost : standingDocs.stamp = some "Last pass: 2026-09-07 14:44 ET" ∧
    ¬ LosesNoUpdate (Clients.run standingDocs carriedForward).log := by
  have hlog : (Clients.run standingDocs carriedForward).log =
      [.read 1 (some "Last pass: 2026-09-07 14:44 ET")] ++
        .read 2 (some "Last pass: 2026-09-07 14:44 ET") ::
          ([.replaced 1 (candidatesWith "AAA")] ++ .replaced 2 (candidatesWith "BBB") :: []) := by
    decide +kernel
  refine ⟨by decide +kernel, ?_⟩
  intro h
  refine h _ _ _ _ _ _ hlog (fun e he => ?_) _ List.mem_cons_self trivial
  rw [List.mem_singleton.mp he]
  exact id

end TradeDesk.Research
