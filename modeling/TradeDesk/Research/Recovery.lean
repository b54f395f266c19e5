import TradeDesk.Research.Docs
import Mathlib.Data.List.Induction

/-!
# What is left of a document

A replace checks the body, compares, keeps the file it finds beside it and
only then writes. So after any number of replaces of one document the file
is the last body that got through, the one beside it the body before, and
each has its row.

The file is checked as a body and trusted as a file, which is not quite the
same text: a newline is added to it, and reading it turns every line end
into a newline. Neither takes a line away, moves the first, breaks a banner
or hides a stamp (`validate_written`).
-/

namespace TradeDesk.Research

/-! ## Lines of a text that is read back -/

variable {line cs text body : List Char} {mark : List Char}

/-- The two characters of a line end. -/
def IsCrlf (c : Char) (cs : List Char) : Prop := c = '\r' ∧ ∃ rest, cs = '\n' :: rest

theorem universalNewlines_cons {c : Char} (h : ¬ IsCrlf c cs) : universalNewlines (c :: cs) =
    (if c = '\r' then '\n' else c) :: universalNewlines cs := by
  conv_lhs => unfold universalNewlines
  split
  next heq => cases heq
  next rest heq =>
    obtain ⟨rfl, rfl⟩ := List.cons.inj heq
    exact absurd ⟨rfl, rest, rfl⟩ h
  next c' cs' _ heq =>
    obtain ⟨rfl, rfl⟩ := List.cons.inj heq
    rfl

theorem linesFrom_cons {c : Char} (h : ¬ IsCrlf c cs) : linesFrom line (c :: cs) =
    if isLineBreak c then line.reverse :: linesFrom [] cs else linesFrom (c :: line) cs := by
  conv_lhs => unfold linesFrom
  split
  next heq => cases heq
  next rest heq =>
    obtain ⟨rfl, rfl⟩ := List.cons.inj heq
    exact absurd ⟨rfl, rest, rfl⟩ h
  next c' cs' _ heq =>
    obtain ⟨rfl, rfl⟩ := List.cons.inj heq
    rfl

/-- A text is nothing, begins with both characters of a line end, or does
not. -/
theorem crlfInduction {motive : List Char → Prop} (nil : motive [])
    (crlf : ∀ cs, motive cs → motive ('\r' :: '\n' :: cs))
    (cons : ∀ c cs, ¬ IsCrlf c cs → motive cs → motive (c :: cs)) : ∀ cs, motive cs
  | [] => nil
  | c :: cs => by
    by_cases h : IsCrlf c cs
    · obtain ⟨rfl, rest, rfl⟩ := h
      exact crlf rest (crlfInduction nil crlf cons rest)
    · exact cons c cs h (crlfInduction nil crlf cons cs)

/-- Reading a text back breaks it into the lines it had. -/
theorem linesFrom_universalNewlines (cs : List Char) :
    ∀ line, linesFrom line (universalNewlines cs) = linesFrom line cs := by
  induction cs using crlfInduction with
  | nil => exact fun _ => rfl
  | crlf cs ih =>
    intro line
    show line.reverse :: linesFrom [] (universalNewlines cs) = line.reverse :: linesFrom [] cs
    rw [ih]
  | cons c cs h ih =>
    intro line
    rw [universalNewlines_cons h, linesFrom_cons h]
    by_cases hc : c = '\r'
    · subst hc
      show line.reverse :: linesFrom [] (universalNewlines cs) = line.reverse :: linesFrom [] cs
      rw [ih]
    · rw [if_neg hc, linesFrom_cons fun hcrlf => hc hcrlf.1, ih, ih]

/-- A newline more takes no line away. -/
theorem linesFrom_newline (cs : List Char) :
    ∀ line, linesFrom line cs <+: linesFrom line (cs ++ ['\n']) := by
  induction cs using crlfInduction with
  | nil =>
    intro line
    show (if line.isEmpty then [] else [line.reverse]) <+: [line.reverse]
    split
    · exact List.nil_prefix
    · exact List.prefix_rfl
  | crlf cs ih =>
    intro line
    exact List.prefix_cons_inj _ |>.mpr (ih [])
  | cons c cs h ih =>
    intro line
    by_cases hcrlf : IsCrlf c (cs ++ ['\n'])
    · -- a carriage return at the end: the newline is the rest of its line end
      obtain ⟨rfl, rest, hrest⟩ := hcrlf
      cases cs with
      | nil => exact List.prefix_rfl
      | cons x xs =>
        obtain ⟨rfl, -⟩ := List.cons.inj hrest
        exact absurd ⟨rfl, xs, rfl⟩ h
    · rw [linesFrom_cons h, List.cons_append, linesFrom_cons hcrlf]
      split
      · exact List.prefix_cons_inj _ |>.mpr (ih [])
      · exact ih _

/-! ## What a text holds -/

/-- What begins a text begins it when it is read back. -/
theorem prefix_universalNewlines {b : List Char} : ∀ {text : List Char},
    (∀ c ∈ b, c ≠ '\r') → b <+: text → b <+: universalNewlines text := by
  induction b with
  | nil => exact fun _ _ => List.nil_prefix
  | cons x b ih =>
    intro text hb h
    obtain ⟨rest, rfl⟩ := h
    have hx := hb x List.mem_cons_self
    rw [List.cons_append, universalNewlines_cons fun hcrlf => hx hcrlf.1, if_neg hx]
    exact (List.prefix_cons_inj x).mpr
      (ih (fun c hc => hb c (List.mem_cons_of_mem _ hc)) (List.prefix_append _ _))

/-- A text without carriage returns, on a line or at the start of one, is
still there. -/
theorem infix_universalNewlines {b : List Char} (hb : ∀ c ∈ b, c ≠ '\r') :
    ∀ {text : List Char}, b <:+: text → b <:+: universalNewlines text := by
  intro text
  induction text using crlfInduction with
  | nil => exact fun h => h
  | crlf cs ih =>
    intro h
    rcases List.infix_cons_iff.mp h with h | h
    · cases b with
      | nil => exact List.nil_infix
      | cons x b =>
        obtain ⟨rfl, -⟩ := List.cons_prefix_cons.mp h
        exact absurd rfl (hb _ List.mem_cons_self)
    rcases List.infix_cons_iff.mp h with h | h
    · cases b with
      | nil => exact List.nil_infix
      | cons x b =>
        obtain ⟨rfl, hpre⟩ := List.cons_prefix_cons.mp h
        refine List.IsPrefix.isInfix ((List.prefix_cons_inj _).mpr ?_)
        exact prefix_universalNewlines (fun c hc => hb c (List.mem_cons_of_mem _ hc)) hpre
    · exact List.infix_cons (ih h)
  | cons c cs hcrlf ih =>
    intro h
    rcases List.infix_cons_iff.mp h with h | h
    · exact (prefix_universalNewlines hb h).isInfix
    · rw [universalNewlines_cons hcrlf]
      exact List.infix_cons (ih h)

/-- The first line begins the text, and each other one follows a newline. -/
theorem splitOn_newline (text : List Char) : ∃ first rest, text.splitOn '\n' = first :: rest ∧
    first <+: text ∧ ∀ l ∈ rest, '\n' :: l <:+: text := by
  induction text with
  | nil => exact ⟨[], [], rfl, List.prefix_rfl, fun l hl => by cases hl⟩
  | cons c cs ih =>
    obtain ⟨first, rest, hlines, hfirst, hrest⟩ := ih
    rw [List.splitOn_cons_eq_if_modifyHead, hlines]
    by_cases hc : c = '\n'
    · subst hc
      rw [if_pos (by decide)]
      refine ⟨[], _, rfl, List.nil_prefix, fun l hl => ?_⟩
      rcases List.mem_cons.mp hl with rfl | hl
      · exact ((List.prefix_cons_inj _).mpr hfirst).isInfix
      · exact List.infix_cons (hrest l hl)
    · rw [if_neg (by simpa using hc)]
      exact ⟨c :: first, rest, rfl, (List.prefix_cons_inj _).mpr hfirst,
        fun l hl => List.infix_cons (hrest l hl)⟩

/-- A text that begins without newlines has that on its first line. -/
theorem splitOn_prefix (hmark : '\n' ∉ mark) (rest : List Char) :
    ∃ l ∈ (mark ++ rest).splitOn '\n', mark <+: l := by
  suffices h : ∃ first lines, (mark ++ rest).splitOn '\n' = first :: lines ∧ mark <+: first by
    obtain ⟨first, lines, hlines, hpre⟩ := h
    exact ⟨first, hlines ▸ List.mem_cons_self, hpre⟩
  induction mark with
  | nil =>
    obtain ⟨first, lines, hlines, -⟩ := splitOn_newline rest
    exact ⟨first, lines, hlines, List.nil_prefix⟩
  | cons c mark ih =>
    obtain ⟨first, lines, hlines, hpre⟩ := ih fun h => hmark (List.mem_cons_of_mem _ h)
    have hc : c ≠ '\n' := fun h => hmark (h ▸ List.mem_cons_self)
    rw [List.cons_append, List.splitOn_cons_eq_if_modifyHead, if_neg (by simpa using hc), hlines]
    exact ⟨c :: first, lines, rfl, (List.prefix_cons_inj c).mpr hpre⟩

/-- A line starts with the mark. -/
def Marked (mark text : List Char) : Prop := ∃ l ∈ text.splitOn '\n', mark <+: l

theorem marked_iff (hmark : '\n' ∉ mark) :
    Marked mark text ↔ mark <+: text ∨ '\n' :: mark <:+: text := by
  constructor
  · rintro ⟨l, hl, hpre⟩
    obtain ⟨first, rest, hlines, hfirst, hrest⟩ := splitOn_newline text
    rw [hlines] at hl
    rcases List.mem_cons.mp hl with rfl | hl
    · exact .inl (hpre.trans hfirst)
    · exact .inr (((List.prefix_cons_inj _).mpr hpre).isInfix.trans (hrest l hl))
  · rintro (⟨rest, rfl⟩ | ⟨before, after, rfl⟩)
    · exact splitOn_prefix hmark rest
    · obtain ⟨l, hl, hpre⟩ := splitOn_prefix hmark after
      refine ⟨l, ?_, hpre⟩
      rw [List.append_assoc, List.cons_append, List.splitOn_append_cons_self]
      exact List.mem_append_right _ hl

/-- A stamp is still there when its text is read back. -/
theorem Marked.universalNewlines (hmark : '\n' ∉ mark ∧ '\r' ∉ mark) (h : Marked mark text) :
    Marked mark (universalNewlines text) := by
  have hreturn : ∀ c ∈ mark, c ≠ '\r' := fun c hc heq => hmark.2 (heq ▸ hc)
  rw [marked_iff hmark.1] at h ⊢
  refine h.imp (prefix_universalNewlines hreturn) (infix_universalNewlines fun c hc => ?_)
  rcases List.mem_cons.mp hc with rfl | hc
  · decide
  · exact hreturn c hc

theorem Marked.append (hmark : '\n' ∉ mark) (h : Marked mark text) (rest : List Char) :
    Marked mark (text ++ rest) := by
  rw [marked_iff hmark] at h ⊢
  exact h.imp (fun h => h.trans (List.prefix_append _ _)) fun h =>
    h.trans (List.prefix_append _ _).isInfix

theorem stampLine_isSome {mark : String} :
    (stampLine mark text).isSome = true ↔ Marked mark.toList text := by
  unfold stampLine Marked
  rw [Option.isSome_map, List.find?_isSome]
  simp only [List.isPrefixOf_iff_prefix]

/-! ## A body and the document it becomes -/

variable {kind : DocKind} {d : Option String}

/-- What the checks ask of a text. -/
structure Valid (kind : DocKind) (d : Option String) (text : List Char) : Prop where
  long : (spec kind).minLines < (splitlines text).length
  first : (splitlines text).head?.map stripChars = some ((spec kind).firstLine (d.getD "")).toList
  banners : ∀ b ∈ (spec kind).banners, b.toList <:+: text
  lastPass : (spec kind).needsLastPass = true → Marked "Last pass:".toList text
  verified : (spec kind).needsVerified = true → Marked "Verified as of:".toList text

private theorem refuseUnless_ok {c : Prop} [Decidable c] {message : String} :
    refuseUnless c message = .ok () ↔ c := by
  unfold refuseUnless
  by_cases h : c
  · rw [if_pos h]
    exact ⟨fun _ => h, fun _ => rfl⟩
  · rw [if_neg h]
    exact ⟨fun h => (by cases h), fun hc => absurd hc h⟩

private theorem bind_ok {α : Type} {x : Except String Unit} {f : Unit → Except String α} {a : α} :
    (x >>= f) = .ok a ↔ x = .ok () ∧ f () = .ok a := by
  cases x with
  | error e => exact ⟨fun h => (by cases h), fun h => (by cases h.1)⟩
  | ok u => exact ⟨fun h => ⟨rfl, h⟩, fun h => h.2⟩

theorem missingBanner_eq_none {banners : List String} :
    missingBanner banners text = none ↔ ∀ b ∈ banners, b.toList <:+: text := by
  unfold missingBanner
  rw [List.find?_eq_none]
  simp

theorem validate_ok_iff : validate kind text d = .ok () ↔ Valid kind d text := by
  have hparts : validate kind text d = .ok () ↔
      (spec kind).minLines < (splitlines text).length ∧
      (splitlines text).head?.map stripChars = some ((spec kind).firstLine (d.getD "")).toList ∧
      (∀ b ∈ (spec kind).banners, b.toList <:+: text) ∧
      ((spec kind).needsLastPass = true → (lastPass text).isSome = true) ∧
      ((spec kind).needsVerified = true → (verifiedAsOf text).isSome = true) := by
    unfold validate
    dsimp only
    rw [bind_ok, refuseUnless_ok, bind_ok, refuseUnless_ok, ← missingBanner_eq_none]
    refine and_congr_right fun _ => and_congr_right fun _ => ?_
    cases missingBanner (spec kind).banners text with
    | some b => simp
    | none =>
      dsimp only
      rw [bind_ok, refuseUnless_ok, refuseUnless_ok]
      simp
  rw [hparts]
  unfold lastPass verifiedAsOf
  rw [stampLine_isSome, stampLine_isSome]
  exact ⟨fun ⟨h1, h2, h3, h4, h5⟩ => ⟨h1, h2, h3, h4, h5⟩,
    fun ⟨h1, h2, h3, h4, h5⟩ => ⟨h1, h2, h3, h4, h5⟩⟩

/-- The banners are text on one line. -/
theorem banner_chars (kind : DocKind) :
    ∀ b ∈ (spec kind).banners, ∀ c ∈ b.toList, c ≠ '\r' := by
  have hall : ∀ k : DocKind, ((spec k).banners.all fun b => !b.toList.contains '\r') = true := by
    intro k
    cases k
    all_goals decide
  intro b hb c hc heq
  have hnot := List.all_eq_true.mp (hall kind) b hb
  subst heq
  simp [hc] at hnot

theorem splitlines_universalNewlines (text : List Char) :
    splitlines (universalNewlines text) = splitlines text := linesFrom_universalNewlines text []

/-- A document has the lines of its body, and perhaps an empty one more. -/
theorem splitlines_written (body : List Char) : splitlines body <+: splitlines (written body) := by
  unfold written
  split
  · exact List.prefix_rfl
  · exact linesFrom_newline body []

theorem prefix_written (body : List Char) : body <+: written body := by
  unfold written
  split
  · exact List.prefix_rfl
  · exact List.prefix_append _ _

theorem Marked.written (hmark : '\n' ∉ mark) (h : Marked mark body) : Marked mark (written body) := by
  obtain ⟨rest, hrest⟩ := prefix_written body
  rw [← hrest]
  exact h.append hmark rest

/-- **A body that passes becomes a document that passes**, as it is read. -/
theorem Valid.read (h : Valid kind d body) : Valid kind d (universalNewlines (written body)) where
  long := by
    rw [splitlines_universalNewlines]
    exact lt_of_lt_of_le h.long (splitlines_written body).length_le
  first := by
    rw [splitlines_universalNewlines, ← h.first]
    obtain ⟨rest, hrest⟩ := splitlines_written body
    have hne : splitlines body ≠ [] := by
      intro hnil
      have hlong := h.long
      rw [hnil] at hlong
      exact absurd hlong (Nat.not_lt_zero _)
    rw [← hrest, List.head?_append_of_ne_nil _ hne]
  banners b hb := infix_universalNewlines (banner_chars kind b hb)
    ((h.banners b hb).trans (prefix_written body).isInfix)
  lastPass hneeds := ((h.lastPass hneeds).written (by decide)).universalNewlines (by decide)
  verified hneeds := ((h.verified hneeds).written (by decide)).universalNewlines (by decide)

/-! ## One replace -/

/-- A replace whose writes succeed. -/
structure ReplaceCall where
  body : List Char
  expectLastPass : Option String

variable {s s' : DocStore} {path : String} {call : ReplaceCall} {kind : DocKind} {d : Option String}

def ReplaceCall.run (call : ReplaceCall) (kind : DocKind) (d : Option String) (s : DocStore) :
    DocStore × Except DocError DocWrite :=
  s.replace kind call.body d call.expectLastPass true

/-- **A replace is refused and changes nothing**, or it keeps the file that was
there, writes the body, and has its row. -/
theorem replace_refused_or (kind : DocKind) (d : Option String) (call : ReplaceCall)
    (s : DocStore) :
    (∃ e, call.run kind d s = (s, .error e)) ∨
      ∃ path w, pathFor kind d = .ok path ∧ Valid kind d call.body ∧
        (call.run kind d s).2 = .ok w ∧
        (call.run kind d s).1.files = (s.swap path (written call.body)).files ∧
        (call.run kind d s).1.artifacts.length = s.artifacts.length + 1 := by
  unfold ReplaceCall.run DocStore.replace
  cases hpath : pathFor kind d with
  | error message => exact .inl ⟨_, rfl⟩
  | ok path =>
    cases hvalid : validate kind call.body d with
    | error message => exact .inl ⟨_, rfl⟩
    | ok u =>
      dsimp only
      by_cases hexpect : Expected s path call.expectLastPass
      · rw [if_pos hexpect, if_pos rfl]
        refine .inr ⟨path, _, rfl, validate_ok_iff.mp hvalid, rfl, rfl, ?_⟩
        unfold DocStore.swap DocStore.write
        dsimp only
        rw [List.length_append]
        split
        · rfl
        · rfl
      · rw [if_neg hexpect]
        exact .inl ⟨_, rfl⟩

/-! ## Every run -/

/-- The store after these calls, and the bodies that were written. -/
structure Replaced where
  docs : DocStore
  bodies : List (List Char)

def Replaced.step (kind : DocKind) (d : Option String) (r : Replaced) (call : ReplaceCall) :
    Replaced :=
  match call.run kind d r.docs with
  | (docs, .ok _) => ⟨docs, r.bodies ++ [call.body]⟩
  | (docs, .error _) => ⟨docs, r.bodies⟩

/-- Any number of replaces of one document. -/
def replaceRun (kind : DocKind) (d : Option String) (s : DocStore) (calls : List ReplaceCall) :
    Replaced := calls.foldl (Replaced.step kind d) ⟨s, []⟩

/-- The document after these bodies were written, in a store that had none:
the last is in the file and passes the checks, the one before it is beside
it, and each has a row. -/
structure Recoverable (kind : DocKind) (d : Option String) (path : String) (start s : DocStore)
    (bodies : List (List Char)) : Prop where
  file : s.files path = bodies.getLast?.map written
  passes : (s.files path).isSome = true → validate kind (s.text path) d = .ok ()
  previous : ∀ before last body, bodies = before ++ [last, body] →
    s.files (path ++ ".prev") = some (universalNewlines (written last))
  rows : s.artifacts.length = start.artifacts.length + bodies.length

theorem prev_ne (path : String) : path ++ ".prev" ≠ path := by
  intro h
  have hlen := congrArg String.length h
  rw [String.length_append] at hlen
  have hfive : ".prev".length = 5 := by decide
  omega

/-- **One more body**: the file it finds is kept, and it is in its place. -/
theorem Recoverable.write {start : DocStore} {bodies : List (List Char)} {body : List Char}
    (h : Recoverable kind d path start s bodies) (hvalid : Valid kind d body)
    (hfiles : s'.files = (s.swap path (written body)).files)
    (hrows : s'.artifacts.length = s.artifacts.length + 1) :
    Recoverable kind d path start s' (bodies ++ [body]) where
  file := by
    rw [hfiles, List.getLast?_append]
    unfold DocStore.swap DocStore.write
    simp
  passes _ := by
    have htext : s'.text path = universalNewlines (written body) := by
      unfold DocStore.text
      rw [hfiles]
      unfold DocStore.swap DocStore.write
      simp
    rw [htext]
    exact validate_ok_iff.mpr hvalid.read
  previous before last body' heq := by
    have hlast : bodies = before ++ [last] := by
      have hsplit : before ++ [last, body'] = (before ++ [last]) ++ [body'] := by simp
      exact (List.append_inj' (heq.trans hsplit) rfl).1
    have hfile := h.file
    rw [hlast, List.getLast?_append] at hfile
    have hfile : s.files path = some (written last) := hfile
    rw [hfiles]
    unfold DocStore.swap DocStore.write DocStore.text
    rw [hfile]
    dsimp only
    rw [if_neg (prev_ne path)]
    exact if_pos rfl
  rows := by
    rw [hrows, h.rows, List.length_append]
    rfl

/-- **Documents stay valid and recoverable**: after any replaces of one
document in a store that had none, the file is the last body written and
passes its own checks as it is read, the file beside it is the body before,
there is a row for each; and a replace that is refused changes nothing. -/
theorem replaceRun_recoverable (kind : DocKind) (d : Option String) (start : DocStore)
    (hnone : ∀ path, pathFor kind d = .ok path → start.files path = none)
    (calls : List ReplaceCall) :
    (∀ path, pathFor kind d = .ok path → Recoverable kind d path start
      (replaceRun kind d start calls).docs (replaceRun kind d start calls).bodies) ∧
    ∀ (call : ReplaceCall) (e : DocError),
      (call.run kind d (replaceRun kind d start calls).docs).2 = .error e →
      (call.run kind d (replaceRun kind d start calls).docs).1 =
        (replaceRun kind d start calls).docs := by
  constructor
  · intro path hpath
    induction calls using List.reverseRecOn with
    | nil =>
      refine ⟨hnone path hpath, fun h => ?_, fun before last body heq => ?_, rfl⟩
      · have hstart : start.files path = none := hnone path hpath
        rw [show (replaceRun kind d start []).docs = start from rfl, hstart] at h
        cases h
      · exact absurd heq (by simp [replaceRun])
    | append_singleton calls call ih =>
      have hstep : replaceRun kind d start (calls ++ [call]) =
          (replaceRun kind d start calls).step kind d call := by
        unfold replaceRun
        rw [List.foldl_append]
        rfl
      rw [hstep]
      unfold Replaced.step
      rcases replace_refused_or kind d call (replaceRun kind d start calls).docs with
        ⟨e, hrefused⟩ | ⟨path', w, hpath', hvalid, hok, hfiles, hrows⟩
      · rw [hrefused]
        exact ih
      · obtain rfl := Except.ok.inj (hpath.symm.trans hpath')
        generalize hr : call.run kind d (replaceRun kind d start calls).docs = r at *
        obtain ⟨docs, result⟩ := r
        dsimp only at hok hfiles hrows
        rw [hok]
        exact ih.write hvalid hfiles hrows
  · intro call e he
    rcases replace_refused_or kind d call (replaceRun kind d start calls).docs with
      ⟨e', hrefused⟩ | ⟨path', w, -, -, hok, -, -⟩
    · rw [hrefused]
    · rw [hok] at he
      cases he

/-! ## Two sweeps -/

private def sweepBody (day : String) : List Char :=
  ("# Fallback universe\n\nnever a source for order parameters\r\n\nAssembled: " ++ day ++
    "\r\n```\n```").toList

/-- The second sweep's document is in place and the first one's beside it. -/
theorem replaceRun_recoverable_sweeps :
    let r := replaceRun .universe none ⟨fun _ => none, []⟩
      [⟨sweepBody "2026-09-19", none⟩, ⟨sweepBody "2026-09-26", none⟩]
    Recoverable .universe none "universe.md" ⟨fun _ => none, []⟩ r.docs r.bodies ∧
      r.bodies = [sweepBody "2026-09-19", sweepBody "2026-09-26"] :=
  ⟨(replaceRun_recoverable .universe none ⟨fun _ => none, []⟩ (fun _ _ => rfl) _).1 _ rfl,
    by decide +kernel⟩

end TradeDesk.Research
