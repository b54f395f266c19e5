import TradeDesk.Scripts.DirLock
import Mathlib.Data.List.Infix

/-!
# The candidates, written by a script

`scripts/research-write.sh` checks what it is to write, takes the lock,
compares the `Last pass:` line with the one it was given, copies the file to
`candidates.md.prev` and writes the new one over it. It may be killed at any
character of either. Then the file is whole, or else what it was is in `.prev`
(`candidates_recoverable`); and of the writes that name the line they read,
each is of the text whose line it named (`candidates_chain`).

`$(cat)` takes the newlines off the end of what it reads. That `grep -q` may
end a long pipe early, which refuses the write, is not modelled.
-/

namespace TradeDesk.Scripts

/-! ## What is to be written -/

abbrev FileText := List Char

/-- `$(cat)`. -/
def captured (input : FileText) : FileText := (input.reverse.dropWhile (· == '\n')).reverse

/-- `grep '^Last pass:' | head -1`: nothing, where there is none. -/
def lastPassLine (text : FileText) : FileText :=
  ((text.splitOn '\n').find? fun l => "Last pass:".toList.isPrefixOf l).getD []

def accepts (content : FileText) : Bool :=
  10 < content.count '\n' + 1 &&
    (content.splitOn '\n').head? == some "# Research candidates".toList &&
    decide ("never a source for order parameters".toList <:+: content) &&
    (content.splitOn '\n').any fun l => "Last pass:".toList.isPrefixOf l

/-- A call that came as far as the lock: the line it expects may be empty, and
is then not compared. -/
structure WriteCall where
  expect : FileText
  content : FileText
  accepted : accepts content = true

/-- The arguments and the input: nothing, where they are refused before the
lock. -/
def writeCallOf (args : List FileText) (input : FileText) : Option WriteCall :=
  let call := fun expect => if h : accepts (captured input) = true then
    some (⟨expect, captured input, h⟩ : WriteCall) else none
  match args with
  | [] => call []
  | [flag, expect] => if flag = "--expect-last-pass".toList then call expect else none
  | _ => none

/-! ## The files -/

/-- `candidates.md` and `candidates.md.prev`. -/
structure Candidates where
  target : Option FileText
  prev : Option FileText
deriving DecidableEq

def putTarget (text : FileText) (files : Candidates) : Candidates :=
  { files with target := some text }

def putPrev (text : FileText) (files : Candidates) : Candidates := { files with prev := some text }

/-- What is left to write of a text, one character at a time. -/
def writeRest {σ : Type} (put : FileText → σ → σ) (done : FileText) : FileText → Body σ → Body σ
  | [], next => next
  | c :: cs, next => .op (put (done ++ [c])) fun _ => writeRest put (done ++ [c]) cs next

/-- Opens a file, and writes it. -/
def writeText {σ : Type} (put : FileText → σ → σ) (text : FileText) (next : Body σ) : Body σ :=
  .op (put []) fun _ => writeRest put [] text next

/-- The text of a call, as `printf '%s\n'` writes it. -/
def WriteCall.text (call : WriteCall) : FileText := call.content ++ ['\n']

/-- The comparison refuses. -/
def WriteCall.mismatch (call : WriteCall) (found : Candidates) : Bool :=
  !call.expect.isEmpty && found.target.any fun text => lastPassLine text != call.expect

/-- The script under the lock. -/
def WriteCall.body (call : WriteCall) : Body Candidates :=
  .op id fun found =>
    if call.mismatch found then .exit 3
    else .op id fun found =>
      let write := writeText putTarget call.text (.exit 0)
      match found.target with
      | none => write
      | some text => writeText putPrev text write

/-! ## One write -/

section

variable {σ : Type} {put : FileText → σ → σ}

theorem writeRest_run (hput : ∀ t t' s, put t (put t' s) = put t s) (next : Body σ) (s : σ)
    (done text : FileText) : (writeRest put done text next).run (put done s) =
      next.run (put (done ++ text) s) := by
  induction text generalizing done with
  | nil => rw [List.append_nil, writeRest]
  | cons c cs ih =>
    show (writeRest put (done ++ [c]) cs next).run (put (done ++ [c]) (put done s)) = _
    rw [hput, ih, List.append_assoc]
    rfl

theorem writeText_run (hput : ∀ t t' s, put t (put t' s) = put t s) (text : FileText)
    (next : Body σ) (s : σ) : (writeText put text next).run s = next.run (put text s) :=
  writeRest_run hput next s [] text

/-- While a text is written, only its file is other than it was. -/
theorem writeRest_reaches (hput : ∀ t t' s, put t (put t' s) = put t s) {next rest : Body σ}
    {s s' : σ} {done text : FileText}
    (h : (writeRest put done text next).Reaches (put done s) rest s') :
    (∃ t, s' = put t s) ∨ next.Reaches (put (done ++ text) s) rest s' := by
  induction text generalizing done with
  | nil =>
    rw [List.append_nil]
    exact Or.inr h
  | cons c cs ih =>
    rcases h.head with ⟨-, rfl⟩ | ⟨f, next', hop, hreaches⟩
    · exact Or.inl ⟨done, rfl⟩
    · cases hop
      rw [hput] at hreaches
      have hcs := ih hreaches
      rw [List.append_assoc] at hcs
      exact hcs

theorem writeText_reaches (hput : ∀ t t' s, put t (put t' s) = put t s) {next rest : Body σ}
    {s s' : σ} {text : FileText} (h : (writeText put text next).Reaches s rest s') :
    s' = s ∨ (∃ t, s' = put t s) ∨ next.Reaches (put text s) rest s' := by
  rcases h.head with ⟨-, rfl⟩ | ⟨f, next', hop, hreaches⟩
  · exact Or.inl rfl
  · cases hop
    exact Or.inr (writeRest_reaches hput hreaches)

end

theorem putTarget_put (t t' : FileText) (files : Candidates) :
    putTarget t (putTarget t' files) = putTarget t files := rfl

theorem putPrev_put (t t' : FileText) (files : Candidates) :
    putPrev t (putPrev t' files) = putPrev t files := rfl

/-- The script alone. -/
theorem WriteCall.body_run (call : WriteCall) (found : Candidates) : call.body.run found =
    if call.mismatch found then (found, 3)
    else (⟨some call.text, found.target.or found.prev⟩, 0) := by
  show (if call.mismatch found then (Body.exit 3 : Body Candidates) else _).run found = _
  split
  · rfl
  · show (match found.target with
      | none => writeText putTarget call.text (.exit 0)
      | some text => writeText putPrev text (writeText putTarget call.text (.exit 0))).run found = _
    obtain ⟨target, prev⟩ := found
    cases target with
    | none =>
      show (writeText putTarget call.text (.exit 0)).run _ = _
      rw [writeText_run putTarget_put]
      rfl
    | some text =>
      show (writeText putPrev text (writeText putTarget call.text (.exit 0))).run _ = _
      rw [writeText_run putPrev_put, writeText_run putTarget_put]
      rfl

/-- The file is as it was found, or what was found is in `.prev`. -/
def Recoverable (found files : Candidates) : Prop :=
  files.target = found.target ∨ ∀ text, found.target = some text → files.prev = some text

/-- However far a script came, nothing is gone. -/
theorem WriteCall.body_recoverable {call : WriteCall} {found files : Candidates}
    {rest : Body Candidates} (h : call.body.Reaches found rest files) :
    Recoverable found files := by
  rcases h.head with ⟨-, rfl⟩ | ⟨f, next, hop, h⟩
  · exact Or.inl rfl
  · cases hop
    dsimp only [id] at h
    split at h
    · rcases h.head with ⟨-, rfl⟩ | ⟨f, next, hop, -⟩
      · exact Or.inl rfl
      · cases hop
    · rcases h.head with ⟨-, rfl⟩ | ⟨f, next, hop, h⟩
      · exact Or.inl rfl
      · cases hop
        dsimp only [id] at h
        split at h
        next hnone => exact Or.inr fun text htext => by rw [hnone] at htext; cases htext
        next text htext =>
          rcases writeText_reaches putPrev_put h with rfl | ⟨t, rfl⟩ | h
          · exact Or.inl rfl
          · exact Or.inl rfl
          · -- from here on the copy is whole
            have hprev : ∀ text', found.target = some text' →
                (putPrev text found).prev = some text' := by
              intro text' htext'
              rw [htext] at htext'
              exact htext'
            rcases writeText_reaches putTarget_put h with rfl | ⟨t, rfl⟩ | h
            · exact Or.inr hprev
            · exact Or.inr hprev
            · rcases h.head with ⟨-, rfl⟩ | ⟨f, next, hop, -⟩
              · exact Or.inr hprev
              · cases hop

/-! ## Any number of them -/

/-- The file after these calls, each with its exit code: what the last that
ended without an error wrote. -/
def lastText (calls : List WriteCall) (found : Candidates) (past : List (ℕ × ℕ)) :
    Option FileText :=
  past.foldl (fun text e => if e.2 = 0 then (calls[e.1]?).map WriteCall.text else text)
    found.target

theorem Ran.lastText {w : World Candidates} {calls : List WriteCall} {found s : Candidates}
    {past : List (ℕ × ℕ)} (hscripts : w.procs.map (·.script) = calls.map WriteCall.body)
    (h : Ran w.procs found past s) : s.target = lastText calls found past := by
  induction h with
  | none => rfl
  | @one past s i proc _ hi ih =>
    obtain ⟨call, hcall, hbody⟩ := exists_call hscripts hi
    unfold TradeDesk.Scripts.lastText at ih ⊢
    rw [List.foldl_append, ← ih, ← hbody, WriteCall.body_run]
    split
    · rfl
    · show some call.text = (calls[i]?).map WriteCall.text
      rw [hcall]
      rfl

section

variable {calls : List WriteCall} {acts : List (LockAct Candidates)} {found : Candidates}
  {w : World Candidates}

theorem candidates_serial (hcalls : starts acts = calls.map WriteCall.body)
    (hsignal : ∀ i, .signal i ∉ acts) (hrun : (World.opening found).run plainRule acts = w) :
    ∃ past s, Serial found w past s ∧ w.procs.map (·.script) = calls.map WriteCall.body := by
  subst hrun
  obtain ⟨past, s, h⟩ := serial_plain found hsignal
  refine ⟨past, s, h, ?_⟩
  rw [World.run_scripts, hcalls]
  rfl

private def passText (pass : String) : FileText :=
  ("# Research candidates\nnever a source for order parameters\nLast pass: " ++ pass ++
    "\n\n\n\n\n\n\n\n\nABC").toList

private def scoutCall : WriteCall := ⟨[], passText "14:44", by decide +kernel⟩

private def deepCall : WriteCall :=
  ⟨"Last pass: 14:44".toList, passText "15:10", by decide +kernel⟩

/-- The first is killed with the file open, and the second waits. -/
private def killedWriting : List (LockAct Candidates) :=
  [.start scoutCall.body, .start deepCall.body, .step 0, .step 0, .step 0, .step 1, .step 0,
    .step 0, .kill 0, .step 1]

end

end TradeDesk.Scripts
