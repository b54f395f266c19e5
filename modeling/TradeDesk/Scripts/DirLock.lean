import Mathlib.Data.List.Nodup
import Mathlib.Tactic.Common

/-!
# A lock that is a directory

`scripts/lib-lock.sh`: `mkdir` takes the lock, `rmdir` gives it back, and a
script that is killed leaves the directory behind. Every script here runs one
operation at a time, in any order with the others, and may be killed between
any two.

Two ways of `lib-lock.sh` to lose the lock are part of the model. Its trap on
INT and TERM gives the lock back and the script goes on without it (`bare`);
and a lock that is found old is broken by an `rmdir` that comes after the look
at its age, and so may hit the next holder's directory. In a run without these
two (`calm`) the scripts inside are as if each had run alone, one after another
(`Serial`): `serial_run`, by one lemma about each of the five things a process
can do (`Move`).

A command that fails for want of space or rights is not modelled, nor is a
signal that a command gets beside its shell.
-/

namespace TradeDesk.Scripts

variable {σ : Type}

/-! ## Scripts -/

/-- What a script does once it has the lock, one operation on the files at a
time; what comes next may depend on the files as it found them. -/
inductive Body (σ : Type) where
  | exit (code : ℕ)
  | op (f : σ → σ) (next : σ → Body σ)

/-- The script alone: the files it leaves, and its exit code. -/
def Body.run : Body σ → σ → σ × ℕ
  | .exit code, s => (s, code)
  | .op f next, s => (next s).run (f s)

/-- What the callers of `acquire_lock` pass it. -/
structure LockRule where
  timeout : ℕ
  maxAge : ℕ

/-- Where a process is. -/
inductive Phase (σ : Type) where
  /-- Before `mkdir`, after so many seconds. -/
  | trying (waited : ℕ)
  /-- `mkdir` failed. -/
  | found (waited : ℕ)
  /-- `_lock_older_than`, after its `stat`. -/
  | dated (waited mtime : ℕ)
  /-- Before the `rmdir` that breaks a lock. -/
  | old (waited : ℕ)
  /-- Before the look at the timeout. -/
  | late (waited : ℕ)
  /-- After `mkdir`, before `trap`. -/
  | entered
  | inside (rest : Body σ)
  /-- After the trap of a signal: the lock is given back. -/
  | bare (rest : Body σ)
  /-- Before the trap of the exit. -/
  | leaving (code : ℕ)
  | ended (code : ℕ)
  /-- `acquire_lock` timed out, and the script exited. -/
  | refused
  | killed

structure Proc (σ : Type) where
  script : Body σ
  phase : Phase σ

/-- The files under the lock, the lock's directory with the time it was made,
and the clock. -/
structure Shared (σ : Type) where
  files : σ
  lockdir : Option ℕ
  now : ℕ

structure World (σ : Type) where
  shared : Shared σ
  procs : List (Proc σ)

/-- `release_lock`, of a script that has the lock. -/
def releaseLock (s : Shared σ) : Shared σ := { s with lockdir := none }

/-- The next operation of a process: the loop of `acquire_lock`, the script's
own, and the trap of its exit. -/
def Phase.next (rule : LockRule) (script : Body σ) : Phase σ → Shared σ → Phase σ × Shared σ
  | .trying waited, s => match s.lockdir with
    | none => (.entered, { s with lockdir := some s.now })
    | some _ => (.found waited, s)
  | .found waited, s =>
    if rule.maxAge = 0 then (.late waited, s)
    else match s.lockdir with
      | none => (.late waited, s)
      | some mtime => (.dated waited mtime, s)
  | .dated waited mtime, s =>
    if mtime + rule.maxAge ≤ s.now then (.old waited, s) else (.late waited, s)
  | .old waited, s => (.trying waited, releaseLock s)
  | .late waited, s =>
    if rule.timeout ≤ waited then (.refused, s) else (.trying (waited + 1), s)
  | .entered, s => (.inside script, s)
  | .inside (.exit code), s => (.leaving code, s)
  | .inside (.op f next), s => (.inside (next s.files), { s with files := f s.files })
  | .bare (.exit code), s => (.ended code, s)
  | .bare (.op f next), s => (.bare (next s.files), { s with files := f s.files })
  | .leaving code, s => (.ended code, releaseLock s)
  | .ended code, s => (.ended code, s)
  | .refused, s => (.refused, s)
  | .killed, s => (.killed, s)

/-- INT or TERM: the trap gives the lock back and the script goes on; before
there is a trap it ends the script, and after the end nothing. -/
def Phase.signalled : Phase σ → Shared σ → Phase σ × Shared σ
  | .inside rest, s => (.bare rest, releaseLock s)
  | .bare rest, s => (.bare rest, s)
  | .leaving code, s => (.ended code, releaseLock s)
  | .ended code, s => (.ended code, s)
  | .refused, s => (.refused, s)
  | _, s => (.killed, s)

/-- KILL, or the end of the container: no trap runs. -/
def Phase.kill : Phase σ → Phase σ
  | .ended code => .ended code
  | .refused => .refused
  | _ => .killed

/-! ## Runs -/

/-- A script is called, a process takes a step or gets a signal, the clock is
set. -/
inductive LockAct (σ : Type) where
  | start (script : Body σ)
  | step (i : ℕ)
  | signal (i : ℕ)
  | kill (i : ℕ)
  | clock (now : ℕ)

/-- What an act makes of the process it is for. -/
def Phase.act (rule : LockRule) (script : Body σ) (phase : Phase σ) (s : Shared σ) :
    LockAct σ → Phase σ × Shared σ
  | .step _ => phase.next rule script s
  | .signal _ => phase.signalled s
  | .kill _ => (phase.kill, s)
  | .start _ | .clock _ => (phase, s)

/-- An act on one process. -/
def World.on (rule : LockRule) (w : World σ) (i : ℕ) (a : LockAct σ) : World σ :=
  match w.procs[i]? with
  | none => w
  | some proc =>
    let r := proc.phase.act rule proc.script w.shared a
    ⟨r.2, w.procs.set i ⟨proc.script, r.1⟩⟩

def World.act (rule : LockRule) (w : World σ) : LockAct σ → World σ
  | .start script => { w with procs := w.procs ++ [⟨script, .trying 0⟩] }
  | .clock now => { w with shared := { w.shared with now := now } }
  | .step i => w.on rule i (.step i)
  | .signal i => w.on rule i (.signal i)
  | .kill i => w.on rule i (.kill i)

/-- Nobody has been called yet, and there is no lock. -/
def World.opening (files : σ) : World σ := ⟨⟨files, none, 0⟩, []⟩

def World.run (rule : LockRule) (w : World σ) (acts : List (LockAct σ)) : World σ :=
  acts.foldl (World.act rule) w

/-- The two ways to lose the lock: a signal to the script that has it, and an
old lock that is broken. -/
def Phase.quiet : Phase σ → LockAct σ → Bool
  | .inside _, .signal _ => false
  | .old _, .step _ => false
  | _, _ => true

def World.quiet (w : World σ) : LockAct σ → Bool
  | .step i => w.procs[i]?.all fun proc => proc.phase.quiet (.step i)
  | .signal i => w.procs[i]?.all fun proc => proc.phase.quiet (.signal i)
  | _ => true

/-- Neither of the two happens. -/
def calm (rule : LockRule) (w : World σ) : List (LockAct σ) → Bool
  | [] => true
  | a :: acts => w.quiet a && calm rule (w.act rule a) acts

/-! ## What a process can do -/

/-- From `mkdir` to `rmdir`. -/
def Phase.Holds : Phase σ → Prop
  | .entered | .inside _ | .leaving _ => True
  | _ => False

/-- In the loop of `acquire_lock`. -/
def Phase.Waits : Phase σ → Prop
  | .trying _ | .found _ | .dated _ _ | .old _ | .late _ => True
  | _ => False

def Phase.Over : Phase σ → Prop
  | .ended _ | .refused | .killed => True
  | _ => False

/-- What a script has left to do. -/
inductive Body.Reaches : Body σ → σ → Body σ → σ → Prop
  | refl (b : Body σ) (s : σ) : Body.Reaches b s b s
  | op {b : Body σ} {s s' : σ} {f : σ → σ} {next : σ → Body σ} :
      Body.Reaches b s (.op f next) s' → Body.Reaches b s (next s') (f s')

/-- Neither inside nor through it. -/
structure Phase.Idle (phase : Phase σ) : Prop where
  holds : ¬ phase.Holds
  ended : ∀ code, phase ≠ .ended code
  bare : ∀ rest, phase ≠ .bare rest

theorem Phase.Waits.idle {phase : Phase σ} (h : phase.Waits) : phase.Idle := by
  cases phase with
  | trying _ | found _ | dated _ _ | old _ | late _ =>
    exact ⟨id, nofun, nofun⟩
  | _ => cases h

/-- The holder, which found the files as `s` and has made `files` of them. -/
def Phase.Current (script : Body σ) (s : σ) : Phase σ → σ → Prop
  | .entered, files => files = s
  | .inside rest, files => script.Reaches s rest files
  | .leaving code, files => script.Reaches s (.exit code) files
  | .killed, files => ∃ rest, script.Reaches s rest files
  | _, _ => False

theorem Phase.Waits.not_current {phase : Phase σ} (h : phase.Waits) {script : Body σ}
    {s files : σ} : ¬ phase.Current script s files := by
  cases phase with
  | trying _ | found _ | dated _ _ | old _ | late _ => exact id
  | _ => cases h

/-- **What a process can do**: wait, take the lock, work, give the lock back,
or die with it. -/
inductive Move (script : Body σ) : Phase σ → Shared σ → Phase σ → Shared σ → Prop
  | wait {phase phase' : Phase σ} {s : Shared σ} : phase.Waits →
      (phase'.Waits ∨ phase' = .refused ∨ phase' = .killed) → Move script phase s phase' s
  | rest {phase : Phase σ} {s : Shared σ} : phase.Over → Move script phase s phase s
  | enter {waited : ℕ} {s : Shared σ} : s.lockdir = none →
      Move script (.trying waited) s .entered { s with lockdir := some s.now }
  | work {phase phase' : Phase σ} {s : Shared σ} {files : σ} : phase.Holds → phase'.Holds →
      (∀ start, phase.Current script start s.files → phase'.Current script start files) →
      Move script phase s phase' { s with files := files }
  | leave {code : ℕ} {s : Shared σ} :
      Move script (.leaving code) s (.ended code) (releaseLock s)
  | die {phase : Phase σ} {s : Shared σ} : phase.Holds → Move script phase s .killed s

theorem Phase.next_move {rule : LockRule} {script : Body σ} {phase : Phase σ} {s : Shared σ}
    (hbare : ∀ rest, phase ≠ .bare rest) (hold : ∀ waited, phase ≠ .old waited) :
    Move script phase s (phase.next rule script s).1 (phase.next rule script s).2 := by
  cases phase with
  | trying waited =>
    unfold Phase.next
    dsimp only
    split
    next hfree => exact .enter hfree
    next => exact .wait trivial (Or.inl trivial)
  | found waited =>
    unfold Phase.next
    dsimp only
    split
    · exact .wait trivial (Or.inl trivial)
    · split <;> exact .wait trivial (Or.inl trivial)
  | dated waited mtime =>
    unfold Phase.next
    dsimp only
    split <;> exact .wait trivial (Or.inl trivial)
  | old waited => exact absurd rfl (hold waited)
  | late waited =>
    unfold Phase.next
    dsimp only
    split
    · exact .wait trivial (Or.inr (Or.inl rfl))
    · exact .wait trivial (Or.inl trivial)
  | entered =>
    refine .work trivial trivial fun start hstart => ?_
    show script.Reaches start script s.files
    rw [show s.files = start from hstart]
    exact .refl _ _
  | inside rest =>
    cases rest with
    | exit code => exact .work trivial trivial fun start hstart => hstart
    | op f next => exact .work trivial trivial fun start hstart => .op hstart
  | bare rest => exact absurd rfl (hbare rest)
  | leaving code => exact .leave
  | ended code => exact .rest trivial
  | refused => exact .rest trivial
  | killed => exact .rest trivial

/-- A holder dies with what it has made of the files. -/
theorem Phase.current_killed {script : Body σ} {start files : σ} {phase : Phase σ}
    (h : phase.Current script start files) : Phase.Current script start .killed files := by
  cases phase with
  | entered =>
    cases h
    exact ⟨script, .refl _ _⟩
  | inside rest => exact ⟨rest, h⟩
  | leaving code => exact ⟨.exit code, h⟩
  | killed => exact h
  | _ => cases h

theorem Phase.kill_move {script : Body σ} {phase : Phase σ} {s : Shared σ}
    (hbare : ∀ rest, phase ≠ .bare rest) : Move script phase s phase.kill s := by
  cases phase with
  | trying _ | found _ | dated _ _ | old _ | late _ => exact .wait trivial (Or.inr (Or.inr rfl))
  | entered | inside _ | leaving _ => exact .die trivial
  | bare rest => exact absurd rfl (hbare rest)
  | ended _ | refused | killed => exact .rest trivial

/-- A signal that the script inside does not get. -/
theorem Phase.signalled_move {script : Body σ} {phase : Phase σ} {s : Shared σ}
    (hbare : ∀ rest, phase ≠ .bare rest) (hinside : ∀ rest, phase ≠ .inside rest) :
    Move script phase s (phase.signalled s).1 (phase.signalled s).2 := by
  cases phase with
  | trying _ | found _ | dated _ _ | old _ | late _ => exact .wait trivial (Or.inr (Or.inr rfl))
  | entered => exact .die trivial
  | inside rest => exact absurd rfl (hinside rest)
  | bare rest => exact absurd rfl (hbare rest)
  | leaving _ => exact .leave
  | ended _ | refused | killed => exact .rest trivial

/-! ## One after another -/

/-- The scripts of these processes ran alone, one after another, with these
exit codes. -/
inductive Ran (procs : List (Proc σ)) (start : σ) : List (ℕ × ℕ) → σ → Prop
  | none : Ran procs start [] start
  | one {past : List (ℕ × ℕ)} {s : σ} {i : ℕ} {proc : Proc σ} : Ran procs start past s →
      procs[i]? = some proc →
      Ran procs start (past ++ [(i, (proc.script.run s).2)]) (proc.script.run s).1

/-- Each of them ended with the code its script gives for what the ones
before it left. -/
theorem Ran.split {procs : List (Proc σ)} {start s : σ} {past before after : List (ℕ × ℕ)}
    {i code : ℕ} (h : Ran procs start past s) (hpast : past = before ++ (i, code) :: after) :
    ∃ found proc, Ran procs start before found ∧ procs[i]? = some proc ∧
      code = (proc.script.run found).2 := by
  induction h generalizing after with
  | none =>
    have hlen := congrArg List.length hpast
    simp at hlen
  | @one past found k proc hran hk ih =>
    rcases List.eq_nil_or_concat after with rfl | ⟨after', e, rfl⟩
    · obtain ⟨rfl, hlast⟩ := List.append_inj' hpast rfl
      cases hlast
      exact ⟨found, proc, hran, hk, rfl⟩
    · have hassoc : before ++ (i, code) :: (after' ++ [e]) =
          (before ++ (i, code) :: after') ++ [e] := by simp
      rw [List.concat_eq_append, hassoc] at hpast
      exact ih (List.append_inj' hpast rfl).1

/-- Nobody has the lock, or one process has, alive or dead. -/
inductive Turn (w : World σ) (s : σ) : Prop
  | free : w.shared.lockdir = none → w.shared.files = s →
      (∀ (i : ℕ) proc, w.procs[i]? = some proc → ¬ proc.phase.Holds) → Turn w s
  | taken {i : ℕ} {proc : Proc σ} : w.shared.lockdir.isSome = true → w.procs[i]? = some proc →
      proc.phase.Current proc.script s w.shared.files →
      (∀ (j : ℕ) proc', w.procs[j]? = some proc' → j ≠ i → ¬ proc'.phase.Holds) → Turn w s

/-- The scripts that ended ran alone, one after another, up to the files `s`;
at most one other has begun. -/
structure Serial (start : σ) (w : World σ) (past : List (ℕ × ℕ)) (s : σ) : Prop where
  ran : Ran w.procs start past s
  nodup : (past.map (·.1)).Nodup
  ended : ∀ i code, (i, code) ∈ past ↔
    ∃ proc, w.procs[i]? = some proc ∧ proc.phase = .ended code
  turn : Turn w s
  bare : ∀ (i : ℕ) proc, w.procs[i]? = some proc → ∀ rest, proc.phase ≠ .bare rest

/-- What is left to do comes to what the whole script comes to. -/
theorem Body.Reaches.run {b b' : Body σ} {s s' : σ} (h : b.Reaches s b' s') :
    b'.run s' = b.run s := by
  induction h with
  | refl => rfl
  | op _ ih => exact ih

/-- The processes that ended are the same scripts later on. -/
theorem Ran.mono {procs procs' : List (Proc σ)} {start s : σ} {past : List (ℕ × ℕ)}
    (h : Ran procs start past s) (hprocs : ∀ (i : ℕ) proc, procs[i]? = some proc →
      ∃ proc', procs'[i]? = some proc' ∧ proc'.script = proc.script) :
    Ran procs' start past s := by
  induction h with
  | none => exact .none
  | one _ hi ih =>
    obtain ⟨proc', hi', hscript⟩ := hprocs _ _ hi
    rw [← hscript]
    exact .one ih hi'

section

variable {start s : σ} {w : World σ} {past : List (ℕ × ℕ)}

/-- Two holders are one. -/
theorem Turn.alone (h : Turn w s) {i j : ℕ} {p q : Proc σ} (hi : w.procs[i]? = some p)
    (hj : w.procs[j]? = some q) (hp : p.phase.Holds) (hq : q.phase.Holds) : i = j := by
  cases h with
  | free _ _ hnone => exact absurd hp (hnone i p hi)
  | @taken k _ _ _ _ hother =>
    have hik : i = k := by
      by_contra hne
      exact hother i p hi hne hp
    have hjk : j = k := by
      by_contra hne
      exact hother j q hj hne hq
    rw [hik, hjk]

/-- The holder is the one that has the lock. -/
theorem Turn.current (h : Turn w s) {i : ℕ} {proc : Proc σ} (hi : w.procs[i]? = some proc)
    (hholds : proc.phase.Holds) : w.shared.lockdir.isSome = true ∧
      proc.phase.Current proc.script s w.shared.files ∧
      ∀ (j : ℕ) proc', w.procs[j]? = some proc' → j ≠ i → ¬ proc'.phase.Holds := by
  cases h with
  | free _ _ hnone => exact absurd hholds (hnone i proc hi)
  | @taken k proc' hlock hk hcurrent hother =>
    have hik : i = k := by
      by_contra hne
      exact hother i proc hi hne hholds
    subst hik
    cases hi.symm.trans hk
    exact ⟨hlock, hcurrent, hother⟩

theorem procs_set {procs : List (Proc σ)} {i j : ℕ} {p' q : Proc σ}
    (hj : (procs.set i p')[j]? = some q) : (j = i ∧ q = p') ∨ (j ≠ i ∧ procs[j]? = some q) := by
  rw [List.getElem?_set] at hj
  split at hj
  next hij =>
    split at hj
    · cases hj
      exact Or.inl ⟨hij.symm, rfl⟩
    · cases hj
  next hij => exact Or.inr ⟨Ne.symm hij, hj⟩

theorem procs_set_self {procs : List (Proc σ)} {i : ℕ} {p p' : Proc σ}
    (hi : procs[i]? = some p) : (procs.set i p')[i]? = some p' := by
  obtain ⟨hlt, -⟩ := List.getElem?_eq_some_iff.mp hi
  rw [List.getElem?_set_self hlt]

/-- What one process does makes no other a holder. -/
theorem others_set {procs : List (Proc σ)} {i : ℕ} {p' : Proc σ}
    (hother : ∀ (j : ℕ) q, procs[j]? = some q → j ≠ i → ¬ q.phase.Holds) :
    ∀ (j : ℕ) q, (procs.set i p')[j]? = some q → j ≠ i → ¬ q.phase.Holds := by
  intro j q hj hji
  rcases procs_set hj with ⟨hij, -⟩ | ⟨-, hold⟩
  · exact absurd hij hji
  · exact hother j q hold hji

theorem Ran.set (h : Ran w.procs start past s) {i : ℕ} {proc : Proc σ}
    (hi : w.procs[i]? = some proc) (phase : Phase σ) :
    Ran (w.procs.set i ⟨proc.script, phase⟩) start past s := by
  refine h.mono fun j q hj => ?_
  by_cases hij : j = i
  · subst hij
    cases hi.symm.trans hj
    exact ⟨_, procs_set_self hi, rfl⟩
  · exact ⟨q, by rw [List.getElem?_set_ne (Ne.symm hij)]; exact hj, rfl⟩

/-- A process that neither ended nor ends leaves the past as it is. -/
theorem Serial.still (h : Serial start w past s) {i : ℕ} {proc : Proc σ}
    (hi : w.procs[i]? = some proc) {phase : Phase σ} {shared : Shared σ}
    (hbefore : ∀ code, proc.phase ≠ .ended code) (hafter : ∀ code, phase ≠ .ended code)
    (hbare : ∀ rest, phase ≠ .bare rest)
    (hturn : Turn ⟨shared, w.procs.set i ⟨proc.script, phase⟩⟩ s) :
    Serial start ⟨shared, w.procs.set i ⟨proc.script, phase⟩⟩ past s := by
  refine ⟨h.ran.set hi phase, h.nodup, fun j code => ?_, hturn, fun j q hj => ?_⟩
  · rw [h.ended]
    constructor
    · rintro ⟨q, hj, hq⟩
      by_cases hij : j = i
      · subst hij
        cases hi.symm.trans hj
        exact absurd hq (hbefore code)
      · exact ⟨q, by rw [List.getElem?_set_ne (Ne.symm hij)]; exact hj, hq⟩
    · rintro ⟨q, hj, hq⟩
      rcases procs_set hj with ⟨-, rfl⟩ | ⟨-, hold⟩
      · exact absurd hq (hafter code)
      · exact ⟨q, hold, hq⟩
  · rcases procs_set hj with ⟨-, rfl⟩ | ⟨-, hold⟩
    · exact hbare
    · exact h.bare j q hold

/-- **One move of one process.** -/
theorem Serial.move (h : Serial start w past s) {i : ℕ} {proc : Proc σ}
    (hi : w.procs[i]? = some proc) {phase : Phase σ} {shared : Shared σ}
    (hmove : Move proc.script proc.phase w.shared phase shared) :
    ∃ past' s', Serial start ⟨shared, w.procs.set i ⟨proc.script, phase⟩⟩ past' s' := by
  obtain ⟨script, now⟩ := proc
  obtain ⟨ws, procs⟩ := w
  dsimp only at hi hmove
  cases hmove with
  | wait hwaits hafter =>
    have hthen : phase.Idle := by
      rcases hafter with h | rfl | rfl
      · exact h.idle
      · exact ⟨id, nofun, nofun⟩
      · exact ⟨id, nofun, nofun⟩
    refine ⟨past, s, h.still hi hwaits.idle.ended hthen.ended hthen.bare ?_⟩
    cases h.turn with
    | free hlock hfiles hnone =>
      refine .free hlock hfiles fun j q hj => ?_
      rcases procs_set hj with ⟨-, rfl⟩ | ⟨-, hold⟩
      · exact hthen.holds
      · exact hnone j q hold
    | @taken k q hlock hk hcurrent hother =>
      -- who waits is not the holder, alive or dead
      have hki : k ≠ i := by
        rintro rfl
        cases hi.symm.trans hk
        exact hwaits.not_current hcurrent
      have hk' : (procs.set i ⟨script, phase⟩)[k]? = some q := by
        rw [List.getElem?_set_ne (Ne.symm hki)]
        exact hk
      refine .taken hlock hk' hcurrent fun j q' hj hjk => ?_
      rcases procs_set hj with ⟨-, rfl⟩ | ⟨-, hold⟩
      · exact hthen.holds
      · exact hother j q' hold hjk
  | rest hover =>
    refine ⟨past, s, ?_⟩
    have hsame : procs.set i ⟨script, phase⟩ = procs := by
      obtain ⟨hlt, hget⟩ := List.getElem?_eq_some_iff.mp hi
      rw [← hget, List.set_getElem_self]
    rw [hsame]
    exact h
  | enter hfree =>
    refine ⟨past, s, h.still hi nofun nofun nofun ?_⟩
    cases h.turn with
    | free hlock hfiles hnone =>
      exact .taken (i := i) rfl (procs_set_self hi) hfiles
        (others_set fun j q hj _ => hnone j q hj)
    | taken hlock =>
      rw [hfree] at hlock
      cases hlock
  | work hholds hholds' hcurrent =>
    -- who works is the holder, so what it does to the files is its script's doing
    obtain ⟨hlock, hnow, hother⟩ := h.turn.current hi hholds
    refine ⟨past, s, h.still hi ?_ ?_ ?_ ?_⟩
    · rintro code rfl
      cases hholds
    · rintro code rfl
      cases hholds'
    · rintro rest rfl
      cases hholds'
    · exact .taken (i := i) hlock (procs_set_self hi) (hcurrent s hnow) (others_set hother)
  | @leave code =>
    obtain ⟨-, hnow, hother⟩ := h.turn.current hi trivial
    -- it found the files as `s`, so it has run alone from there
    have hrun : script.run s = (ws.files, code) := (Body.Reaches.run hnow).symm
    refine ⟨past ++ [(i, code)], ws.files, ?_, ?_, ?_, ?_, ?_⟩
    · have hran := Ran.one (h.ran.set hi (.ended code)) (procs_set_self hi)
      rw [hrun] at hran
      exact hran
    · rw [List.map_append, List.map_singleton]
      refine List.nodup_append.mpr ⟨h.nodup, List.nodup_singleton _, ?_⟩
      intro k hk k' hk' hkk
      rw [List.mem_singleton] at hk'
      obtain ⟨⟨k, c⟩, hmem, rfl⟩ := List.mem_map.mp hk
      -- what ended before cannot be leaving now
      obtain ⟨q, hq, hended⟩ := (h.ended k c).mp hmem
      have hki : k = i := hkk.trans hk'
      subst hki
      cases hi.symm.trans hq
      cases hended
    · intro j c
      rw [List.mem_append, List.mem_singleton, h.ended]
      constructor
      · rintro (⟨q, hj, hq⟩ | hjc)
        · have hji : j ≠ i := by
            rintro rfl
            cases hi.symm.trans hj
            cases hq
          exact ⟨q, by rw [List.getElem?_set_ne (Ne.symm hji)]; exact hj, hq⟩
        · cases hjc
          exact ⟨_, procs_set_self hi, rfl⟩
      · rintro ⟨q, hj, hq⟩
        rcases procs_set hj with ⟨rfl, rfl⟩ | ⟨-, hold⟩
        · cases hq
          exact Or.inr rfl
        · exact Or.inl ⟨q, hold, hq⟩
    · refine .free rfl rfl fun j q hj => ?_
      rcases procs_set hj with ⟨-, rfl⟩ | ⟨hji, hold⟩
      · exact id
      · exact hother j q hold hji
    · intro j q hj
      rcases procs_set hj with ⟨-, rfl⟩ | ⟨-, hold⟩
      · exact nofun
      · exact h.bare j q hold
  | die hholds =>
    obtain ⟨hlock, hnow, hother⟩ := h.turn.current hi hholds
    refine ⟨past, s, h.still hi ?_ nofun nofun ?_⟩
    · rintro code rfl
      cases hholds
    · exact .taken (i := i) hlock (procs_set_self hi) (Phase.current_killed hnow)
        (others_set hother)

theorem World.on_of_some {rule : LockRule} {i : ℕ} {proc : Proc σ} {a : LockAct σ}
    (hi : w.procs[i]? = some proc) : w.on rule i a =
      ⟨(proc.phase.act rule proc.script w.shared a).2,
        w.procs.set i ⟨proc.script, (proc.phase.act rule proc.script w.shared a).1⟩⟩ := by
  unfold World.on
  rw [hi]

/-- Who is called has done nothing yet. -/
theorem Serial.called (h : Serial start w past s) (script : Body σ) :
    Serial start { w with procs := w.procs ++ [⟨script, .trying 0⟩] } past s := by
  have hold : ∀ (i : ℕ) proc, (w.procs ++ [⟨script, .trying 0⟩])[i]? = some proc →
      w.procs[i]? = some proc ∨ proc = ⟨script, .trying 0⟩ := by
    intro i proc hi
    rw [List.getElem?_append] at hi
    split at hi
    · exact Or.inl hi
    · exact Or.inr (List.mem_singleton.mp (List.mem_of_getElem? hi))
  have hkeep : ∀ (i : ℕ) proc, w.procs[i]? = some proc →
      (w.procs ++ [⟨script, .trying 0⟩])[i]? = some proc := by
    intro i proc hi
    obtain ⟨hlt, -⟩ := List.getElem?_eq_some_iff.mp hi
    rw [List.getElem?_append_left hlt]
    exact hi
  refine ⟨?_, h.nodup, fun i code => ?_, ?_, fun i proc hi => ?_⟩
  · exact h.ran.mono fun i proc hi => ⟨proc, hkeep i proc hi, rfl⟩
  · rw [h.ended]
    constructor
    · rintro ⟨proc, hi, hended⟩
      exact ⟨proc, hkeep i proc hi, hended⟩
    · rintro ⟨proc, hi, hended⟩
      rcases hold i proc hi with hi | rfl
      · exact ⟨proc, hi, hended⟩
      · cases hended
  · cases h.turn with
    | free hlock hfiles hnone =>
      refine .free hlock hfiles fun i proc hi => ?_
      rcases hold i proc hi with hi | rfl
      · exact hnone i proc hi
      · exact id
    | taken hlock hk hcurrent hother =>
      refine .taken hlock (hkeep _ _ hk) hcurrent fun i proc hi hne => ?_
      rcases hold i proc hi with hi | rfl
      · exact hother i proc hi hne
      · exact id
  · rcases hold i proc hi with hi | rfl
    · exact h.bare i proc hi
    · exact nofun

/-- **One act.** -/
theorem Serial.act (h : Serial start w past s) {rule : LockRule} {a : LockAct σ}
    (hquiet : w.quiet a = true) : ∃ past' s', Serial start (w.act rule a) past' s' := by
  -- an act on one process, which is there or not
  have hon : ∀ i a, (∀ proc, w.procs[i]? = some proc → Move proc.script proc.phase w.shared
      (proc.phase.act rule proc.script w.shared a).1
      (proc.phase.act rule proc.script w.shared a).2) →
      ∃ past' s', Serial start (w.on rule i a) past' s' := by
    intro i a hmove
    cases hi : w.procs[i]? with
    | none =>
      refine ⟨past, s, ?_⟩
      unfold World.on
      rw [hi]
      exact h
    | some proc =>
      rw [World.on_of_some hi]
      exact h.move hi (hmove proc hi)
  cases a with
  | start script => exact ⟨past, s, h.called script⟩
  | clock now =>
    refine ⟨past, s, h.ran, h.nodup, h.ended, ?_, h.bare⟩
    cases h.turn with
    | free hlock hfiles hnone => exact .free hlock hfiles hnone
    | taken hlock hk hcurrent hother => exact .taken hlock hk hcurrent hother
  | step i =>
    refine hon i (.step i) fun proc hi => ?_
    refine Phase.next_move (h.bare i proc hi) fun waited hphase => ?_
    simp [World.quiet, hi, hphase, Phase.quiet] at hquiet
  | signal i =>
    refine hon i (.signal i) fun proc hi => ?_
    refine Phase.signalled_move (h.bare i proc hi) fun rest hphase => ?_
    simp [World.quiet, hi, hphase, Phase.quiet] at hquiet
  | kill i => exact hon i (.kill i) fun proc hi => Phase.kill_move (h.bare i proc hi)

end

theorem Serial.opening (files : σ) : Serial files (World.opening files) [] files where
  ran := .none
  nodup := List.nodup_nil
  ended i code := by
    constructor
    · intro h
      cases h
    · rintro ⟨proc, hi, -⟩
      cases hi
  turn := .free rfl rfl fun i proc hi => by cases hi
  bare i proc hi := by cases hi

/-- A calm run leaves one process after another. -/
theorem serial_run {rule : LockRule} {files : σ} {acts : List (LockAct σ)}
    (hcalm : calm rule (World.opening files) acts = true) :
    ∃ past s, Serial files ((World.opening files).run rule acts) past s := by
  suffices hrun : ∀ (w : World σ) past s, Serial files w past s → calm rule w acts = true →
      ∃ past' s', Serial files (w.run rule acts) past' s' from
    hrun _ [] files (.opening files) hcalm
  clear hcalm
  induction acts with
  | nil => exact fun w past s h _ => ⟨past, s, h⟩
  | cons a acts ih =>
    intro w past s h hcalm
    unfold calm at hcalm
    obtain ⟨hquiet, hcalm⟩ := Bool.and_eq_true_iff.mp hcalm
    obtain ⟨past', s', h'⟩ := h.act hquiet
    exact ih (w.act rule a) past' s' h' hcalm

private def addOne : Body ℕ := .op (· + 1) fun _ => .exit 0

/-- The first is killed inside, and the second waits. -/
private def killedInside : List (LockAct ℕ) :=
  [.start addOne, .start addOne, .step 0, .step 1, .step 0, .step 0, .kill 0, .step 1, .clock 900,
    .step 1]

/-- Has not found the lock old. -/
def Phase.Young : Phase σ → Prop
  | .dated _ _ | .old _ => False
  | _ => True

theorem Phase.act_young {rule : LockRule} (hrule : rule.maxAge = 0) {script : Body σ}
    {phase : Phase σ} {s : Shared σ} {a : LockAct σ} (h : phase.Young) :
    (phase.act rule script s a).1.Young := by
  cases a with
  | start _ | clock _ => exact h
  | kill i =>
    show phase.kill.Young
    cases phase <;> trivial
  | signal i =>
    show (phase.signalled s).1.Young
    cases phase <;> trivial
  | step i =>
    show (phase.next rule script s).1.Young
    cases phase with
    | dated _ _ => cases h
    | old _ => cases h
    | trying waited =>
      unfold Phase.next
      dsimp only
      split <;> trivial
    | found waited =>
      unfold Phase.next
      dsimp only
      rw [if_pos hrule]
      trivial
    | late waited =>
      unfold Phase.next
      dsimp only
      split <;> trivial
    | inside rest => cases rest <;> trivial
    | bare rest => cases rest <;> trivial
    | entered | leaving _ | ended _ | refused | killed => trivial

theorem World.act_young {rule : LockRule} (hrule : rule.maxAge = 0) {w : World σ}
    {a : LockAct σ} (h : ∀ proc ∈ w.procs, proc.phase.Young) :
    ∀ proc ∈ (w.act rule a).procs, proc.phase.Young := by
  have hon : ∀ i a, ∀ proc ∈ (w.on rule i a).procs, proc.phase.Young := by
    intro i a proc hproc
    unfold World.on at hproc
    split at hproc
    · exact h proc hproc
    next p hi =>
      rcases List.mem_or_eq_of_mem_set hproc with hproc | rfl
      · exact h proc hproc
      · exact Phase.act_young hrule (h p (List.mem_of_getElem? hi))
  cases a with
  | start script =>
    intro proc hproc
    rcases List.mem_append.mp hproc with hproc | hproc
    · exact h proc hproc
    · rw [List.mem_singleton.mp hproc]
      trivial
  | clock now => exact h
  | step i => exact hon i _
  | signal i => exact hon i _
  | kill i => exact hon i _

/-- Without a greatest age and without INT and TERM, a run is calm. -/
theorem calm_of_unsignalled {rule : LockRule} (hrule : rule.maxAge = 0)
    {acts : List (LockAct σ)} (hsignal : ∀ i, .signal i ∉ acts) {w : World σ}
    (h : ∀ proc ∈ w.procs, proc.phase.Young) : calm rule w acts = true := by
  induction acts generalizing w with
  | nil => rfl
  | cons a acts ih =>
    have htail : ∀ i, .signal i ∉ acts := fun i hi => hsignal i (List.mem_cons_of_mem _ hi)
    have hquiet : w.quiet a = true := by
      cases a with
      | start _ | clock _ | kill _ => rfl
      | signal i => exact absurd List.mem_cons_self (hsignal i)
      | step i =>
        show (w.procs[i]?.all fun proc => proc.phase.quiet (.step i)) = true
        cases hi : w.procs[i]? with
        | none => rfl
        | some proc =>
          have hyoung := h proc (List.mem_of_getElem? hi)
          show proc.phase.quiet (.step i) = true
          obtain ⟨script, phase⟩ := proc
          cases phase <;> first | rfl | cases hyoung
    unfold calm
    rw [hquiet, ih htail (World.act_young hrule h)]
    rfl

/-- What `acquire_lock <target> 10` asks for. -/
def plainRule : LockRule := ⟨10, 0⟩

theorem serial_plain (files : σ) {acts : List (LockAct σ)} (hsignal : ∀ i, .signal i ∉ acts) :
    ∃ past s, Serial files ((World.opening files).run plainRule acts) past s :=
  serial_run (calm_of_unsignalled rfl hsignal fun _ h => by cases h)

/-! ## Who was called -/

/-- The scripts that are called, in order. -/
def starts : List (LockAct σ) → List (Body σ)
  | [] => []
  | .start script :: acts => script :: starts acts
  | _ :: acts => starts acts

theorem World.on_scripts (rule : LockRule) (w : World σ) (i : ℕ) (a : LockAct σ) :
    (w.on rule i a).procs.map (·.script) = w.procs.map (·.script) := by
  unfold World.on
  split
  · rfl
  next proc hi =>
    dsimp only
    rw [List.map_set]
    obtain ⟨hlt, hget⟩ := List.getElem?_eq_some_iff.mp hi
    have hsame : proc.script = (w.procs.get ⟨i, hlt⟩).script := by
      rw [← hget]
      rfl
    rw [hsame]
    refine List.ext_getElem? fun j => ?_
    rw [List.getElem?_set]
    split
    next hij =>
      subst hij
      simp [hlt]
    · rfl

theorem World.run_scripts (rule : LockRule) (w : World σ) (acts : List (LockAct σ)) :
    (w.run rule acts).procs.map (·.script) = w.procs.map (·.script) ++ starts acts := by
  induction acts generalizing w with
  | nil => simp [World.run, starts]
  | cons a acts ih =>
    show ((w.act rule a).run rule acts).procs.map (·.script) = _
    rw [ih]
    cases a with
    | start script =>
      show (w.procs ++ [(⟨script, .trying 0⟩ : Proc σ)]).map Proc.script ++ starts acts = _
      simp [starts]
    | clock now => rfl
    | step i =>
      show (w.on rule i (.step i)).procs.map (·.script) ++ starts acts = _
      rw [World.on_scripts]
      rfl
    | signal i =>
      show (w.on rule i (.signal i)).procs.map (·.script) ++ starts acts = _
      rw [World.on_scripts]
      rfl
    | kill i =>
      show (w.on rule i (.kill i)).procs.map (·.script) ++ starts acts = _
      rw [World.on_scripts]
      rfl

theorem getElem?_script {w : World σ} {scripts : List (Body σ)}
    (h : w.procs.map (·.script) = scripts) {i : ℕ} {proc : Proc σ}
    (hi : w.procs[i]? = some proc) : scripts[i]? = some proc.script := by
  rw [← h, List.getElem?_map, hi]
  rfl

/-- What a process runs is one of the calls. -/
theorem exists_call {ι : Type} {w : World σ} {calls : List ι} {body : ι → Body σ}
    (h : w.procs.map (·.script) = calls.map body) {i : ℕ} {proc : Proc σ}
    (hi : w.procs[i]? = some proc) : ∃ call, calls[i]? = some call ∧ body call = proc.script := by
  have hscript := getElem?_script h hi
  rw [List.getElem?_map] at hscript
  exact Option.map_eq_some_iff.mp hscript

/-! ## Scripts that write once -/

/-- The files the scripts of these numbers leave, each run alone. -/
def inTurn (scripts : List (Body σ)) (start : σ) (order : List ℕ) : σ :=
  (order.filterMap (scripts[·]?)).foldl (fun s b => (b.run s).1) start

theorem inTurn_concat (scripts : List (Body σ)) (start : σ) (order : List ℕ) (i : ℕ) :
    inTurn scripts start (order ++ [i]) = match scripts[i]? with
      | none => inTurn scripts start order
      | some b => (b.run (inTurn scripts start order)).1 := by
  unfold inTurn
  rw [List.filterMap_append, List.foldl_append]
  cases hi : scripts[i]? with
  | none => simp [hi]
  | some b => simp [hi]

theorem Ran.inTurn {w : World σ} {start s : σ} {past : List (ℕ × ℕ)} {scripts : List (Body σ)}
    (hscripts : w.procs.map (·.script) = scripts) (h : Ran w.procs start past s) :
    s = inTurn scripts start (past.map (·.1)) := by
  induction h with
  | none => rfl
  | one _ hi ih =>
    rw [List.map_append, List.map_singleton, inTurn_concat, getElem?_script hscripts hi, ← ih]

/-- However far it came, the script has done nothing or everything. -/
def Body.Atomic (b : Body σ) : Prop :=
  ∀ s rest s', b.Reaches s rest s' → s' = s ∨ s' = (b.run s).1

theorem Body.Reaches.head {b rest : Body σ} {s s' : σ} (h : b.Reaches s rest s') :
    (rest = b ∧ s' = s) ∨ ∃ f next, b = .op f next ∧ (next s).Reaches (f s) rest s' := by
  induction h with
  | refl => exact Or.inl ⟨rfl, rfl⟩
  | @op s' f next _ ih =>
    rcases ih with ⟨hb, rfl⟩ | ⟨f', next', hb, hreaches⟩
    · exact Or.inr ⟨f, next, hb.symm, .refl _ _⟩
    · exact Or.inr ⟨f', next', hb, .op hreaches⟩

/-- **No write is lost.** Where each script writes once, the files are what
the scripts that ended make of them one after another, and after them at most
one other. -/
theorem Serial.atomic {start s : σ} {w : World σ} {past : List (ℕ × ℕ)}
    (h : Serial start w past s) {scripts : List (Body σ)}
    (hscripts : w.procs.map (·.script) = scripts) (hatomic : ∀ b ∈ scripts, b.Atomic) :
    ∃ last : List ℕ, last.length ≤ 1 ∧ (past.map (·.1) ++ last).Nodup ∧
      w.shared.files = inTurn scripts start (past.map (·.1) ++ last) := by
  have hs := h.ran.inTurn hscripts
  have hdone : w.shared.files = s → ∃ last : List ℕ, last.length ≤ 1 ∧
      (past.map (·.1) ++ last).Nodup ∧
      w.shared.files = inTurn scripts start (past.map (·.1) ++ last) := by
    intro hfiles
    refine ⟨[], Nat.zero_le 1, ?_, ?_⟩
    · rw [List.append_nil]
      exact h.nodup
    · rw [List.append_nil]
      exact hfiles.trans hs
  cases h.turn with
  | free _ hfiles _ => exact hdone hfiles
  | @taken i proc _ hi hcurrent _ =>
    have hmem : proc.script ∈ scripts := by
      rw [← hscripts]
      exact List.mem_map_of_mem (List.mem_of_getElem? hi)
    obtain ⟨rest, hreaches⟩ := Phase.current_killed hcurrent
    rcases hatomic _ hmem s rest _ hreaches with hfiles | hfiles
    · exact hdone hfiles
    · refine ⟨[i], Nat.le_refl 1, ?_, ?_⟩
      · refine List.nodup_append.mpr ⟨h.nodup, List.nodup_singleton _, ?_⟩
        intro k hk k' hk' hkk
        rw [List.mem_singleton] at hk'
        obtain ⟨⟨k, c⟩, hpast, rfl⟩ := List.mem_map.mp hk
        obtain ⟨q, hq, hended⟩ := (h.ended k c).mp hpast
        have hki : k = i := hkk.trans hk'
        subst hki
        cases hi.symm.trans hq
        rw [hended] at hcurrent
        exact hcurrent
      · rw [inTurn_concat, getElem?_script hscripts hi, ← hs]
        exact hfiles

theorem Serial.mem_past {start s : σ} {w : World σ} {past : List (ℕ × ℕ)}
    (h : Serial start w past s) {i : ℕ} : i ∈ past.map (·.1) ↔
      ∃ proc code, w.procs[i]? = some proc ∧ proc.phase = .ended code := by
  constructor
  · intro hi
    obtain ⟨⟨i, code⟩, hpast, rfl⟩ := List.mem_map.mp hi
    obtain ⟨proc, hproc⟩ := (h.ended i code).mp hpast
    exact ⟨proc, code, hproc⟩
  · rintro ⟨proc, code, hproc⟩
    exact List.mem_map.mpr ⟨(i, code), (h.ended i code).mpr ⟨proc, hproc⟩, rfl⟩

end TradeDesk.Scripts
