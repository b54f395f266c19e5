import TradeDesk.Engine.Passes
import Mathlib.Data.List.Perm.Basic

/-!
# Fires, their tasks and their rows

The engine's loop and the fires it has started run side by side, and the
engine may be stopped and started again at any moment. What it remembers of
the fires it handed out is in memory and is lost then; the `job_runs` rows
are in the database and stay.

A step is what happens between two awaits. The loop's pass marks the late
fires, looks each one up and writes a `missed` row where there is none, and
then makes a task of each fire that is due. A task takes its job's lock and
runs the fire, or finds the lock held and writes a `noop` row; a run ends
with one row, unless the store refuses it. A restart forgets the marks, the
pass and the tasks.

`_pass` asks the ledger before it writes a missed row, but `due` asks it
nothing: a process that starts while a fire is still within its grace
period runs that fire whatever the process before it did.
-/

namespace TradeDesk.Engine

inductive Verdict where
  | done | noop | contentFailed | failed | timeout | missed
deriving DecidableEq, Repr

/-- A row of `job_runs`. Its job and `started_at` are those of the fire. -/
structure JobRun where
  fire : Fire
  ended : Instant
  verdict : Verdict
deriving DecidableEq, Repr

/-- How far `_run_fire` is: not begun, about to write the `noop` of a fire
that found its lock held, inside `_dispatch`, or past its row and not yet
out of the lock. -/
inductive TaskStage where
  | created | skipping | dispatched | recorded
deriving DecidableEq, Repr

structure Task where
  fire : Fire
  stage : TaskStage
deriving DecidableEq, Repr

/-- Inside `async with lock`. -/
def TaskStage.HoldsLock : TaskStage → Prop
  | .created | .skipping => False
  | .dispatched | .recorded => True

instance : DecidablePred TaskStage.HoldsLock := fun s => by
  cases s <;> unfold TaskStage.HoldsLock <;> infer_instance

/-- Where the loop is: between passes, or in one with these missed fires
still to look up, the first of them perhaps looked up already and not in
the ledger. -/
inductive LoopStage where
  | idle
  | sweeping (todo : List Fire)
  | recording (f : Fire) (todo : List Fire)
deriving DecidableEq, Repr

/-- The fires the pass is not done with. -/
def LoopStage.todo : LoopStage → List Fire
  | .idle => []
  | .sweeping todo => todo
  | .recording f todo => f :: todo

/-- The engine and its database. `dispatched` is every run begun so far and
`earlier` every fire that a process before this one ran or wrote a row for:
neither is stored anywhere, they are kept to speak of the past. -/
structure State where
  mem : Memory
  loop : LoopStage
  tasks : List Task
  last : Instant
  rows : List JobRun
  dispatched : List Fire
  earlier : List Fire

/-- A first start, at which the window is read for the date. -/
def State.fresh (window : Option Date) (now : Instant) : State :=
  ⟨⟨.none, window⟩, .idle, [], now, [], [], []⟩

/-- `Store.job_run_exists`. -/
def State.jobRunExists (s : State) (f : Fire) : Bool := s.rows.any (·.fire = f)

def State.recordJobRun (s : State) (r : JobRun) : State := { s with rows := s.rows ++ [r] }

/-- `lock.locked()`: some task of the job is inside. -/
def State.locked (s : State) (job : String) : Bool :=
  s.tasks.any fun t => t.fire.job = job ∧ t.stage.HoldsLock

def State.moveTask (s : State) (f : Fire) (x y : TaskStage) : State :=
  { s with tasks := ⟨f, y⟩ :: s.tasks.erase ⟨f, x⟩ }

def State.dropTask (s : State) (f : Fire) (x : TaskStage) : State :=
  { s with tasks := s.tasks.erase ⟨f, x⟩ }

/-- What happens next. The trading days are as the window then held says. -/
inductive Act where
  | passBegins (now : Instant) (tradingDay : Date → Bool)
  | looksUp
  | writesMissed
  | passEnds (tradingDay : Date → Bool)
  | passFails
  | taskBegins (f : Fire)
  | skipEnds (f : Fire) (written : Option Instant)
  | runEnds (f : Fire) (written : Option (Verdict × Instant))
  | lockFreed (f : Fire)
  | taskFails (f : Fire)
  | restart (window : Option Date)

/-- The pass begins: the marks are pruned at the turn of the day and the late
fires are marked missed. -/
def State.passBegins (sch : Schedule) (et : Zone) (s : State) (now : Instant)
    (tradingDay : Date → Bool) : State :=
  let mem := s.mem.turn (et.date now)
  let missed := sch.markMissed et tradingDay now mem.marks
  { s with mem := { mem with marks := missed.2 }, loop := .sweeping missed.1, last := now }

/-- The next missed fire is looked up, and passed over if it has a row. -/
def State.looksUp (s : State) : Option State :=
  match s.loop with
  | .sweeping (f :: todo) =>
    some { s with loop := if s.jobRunExists f then .sweeping todo else .recording f todo }
  | _ => none

def State.writesMissed (et : Zone) (s : State) : Option State :=
  match s.loop with
  | .recording f todo =>
    some { s.recordJobRun ⟨f, f.instant et, .missed⟩ with loop := .sweeping todo }
  | _ => none

/-- The pass ends: each fire that is due becomes a task. -/
def State.passEnds (sch : Schedule) (et : Zone) (s : State) (tradingDay : Date → Bool) :
    State :=
  let due := sch.due et tradingDay s.last s.mem.marks
  { s with mem := { s.mem with marks := due.2 }, loop := .idle,
           tasks := s.tasks ++ due.1.map (⟨·, .created⟩) }

/-- `_run_fire`: the lock is tried, and `_dispatch` begun if it is free. -/
def State.taskBegins (s : State) (f : Fire) : State :=
  if s.locked f.job then s.moveTask f .created .skipping
  else { s.moveTask f .created .dispatched with dispatched := f :: s.dispatched }

/-- A stop and a start: what was in memory is gone, the rows are kept. -/
def State.restart (s : State) (window : Option Date) : State :=
  { s with mem := ⟨.none, window⟩, loop := .idle, tasks := [],
           earlier := s.dispatched ++ s.rows.map JobRun.fire }

/-- One step, where it can be taken. -/
def State.step (sch : Schedule) (et : Zone) (s : State) : Act → Option State
  | .passBegins now tradingDay =>
    if s.loop = .idle ∧ s.last ≤ now then some (s.passBegins sch et now tradingDay) else none
  | .looksUp => s.looksUp
  | .writesMissed => s.writesMissed et
  | .passEnds tradingDay =>
    if s.loop = .sweeping [] then some (s.passEnds sch et tradingDay) else none
  | .passFails => some { s with loop := .idle }
  | .taskBegins f => if ⟨f, .created⟩ ∈ s.tasks then some (s.taskBegins f) else none
  | .skipEnds f written =>
    if ⟨f, .skipping⟩ ∈ s.tasks then
      let s := s.dropTask f .skipping
      some (written.elim s fun now => s.recordJobRun ⟨f, now, .noop⟩)
    else none
  | .runEnds f written =>
    if ⟨f, .dispatched⟩ ∈ s.tasks then
      let s := s.moveTask f .dispatched .recorded
      some (written.elim s fun r => s.recordJobRun ⟨f, r.2, r.1⟩)
    else none
  | .lockFreed f => if ⟨f, .recorded⟩ ∈ s.tasks then some (s.dropTask f .recorded) else none
  | .taskFails f => if ⟨f, .dispatched⟩ ∈ s.tasks then some (s.dropTask f .dispatched) else none
  | .restart window => some (s.restart window)

/-- A run of the engine, each of whose steps is one the condition allows. -/
inductive Run (sch : Schedule) (et : Zone) (ok : State → Act → Prop) : State → Prop where
  | fresh (window : Option Date) (now : Instant) : Run sch et ok (.fresh window now)
  | step {s s' : State} {a : Act} : Run sch et ok s → ok s a → s.step sch et a = some s' →
      Run sch et ok s'

/-- Each fire is run once at most and has one row at most. -/
def State.OnceEach (s : State) : Prop :=
  ∀ f, s.dispatched.count f ≤ 1 ∧ (s.rows.map JobRun.fire).count f ≤ 1

/-- The fires that are due at a pass are none that an earlier process has
handled: at the end of a pass, a fire that a process before this one ran or
wrote a row for is past its grace period, not yet reached, or marked by this
process already. -/
def State.Settled (et : Zone) (s : State) : Act → Prop
  | .passEnds _ => ∀ f ∈ s.earlier, f.Ready (easternWall et s.last) → s.mem.marks.Has f
  | _ => True

instance (et : Zone) (s : State) : DecidablePred (s.Settled et) := fun a => by
  cases a <;> unfold State.Settled <;> infer_instance

/-- Take these steps in turn, each only if the condition allows it. -/
def State.play (sch : Schedule) (et : Zone) (ok : State → Act → Prop)
    [∀ s, DecidablePred (ok s)] : List Act → State → Option State
  | [], s => some s
  | a :: as, s => if ok s a then (s.step sch et a).bind (play sch et ok as) else none

/-! ## The invariant -/

/-- Run, or in the ledger. -/
def State.Handled (s : State) (f : Fire) : Prop :=
  f ∈ s.dispatched ∨ f ∈ s.rows.map JobRun.fire

/-- The process will not take up the fire again: it is marked, or its day
is past. -/
def State.Known (et : Zone) (s : State) (f : Fire) : Prop :=
  s.mem.marks.Has f ∨ f.date < et.date s.last

/-- **The invariant.** What is handled was handled by an earlier process or
is known to this one; the tasks and the pass are about fires that are known,
each in one place, and a fire whose task has not run it has neither a run
nor a row. -/
structure Sound (et : Zone) (s : State) : Prop where
  dispatched : s.dispatched.Nodup
  rows : (s.rows.map JobRun.fire).Nodup
  handled : ∀ f, s.Handled f → f ∈ s.earlier ∨ s.Known et f
  tasks : (s.tasks.map Task.fire).Nodup
  task : ∀ t ∈ s.tasks, s.Known et t.fire ∧
    (¬ t.stage.HoldsLock → t.fire ∉ s.dispatched) ∧
    (t.stage ≠ .recorded → t.fire ∉ s.rows.map JobRun.fire)
  todo : ∀ f ∈ s.loop.todo, s.Known et f ∧ f ∉ s.tasks.map Task.fire
  recording : ∀ f todo, s.loop = .recording f todo → f ∉ s.rows.map JobRun.fire

variable {sch : Schedule} {et : Zone} {s s' : State} {f : Fire} {now : Instant}
  {tradingDay : Date → Bool} {x y : TaskStage}

theorem State.jobRunExists_iff : s.jobRunExists f = true ↔ f ∈ s.rows.map JobRun.fire := by
  unfold State.jobRunExists
  rw [List.any_eq_true, List.mem_map]
  simp

theorem Sound.fresh (window : Option Date) (now : Instant) :
    Sound et (.fresh window now) where
  dispatched := List.nodup_nil
  rows := List.nodup_nil
  handled := fun f h => by rcases h with h | h <;> cases h
  tasks := List.nodup_nil
  task := fun t h => by cases h
  todo := fun f h => by cases h
  recording := fun f todo h => by cases h

/-! ## The pass -/

/-- A fire that is known is not one the pass finds unmarked. -/
theorem State.Known.marked (hk : s.Known et f) (hlast : s.last ≤ now)
    (hd : f.date = et.date now) : s.mem.marks.Has f := by
  rcases hk with h | h
  · exact h
  · have := et.date_mono hlast
    exact absurd h (by rw [hd]; exact not_lt.mpr this)

theorem State.Known.turn (hk : s.Known et f) (hlast : s.last ≤ now) :
    (s.mem.turn (et.date now)).marks.Has f ∨ f.date < et.date now := by
  by_cases hd : et.date now ≤ f.date
  · rcases hk with h | h
    · exact .inl ((Memory.turn_of_le hd).mpr h)
    · exact absurd (lt_of_lt_of_le h (et.date_mono hlast)) (not_lt.mpr hd)
  · exact .inr (not_le.mp hd)

theorem State.Known.passBegins (hk : s.Known et f) (hlast : s.last ≤ now) :
    (s.passBegins sch et now tradingDay).Known et f := by
  rcases hk.turn hlast with h | h
  · exact .inl (Schedule.markMissed_has.mpr (.inl h))
  · exact .inr h

theorem Sound.passBegins (hs : Sound et s) (hlast : s.last ≤ now) :
    Sound et (s.passBegins sch et now tradingDay) where
  dispatched := hs.dispatched
  rows := hs.rows
  handled := fun f h => (hs.handled f h).imp_right fun hk => hk.passBegins hlast
  tasks := hs.tasks
  task := fun t ht => ⟨(hs.task t ht).1.passBegins hlast, (hs.task t ht).2⟩
  todo := fun f hf => by
    have hm := Schedule.mem_markMissed.mp hf
    refine ⟨.inl (Schedule.markMissed_has.mpr (.inr hf)), ?_⟩
    intro hmap
    -- a task's fire is known, so the sweep would have passed it over
    obtain ⟨t, ht, rfl⟩ := List.mem_map.mp hmap
    have hd := Schedule.fires_date hm.1
    exact hm.2.2 ((Memory.turn_of_le hd.ge).mpr ((hs.task t ht).1.marked hlast hd))
  recording := fun f todo h => by cases h

theorem Sound.looksUp {todo : List Fire} (hs : Sound et s) (hl : s.loop = .sweeping (f :: todo)) :
    Sound et { s with loop := if s.jobRunExists f then .sweeping todo else .recording f todo } := by
  have hmem : ∀ g, g ∈ (if s.jobRunExists f then LoopStage.sweeping todo
      else .recording f todo).todo → g ∈ s.loop.todo := by
    intro g hg
    rw [hl]
    split at hg
    · exact List.mem_cons_of_mem _ hg
    · exact hg
  refine { hs with todo := fun g hg => hs.todo g (hmem g hg), recording := ?_ }
  intro g rest hg
  dsimp only at hg
  split at hg
  · cases hg
  next hno =>
    obtain ⟨rfl, rfl⟩ := LoopStage.recording.inj hg
    exact fun h => hno (State.jobRunExists_iff.mpr h)

/-- A row of a known fire that had none, and that no task is still to write
one for. -/
theorem Sound.record (hs : Sound et s) {r : JobRun} (hno : r.fire ∉ s.rows.map JobRun.fire)
    (hk : s.Known et r.fire)
    (htask : ∀ t ∈ s.tasks, t.fire = r.fire → t.stage = .recorded)
    (hloop : ∀ f todo, s.loop = .recording f todo → f ≠ r.fire) :
    Sound et (s.recordJobRun r) where
  dispatched := hs.dispatched
  rows := by
    unfold State.recordJobRun
    rw [List.map_append, List.nodup_append]
    refine ⟨hs.rows, List.nodup_singleton _, ?_⟩
    intro a ha b hb hab
    rw [List.map_singleton, List.mem_singleton] at hb
    exact hno (hb ▸ hab ▸ ha)
  handled := fun f h => by
    unfold State.Handled State.recordJobRun at h
    rw [List.map_append, List.map_singleton, List.mem_append, List.mem_singleton] at h
    rcases h with h | h | rfl
    · exact hs.handled f (.inl h)
    · exact hs.handled f (.inr h)
    · exact .inr hk
  tasks := hs.tasks
  task := fun t ht => by
    refine ⟨(hs.task t ht).1, (hs.task t ht).2.1, ?_⟩
    intro hstage h
    unfold State.recordJobRun at h
    rw [List.map_append, List.map_singleton, List.mem_append, List.mem_singleton] at h
    rcases h with h | h
    · exact (hs.task t ht).2.2 hstage h
    · exact hstage (htask t ht h)
  todo := hs.todo
  recording := fun f todo hl h => by
    unfold State.recordJobRun at h
    rw [List.map_append, List.map_singleton, List.mem_append, List.mem_singleton] at h
    rcases h with h | h
    · exact hs.recording f todo hl h
    · exact hloop f todo hl h

/-- The loop may let go of what it was about to do. -/
theorem Sound.loop (hs : Sound et s) {l : LoopStage} (hsub : ∀ f ∈ l.todo, f ∈ s.loop.todo)
    (hrec : ∀ f todo, l = .recording f todo → f ∉ s.rows.map JobRun.fire) :
    Sound et { s with loop := l } :=
  { hs with todo := fun f hf => hs.todo f (hsub f hf), recording := hrec }

theorem Sound.writesMissed {todo : List Fire} (hs : Sound et s)
    (hl : s.loop = .recording f todo) :
    Sound et { s.recordJobRun ⟨f, f.instant et, .missed⟩ with loop := .sweeping todo } := by
  have hf : f ∈ s.loop.todo := by
    rw [hl]
    exact List.mem_cons_self
  have hs₁ : Sound et { s with loop := .sweeping todo } := by
    refine hs.loop (fun g hg => ?_) (fun _ _ h => by cases h)
    rw [hl]
    exact List.mem_cons_of_mem _ hg
  refine hs₁.record (r := ⟨f, f.instant et, .missed⟩) (hs.recording f todo hl)
    (hs.todo f hf).1 ?_ (fun _ _ h => by cases h)
  intro t ht htf
  exact absurd (List.mem_map.mpr ⟨t, ht, htf⟩) (hs.todo f hf).2

/-- **What the pass hands out is new**, where no fire an earlier process
handled is due. -/
theorem Sound.due_new (hs : Sound et s) (hset : s.Settled et (.passEnds tradingDay))
    (hf : f ∈ (sch.due et tradingDay s.last s.mem.marks).1) :
    ¬ s.Handled f ∧ f ∉ s.tasks.map Task.fire := by
  obtain ⟨hfire, hready, hno⟩ := Schedule.mem_due.mp hf
  have hd := Schedule.fires_date hfire
  refine ⟨?_, ?_⟩
  · intro h
    rcases hs.handled f h with he | hk
    · exact hno (hset f he hready)
    · exact hno (hk.marked le_rfl hd)
  · intro h
    obtain ⟨t, ht, rfl⟩ := List.mem_map.mp h
    exact hno ((hs.task t ht).1.marked le_rfl hd)

theorem State.Known.passEnds (hk : s.Known et f) : (s.passEnds sch et tradingDay).Known et f :=
  hk.imp_left fun h => Schedule.due_has.mpr (.inl h)

theorem Sound.passEnds (hs : Sound et s) (hset : s.Settled et (.passEnds tradingDay)) :
    Sound et (s.passEnds sch et tradingDay) where
  dispatched := hs.dispatched
  rows := hs.rows
  handled := fun f h => (hs.handled f h).imp_right State.Known.passEnds
  tasks := by
    unfold State.passEnds
    dsimp only
    rw [List.map_append, List.map_map, List.nodup_append]
    have hid : (Task.fire ∘ fun f => (⟨f, .created⟩ : Task)) = id := rfl
    rw [hid, List.map_id]
    refine ⟨hs.tasks, Schedule.nodup_due, ?_⟩
    intro a ha b hb hab
    exact (hs.due_new hset hb).2 (hab ▸ ha)
  task := fun t ht => by
    rcases List.mem_append.mp ht with ht | ht
    · exact ⟨(hs.task t ht).1.passEnds, (hs.task t ht).2⟩
    · obtain ⟨f, hf, rfl⟩ := List.mem_map.mp ht
      have hnew := (hs.due_new hset hf).1
      exact ⟨.inl (Schedule.due_has.mpr (.inr hf)), fun _ h => hnew (.inl h),
        fun _ h => hnew (.inr h)⟩
  todo := fun f hf => by cases hf
  recording := fun f todo h => by cases h

/-! ## The tasks -/

theorem Sound.erase_ne (hs : Sound et s) (hf : ⟨f, x⟩ ∈ s.tasks) {t : Task}
    (ht : t ∈ s.tasks.erase ⟨f, x⟩) : t.fire ≠ f := by
  have hp := (List.perm_cons_erase hf).map Task.fire
  have hn := hp.nodup_iff.mp hs.tasks
  rw [List.map_cons, List.nodup_cons] at hn
  intro h
  exact hn.1 (List.mem_map.mpr ⟨t, ht, h⟩)

/-- The loop and a task are never at one fire. -/
theorem Sound.recording_ne (hs : Sound et s) {t : Task} (ht : t ∈ s.tasks) {todo : List Fire}
    (hl : s.loop = .recording f todo) : f ≠ t.fire := by
  have hf : f ∈ s.loop.todo := by
    rw [hl]
    exact List.mem_cons_self
  intro h
  exact (hs.todo f hf).2 (List.mem_map.mpr ⟨t, ht, h.symm⟩)

theorem Sound.dropTask (hs : Sound et s) : Sound et (s.dropTask f x) where
  dispatched := hs.dispatched
  rows := hs.rows
  handled := hs.handled
  tasks := hs.tasks.sublist ((List.erase_sublist).map _)
  task := fun t ht => hs.task t (List.mem_of_mem_erase ht)
  todo := fun f hf => ⟨(hs.todo f hf).1, fun h => (hs.todo f hf).2
    (((List.erase_sublist).map _).subset h)⟩
  recording := hs.recording

theorem Sound.moveTask (hs : Sound et s) (hf : ⟨f, x⟩ ∈ s.tasks)
    (hlock : ¬ y.HoldsLock → ¬ x.HoldsLock) (hrec : y ≠ .recorded → x ≠ .recorded) :
    Sound et (s.moveTask f x y) := by
  have hp : ((s.moveTask f x y).tasks.map Task.fire).Perm (s.tasks.map Task.fire) :=
    ((List.perm_cons_erase hf).map Task.fire).symm
  refine { hs with tasks := hp.nodup_iff.mpr hs.tasks, task := ?_, todo := ?_ }
  · intro t ht
    rcases List.mem_cons.mp ht with rfl | ht
    · obtain ⟨hk, hd, hr⟩ := hs.task _ hf
      exact ⟨hk, fun h => hd (hlock h), fun h => hr (hrec h)⟩
    · exact hs.task t (List.mem_of_mem_erase ht)
  · intro g hg
    exact ⟨(hs.todo g hg).1, fun h => (hs.todo g hg).2 (hp.subset h)⟩

theorem Sound.dispatch (hs : Sound et s) (hf : ⟨f, .created⟩ ∈ s.tasks) :
    Sound et { s.moveTask f .created .dispatched with dispatched := f :: s.dispatched } := by
  obtain ⟨hk, hd, _⟩ := hs.task _ hf
  have hs₁ : Sound et (s.moveTask f .created .dispatched) :=
    hs.moveTask hf (fun _ h => h) fun _ h => by cases h
  refine { hs₁ with dispatched := List.nodup_cons.mpr ⟨hd id, hs.dispatched⟩,
                    handled := ?_, task := ?_ }
  · intro g hg
    rcases hg with hg | hg
    · rcases List.mem_cons.mp hg with rfl | hg
      · exact .inr hk
      · exact hs.handled g (.inl hg)
    · exact hs.handled g (.inr hg)
  · intro t ht
    refine ⟨(hs₁.task t ht).1, fun hno hmem => ?_, (hs₁.task t ht).2.2⟩
    rcases List.mem_cons.mp hmem with htf | hmem
    · rcases List.mem_cons.mp ht with rfl | ht
      · exact hno trivial
      · exact hs.erase_ne hf ht htf
    · exact (hs₁.task t ht).2.1 hno hmem

theorem Sound.taskBegins (hs : Sound et s) (hf : ⟨f, .created⟩ ∈ s.tasks) :
    Sound et (s.taskBegins f) := by
  unfold State.taskBegins
  split
  · exact hs.moveTask hf (fun _ h => h) fun _ h => by cases h
  · exact hs.dispatch hf

/-- A task that is through with its fire writes its row. -/
theorem Sound.skipEnds (hs : Sound et s) (hf : ⟨f, .skipping⟩ ∈ s.tasks) (r : Option Instant) :
    Sound et (r.elim (s.dropTask f .skipping) fun now =>
      (s.dropTask f .skipping).recordJobRun ⟨f, now, .noop⟩) := by
  obtain ⟨hk, _, hr⟩ := hs.task _ hf
  cases r with
  | none => exact hs.dropTask
  | some now =>
    refine hs.dropTask.record (hr fun h => by cases h) hk ?_ ?_
    · intro t ht htf
      exact absurd htf (hs.erase_ne hf ht)
    · intro g todo hl
      exact hs.recording_ne hf hl

theorem Sound.runEnds (hs : Sound et s) (hf : ⟨f, .dispatched⟩ ∈ s.tasks)
    (r : Option (Verdict × Instant)) :
    Sound et (r.elim (s.moveTask f .dispatched .recorded) fun r =>
      (s.moveTask f .dispatched .recorded).recordJobRun ⟨f, r.2, r.1⟩) := by
  obtain ⟨hk, _, hr⟩ := hs.task _ hf
  have hs₁ : Sound et (s.moveTask f .dispatched .recorded) :=
    hs.moveTask hf (fun h => absurd trivial h) fun h => absurd rfl h
  cases r with
  | none => exact hs₁
  | some r =>
    refine hs₁.record (hr fun h => by cases h) hk ?_ ?_
    · intro t ht htf
      rcases List.mem_cons.mp ht with rfl | ht
      · rfl
      · exact absurd htf (hs.erase_ne hf ht)
    · intro g todo hl
      exact hs.recording_ne hf hl

theorem Sound.restart (hs : Sound et s) (window : Option Date) : Sound et (s.restart window) where
  dispatched := hs.dispatched
  rows := hs.rows
  handled := fun _ h => .inl (List.mem_append.mpr h)
  tasks := List.nodup_nil
  task := fun t h => by cases h
  todo := fun f h => by cases h
  recording := fun f todo h => by cases h

/-! ## Runs -/

/-- One step keeps the invariant. -/
theorem Sound.step {a : Act} (hs : Sound et s) (hset : s.Settled et a)
    (h : s.step sch et a = some s') : Sound et s' := by
  cases a with
  | passBegins now tradingDay =>
    obtain ⟨⟨_, hlast⟩, h⟩ := Option.ite_none_right_eq_some.mp h
    cases h
    exact hs.passBegins hlast
  | looksUp =>
    have h : s.looksUp = some s' := h
    unfold State.looksUp at h
    split at h
    next hl =>
      cases h
      exact hs.looksUp hl
    · cases h
  | writesMissed =>
    have h : s.writesMissed et = some s' := h
    unfold State.writesMissed at h
    split at h
    next hl =>
      cases h
      exact hs.writesMissed hl
    · cases h
  | passEnds tradingDay =>
    obtain ⟨_, h⟩ := Option.ite_none_right_eq_some.mp h
    cases h
    exact hs.passEnds hset
  | passFails =>
    cases h
    exact hs.loop (fun _ hf => by cases hf) (fun _ _ hl => by cases hl)
  | taskBegins f =>
    obtain ⟨hf, h⟩ := Option.ite_none_right_eq_some.mp h
    cases h
    exact hs.taskBegins hf
  | skipEnds f written =>
    obtain ⟨hf, h⟩ := Option.ite_none_right_eq_some.mp h
    cases h
    exact hs.skipEnds hf written
  | runEnds f written =>
    obtain ⟨hf, h⟩ := Option.ite_none_right_eq_some.mp h
    cases h
    exact hs.runEnds hf written
  | lockFreed f =>
    obtain ⟨_, h⟩ := Option.ite_none_right_eq_some.mp h
    cases h
    exact hs.dropTask
  | taskFails f =>
    obtain ⟨_, h⟩ := Option.ite_none_right_eq_some.mp h
    cases h
    exact hs.dropTask
  | restart window =>
    cases h
    exact hs.restart window

theorem Run.sound (hrun : Run sch et (State.Settled et) s) : Sound et s := by
  induction hrun with
  | fresh window now => exact .fresh window now
  | step _ hset h ih => exact ih.step hset h

theorem Run.play {ok : State → Act → Prop} [∀ s, DecidablePred (ok s)] {acts : List Act}
    (hrun : Run sch et ok s) (h : s.play sch et ok acts = some s') : Run sch et ok s' := by
  induction acts generalizing s with
  | nil =>
    cases h
    exact hrun
  | cons a as ih =>
    obtain ⟨hok, h⟩ := Option.ite_none_right_eq_some.mp h
    obtain ⟨s₁, h₁, h⟩ := Option.bind_eq_some_iff.mp h
    exact ih (hrun.step hok h₁) h

/-- **A job is fired once**, whatever the schedule, and over any restarts:
where no pass of a process finds due a fire that an earlier process ran or
wrote a row for, each fire is run once at most and has one row at most. -/
theorem jobs_once (sch : Schedule) (et : Zone) (s : State)
    (hrun : Run sch et (State.Settled et) s) : s.OnceEach := by
  intro f
  have hs := hrun.sound
  exact ⟨List.nodup_iff_count_le_one.mp hs.dispatched f,
    List.nodup_iff_count_le_one.mp hs.rows f⟩

/-- Thursday's close. -/
def thursdayClose : Fire := ⟨"session_close", wall thursday (clockTime 16 4)⟩

/-- The close is run at 16:04:10 and the engine restarted; the new process
makes its first pass at 16:06. -/
def restartedLate : List Act :=
  let now := daylight.combine thursday (clockTime 16 4)
  [.passBegins (now + 10 * second) fun _ => true, .passEnds fun _ => true,
    .taskBegins thursdayClose, .runEnds thursdayClose (some (.done, now + 20 * second)),
    .lockFreed thursdayClose, .restart (some thursday),
    .passBegins (now + 120 * second) fun _ => true, .looksUp, .passEnds fun _ => true]

theorem jobs_once_restarted :
    ∃ s, (State.fresh (some thursday) (daylight.combine thursday (clockTime 16 0))).play closing
        daylight (State.Settled daylight) restartedLate = some s ∧ s.OnceEach := by
  have hplay : ((State.fresh (some thursday) (daylight.combine thursday (clockTime 16 0))).play
      closing daylight (State.Settled daylight) restartedLate).isSome = true := by decide +kernel
  obtain ⟨s, hs⟩ := Option.isSome_iff_exists.mp hplay
  exact ⟨s, hs, jobs_once closing daylight s ((Run.fresh _ _).play hs)⟩

/-- The close is begun at 16:04:10, the engine restarted, and the new process
makes its first pass at 16:04:30. -/
def restartedAtOnce : List Act :=
  let now := daylight.combine thursday (clockTime 16 4)
  [.passBegins (now + 10 * second) fun _ => true, .passEnds fun _ => true,
    .taskBegins thursdayClose, .restart (some thursday),
    .passBegins (now + 30 * second) fun _ => true, .passEnds fun _ => true,
    .taskBegins thursdayClose]

/-- **A job fired twice**: the close is dispatched by both processes. -/
theorem close_fired_twice :
    ∃ s, Run closing daylight (fun _ _ => True) s ∧ ¬ s.OnceEach := by
  have hplay : (((State.fresh (some thursday) (daylight.combine thursday (clockTime 16 0))).play
      closing daylight (fun _ _ => True) restartedAtOnce).map
        fun s => s.dispatched.count thursdayClose) = some 2 := by decide +kernel
  obtain ⟨s, hs, htwice⟩ := Option.map_eq_some_iff.mp hplay
  refine ⟨s, (Run.fresh _ _).play hs, ?_⟩
  intro h
  have := (h thursdayClose).1
  omega

end TradeDesk.Engine
