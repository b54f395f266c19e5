import TradeDesk.Clock
import Mathlib.Data.Finset.Image
import Mathlib.Data.List.Nodup
import Mathlib.Data.List.Count
import Mathlib.Tactic.Linarith
import Mathlib.Tactic.Ring

/-!
# The schedule

A schedule is a list of jobs, each with the Eastern times of day it fires
at. A fire is due in the minute it names; one the engine slept through is
reported as missed and never run late. What has been run and what has been
missed is kept in two sets in memory, pruned at the turn of the day.

A fire's `at` is an Eastern datetime, and so is the `now` it is compared
with after `astimezone`. Python compares two datetimes of one zone by what
the clock on the wall reads and nothing else, so a wall clock is an integer
here, microseconds of the reading since 1970-01-01 00:00: in the hour the
clocks repeat, two instants have one reading.
-/

namespace TradeDesk.Engine

/-- What the clock on the wall reads at a time of day. -/
def wall (d t : ℤ) : ℤ := d * dayLength + t

/-- `now.astimezone(ET)`, as it is compared. -/
def easternWall (et : Zone) (now : Instant) : ℤ := wall (et.date now) (et.time now)

def grace : ℤ := 59 * second

/-- One time a job is to run at. -/
structure Fire where
  job : String
  at_ : ℤ
deriving DecidableEq, Repr

/-- `at.date()`. -/
def Fire.date (f : Fire) : ℤ := f.at_ / dayLength

/-- The instant a fire names. -/
def Fire.instant (et : Zone) (f : Fire) : Instant := et.combine f.date (f.at_ % dayLength)

inductive Days where
  | weekdays | daily | sat | sun
deriving DecidableEq, Repr

/-- What `parse` lets through: times of day written `HH:MM`, the end not
before the start. `everyMin` is 0 for a single fire at `start`. -/
structure ScheduleSpec where
  days : Days
  start : ℤ
  stop : ℤ
  everyMin : ℕ
  start_nonneg : 0 ≤ start
  start_le : start ≤ stop
  stop_le : stop ≤ clockTime 23 59

def ScheduleSpec.dayMatches (s : ScheduleSpec) (tradingDay : Date → Bool) (d : Date) : Bool :=
  match s.days with
  | .daily => true
  | .sat => weekday d == 5
  | .sun => weekday d == 6
  | .weekdays => weekday d < 5 && tradingDay d

/-- `while t <= last: out.append(t); t += step`, for so many turns at most. -/
def countUp (step last : ℤ) : ℕ → ℤ → List ℤ
  | 0, _ => []
  | n + 1, t => if t ≤ last then t :: countUp step last n (t + step) else []

def ScheduleSpec.firesOn (s : ScheduleSpec) (tradingDay : Date → Bool) (d : Date) : List ℤ :=
  if s.dayMatches tradingDay d then
    let first := wall d s.start
    if s.everyMin = 0 then [first]
    else countUp (s.everyMin * minute) (wall d s.stop) (((s.stop - s.start) / minute).toNat + 1) first
  else []

/-- `Scheduler.specs`: a dict, so no job has two. -/
structure Schedule where
  specs : List (String × ScheduleSpec)
  nodup : (specs.map Prod.fst).Nodup

/-- `Scheduler._fires`. -/
def Schedule.fires (sch : Schedule) (tradingDay : Date → Bool) (d : Date) : List Fire :=
  sch.specs.flatMap fun js => (js.2.firesOn tradingDay d).map (Fire.mk js.1)

/-! ## The two sets -/

/-- What the scheduler remembers of the fires it has handed out. -/
structure Marks where
  fired : Finset Fire
  missed : Finset Fire
deriving DecidableEq

def Marks.none : Marks := ⟨∅, ∅⟩

/-- In `_fired` or in `_missed`. -/
def Marks.Has (m : Marks) (f : Fire) : Prop := f ∈ m.fired ∨ f ∈ m.missed

instance (m : Marks) (f : Fire) : Decidable (m.Has f) := inferInstanceAs (Decidable (_ ∨ _))

def Marks.fire (m : Marks) (f : Fire) : Marks := { m with fired := insert f m.fired }
def Marks.miss (m : Marks) (f : Fire) : Marks := { m with missed := insert f m.missed }

/-- The loop of `due` and of `mark_missed`: each fire that is `ready` and in
neither set is marked and handed out. -/
def Marks.sweep (ready : Fire → Prop) [DecidablePred ready] (mark : Marks → Fire → Marks) :
    List Fire → Marks → List Fire × Marks
  | [], m => ([], m)
  | f :: fs, m =>
    if ready f ∧ ¬ m.Has f then
      let r := sweep ready mark fs (mark m f)
      (f :: r.1, r.2)
    else sweep ready mark fs m

/-- `f.at <= now <= f.at + GRACE`. -/
def Fire.Ready (now : ℤ) (f : Fire) : Prop := f.at_ ≤ now ∧ now ≤ f.at_ + grace

/-- `f.at + GRACE < now`. -/
def Fire.Late (now : ℤ) (f : Fire) : Prop := f.at_ + grace < now

instance (now : ℤ) : DecidablePred (Fire.Ready now) := fun _ =>
  inferInstanceAs (Decidable (_ ∧ _))
instance (now : ℤ) : DecidablePred (Fire.Late now) := fun _ => inferInstanceAs (Decidable (_ < _))

/-- `Scheduler.due`: what is handed out, and the marks after. -/
def Schedule.due (sch : Schedule) (et : Zone) (tradingDay : Date → Bool) (now : Instant)
    (m : Marks) : List Fire × Marks :=
  m.sweep (Fire.Ready (easternWall et now)) Marks.fire (sch.fires tradingDay (et.date now))

/-- `Scheduler.mark_missed`. -/
def Schedule.markMissed (sch : Schedule) (et : Zone) (tradingDay : Date → Bool) (now : Instant)
    (m : Marks) : List Fire × Marks :=
  m.sweep (Fire.Late (easternWall et now)) Marks.miss (sch.fires tradingDay (et.date now))

/-- `Scheduler.prune`: the marks of the days before are forgotten. -/
def Marks.prune (m : Marks) (before : Date) : Marks :=
  ⟨m.fired.filter fun f => before ≤ f.date, m.missed.filter fun f => before ≤ f.date⟩

/-! ## The fires of a day -/

theorem mem_countUp {step last : ℤ} (hstep : 0 < step) {n : ℕ} {t w : ℤ} :
    w ∈ countUp step last n t ↔ ∃ k : ℕ, k < n ∧ w = t + k * step ∧ w ≤ last := by
  induction n generalizing t with
  | zero => simp [countUp]
  | succ n ih =>
    unfold countUp
    split
    next ht =>
      rw [List.mem_cons, ih]
      constructor
      · intro h
        rcases h with rfl | ⟨k, hk, rfl, hle⟩
        · exact ⟨0, by omega, by simp, ht⟩
        · exact ⟨k + 1, by omega, by push_cast; ring, hle⟩
      · intro h
        obtain ⟨k, hk, rfl, hle⟩ := h
        cases k with
        | zero => exact .inl (by simp)
        | succ k => exact .inr ⟨k, by omega, by push_cast; ring, hle⟩
    next ht =>
      constructor
      · intro h
        cases h
      · intro h
        obtain ⟨k, _, rfl, hle⟩ := h
        have : 0 ≤ (k : ℤ) * step := mul_nonneg (Int.natCast_nonneg k) hstep.le
        omega

theorem nodup_countUp {step last : ℤ} (hstep : 0 < step) {n : ℕ} {t : ℤ} :
    (countUp step last n t).Nodup := by
  induction n generalizing t with
  | zero => exact List.nodup_nil
  | succ n ih =>
    unfold countUp
    split
    next ht =>
      rw [List.nodup_cons]
      refine ⟨?_, ih⟩
      intro hmem
      obtain ⟨k, _, hk, _⟩ := (mem_countUp hstep).mp hmem
      have : 0 ≤ (k : ℤ) * step := mul_nonneg (Int.natCast_nonneg k) hstep.le
      omega
    next => exact List.nodup_nil

theorem minute_pos : 0 < minute := by decide

theorem everyMin_step {n : ℕ} (h : n ≠ 0) : minute ≤ (n : ℤ) * minute := by
  have : (1 : ℤ) ≤ n := by omega
  nlinarith [minute_pos]

/-- **The fires of a job on a day**: from `start`, every `everyMin` minutes,
up to `stop`. The turns the loop is given are enough. -/
theorem ScheduleSpec.mem_firesOn {s : ScheduleSpec} {tradingDay : Date → Bool} {d w : ℤ} :
    w ∈ s.firesOn tradingDay d ↔ s.dayMatches tradingDay d = true ∧
      ∃ k : ℕ, w = wall d s.start + k * (s.everyMin * minute) ∧ w ≤ wall d s.stop := by
  have hstart := s.start_le
  unfold ScheduleSpec.firesOn
  split
  next hday =>
    simp only [hday, true_and]
    split
    next h0 =>
      rw [List.mem_singleton]
      constructor
      · intro h
        exact ⟨0, by simp [h], by unfold wall at *; omega⟩
      · intro h
        obtain ⟨k, rfl, _⟩ := h
        simp [h0]
    next h0 =>
      have hm := everyMin_step h0
      have hpos := minute_pos
      rw [mem_countUp (by omega)]
      constructor
      · intro h
        obtain ⟨k, _, hk⟩ := h
        exact ⟨k, hk⟩
      · intro h
        obtain ⟨k, hw, hle⟩ := h
        refine ⟨k, ?_, hw, hle⟩
        have hk : (k : ℤ) * minute ≤ s.stop - s.start := by
          have : (k : ℤ) * minute ≤ k * (s.everyMin * minute) :=
            mul_le_mul_of_nonneg_left hm (Int.natCast_nonneg k)
          unfold wall at *
          omega
        have := (Int.le_ediv_iff_mul_le hpos).mpr hk
        omega
  next hday =>
    constructor
    · intro h
      cases h
    · intro h
      exact absurd h.1 hday

theorem ScheduleSpec.nodup_firesOn {s : ScheduleSpec} {tradingDay : Date → Bool} {d : ℤ} :
    (s.firesOn tradingDay d).Nodup := by
  unfold ScheduleSpec.firesOn
  split
  · split
    · exact List.nodup_singleton _
    next h0 => exact nodup_countUp (by have := everyMin_step h0; have := minute_pos; omega)
  · exact List.nodup_nil

theorem Schedule.mem_fires {sch : Schedule} {tradingDay : Date → Bool} {d : ℤ} {f : Fire} :
    f ∈ sch.fires tradingDay d ↔
      ∃ s, (f.job, s) ∈ sch.specs ∧ f.at_ ∈ s.firesOn tradingDay d := by
  unfold Schedule.fires
  rw [List.mem_flatMap]
  constructor
  · intro h
    obtain ⟨⟨j, s⟩, hjs, hf⟩ := h
    obtain ⟨w, hw, rfl⟩ := List.mem_map.mp hf
    exact ⟨s, hjs, hw⟩
  · intro h
    obtain ⟨s, hs, hw⟩ := h
    exact ⟨(f.job, s), hs, List.mem_map.mpr ⟨f.at_, hw, rfl⟩⟩

/-- The fires of a day are of that day. -/
theorem Schedule.fires_date {sch : Schedule} {tradingDay : Date → Bool} {d : ℤ} {f : Fire}
    (hf : f ∈ sch.fires tradingDay d) : f.date = d := by
  obtain ⟨s, _, hw⟩ := Schedule.mem_fires.mp hf
  obtain ⟨_, k, hk, hle⟩ := ScheduleSpec.mem_firesOn.mp hw
  have hn := s.start_nonneg
  have hstop : s.stop < dayLength := lt_of_le_of_lt s.stop_le (by decide)
  have hkn : 0 ≤ (k : ℤ) * (s.everyMin * minute) :=
    mul_nonneg (Int.natCast_nonneg k) (mul_nonneg (Int.natCast_nonneg _) minute_pos.le)
  have hday : 0 < dayLength := by decide
  unfold wall at *
  unfold Fire.date
  have hlo : d ≤ f.at_ / dayLength := (Int.le_ediv_iff_mul_le hday).mpr (by omega)
  have hhi : f.at_ / dayLength < d + 1 := (Int.ediv_lt_iff_lt_mul hday).mpr (by
    rw [add_mul, one_mul]
    omega)
  omega

theorem Schedule.nodup_fires {sch : Schedule} {tradingDay : Date → Bool} {d : ℤ} :
    (sch.fires tradingDay d).Nodup := by
  unfold Schedule.fires
  rw [List.nodup_flatMap]
  refine ⟨fun js _ => ?_, ?_⟩
  · refine ScheduleSpec.nodup_firesOn.map ?_
    intro a b hab
    exact (Fire.mk.inj hab).2
  · refine (List.pairwise_map.mp sch.nodup).imp ?_
    intro a b hab f hfa hfb
    obtain ⟨_, _, rfl⟩ := List.mem_map.mp hfa
    obtain ⟨_, _, hf⟩ := List.mem_map.mp hfb
    exact hab (Fire.mk.inj hf).1.symm

/-! ## What the sets do -/

theorem Marks.has_fire {m : Marks} {f g : Fire} : (m.fire f).Has g ↔ g = f ∨ m.Has g := by
  unfold Marks.Has Marks.fire
  simp only [Finset.mem_insert]
  tauto

theorem Marks.has_miss {m : Marks} {f g : Fire} : (m.miss f).Has g ↔ g = f ∨ m.Has g := by
  unfold Marks.Has Marks.miss
  simp only [Finset.mem_insert]
  tauto

@[simp] theorem Marks.has_prune {m : Marks} {d : Date} {f : Fire} :
    (m.prune d).Has f ↔ m.Has f ∧ d ≤ f.date := by
  unfold Marks.Has Marks.prune
  simp only [Finset.mem_filter]
  tauto

section Sweep

variable {ready : Fire → Prop} [DecidablePred ready] {mark : Marks → Fire → Marks}

/-- What a sweep hands out: the ready fires that are not marked yet. -/
theorem Marks.sweep_fst (hmark : ∀ m f g, (mark m f).Has g ↔ g = f ∨ m.Has g) :
    ∀ {fs : List Fire} {m : Marks}, fs.Nodup →
      (m.sweep ready mark fs).1 = fs.filter fun f => ready f ∧ ¬ m.Has f := by
  intro fs
  induction fs with
  | nil => intro m _; rfl
  | cons f fs ih =>
    intro m hfs
    rw [List.nodup_cons] at hfs
    unfold Marks.sweep
    rw [List.filter_cons]
    by_cases h : ready f ∧ ¬ m.Has f
    · rw [if_pos h, decide_eq_true h, if_pos rfl]
      dsimp only
      rw [ih hfs.2]
      congr 1
      refine List.filter_congr ?_
      intro g hg
      -- no later fire is the one just marked
      have hne : g ≠ f := fun he => hfs.1 (he ▸ hg)
      simp [hmark, hne]
    · rw [if_neg h, ih hfs.2, decide_eq_false h, if_neg (by simp)]

/-- What a sweep remembers: what it did before, and what it hands out. -/
theorem Marks.sweep_has (hmark : ∀ m f g, (mark m f).Has g ↔ g = f ∨ m.Has g) {g : Fire} :
    ∀ {fs : List Fire} {m : Marks},
      (m.sweep ready mark fs).2.Has g ↔ m.Has g ∨ g ∈ (m.sweep ready mark fs).1 := by
  intro fs
  induction fs with
  | nil => intro m; simp [Marks.sweep]
  | cons f fs ih =>
    intro m
    unfold Marks.sweep
    split
    · rw [ih, hmark, List.mem_cons]
      tauto
    · exact ih

end Sweep

variable {sch : Schedule} {et : Zone} {tradingDay : Date → Bool} {now : Instant} {m : Marks}
  {f : Fire}

theorem Schedule.due_fst : (sch.due et tradingDay now m).1 =
    (sch.fires tradingDay (et.date now)).filter fun f =>
      f.Ready (easternWall et now) ∧ ¬ m.Has f :=
  Marks.sweep_fst (fun _ _ _ => Marks.has_fire) Schedule.nodup_fires

theorem Schedule.markMissed_fst : (sch.markMissed et tradingDay now m).1 =
    (sch.fires tradingDay (et.date now)).filter fun f =>
      f.Late (easternWall et now) ∧ ¬ m.Has f :=
  Marks.sweep_fst (fun _ _ _ => Marks.has_miss) Schedule.nodup_fires

@[simp] theorem Schedule.due_has : (sch.due et tradingDay now m).2.Has f ↔
    m.Has f ∨ f ∈ (sch.due et tradingDay now m).1 :=
  Marks.sweep_has fun _ _ _ => Marks.has_fire

@[simp] theorem Schedule.markMissed_has : (sch.markMissed et tradingDay now m).2.Has f ↔
    m.Has f ∨ f ∈ (sch.markMissed et tradingDay now m).1 :=
  Marks.sweep_has fun _ _ _ => Marks.has_miss

theorem Schedule.mem_due : f ∈ (sch.due et tradingDay now m).1 ↔
    f ∈ sch.fires tradingDay (et.date now) ∧ f.Ready (easternWall et now) ∧ ¬ m.Has f := by
  rw [Schedule.due_fst, List.mem_filter]
  simp

theorem Schedule.mem_markMissed : f ∈ (sch.markMissed et tradingDay now m).1 ↔
    f ∈ sch.fires tradingDay (et.date now) ∧ f.Late (easternWall et now) ∧ ¬ m.Has f := by
  rw [Schedule.markMissed_fst, List.mem_filter]
  simp

theorem Schedule.nodup_due : (sch.due et tradingDay now m).1.Nodup := by
  rw [Schedule.due_fst]
  exact Schedule.nodup_fires.filter _

theorem Schedule.nodup_markMissed : (sch.markMissed et tradingDay now m).1.Nodup := by
  rw [Schedule.markMissed_fst]
  exact Schedule.nodup_fires.filter _

end TradeDesk.Engine
