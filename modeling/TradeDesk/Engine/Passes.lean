import TradeDesk.Engine.Scheduler

/-!
# The passes of one process

Every second the engine makes a pass: at the turn of the Eastern day the
sets are pruned, then the fires that are late are marked missed and the
ones that are ready are handed out to run. A pass looks at the fires of its
own Eastern date only, so a fire is found by the first pass of its date at
or after its reading of the clock, and by none when there is no such pass:
a process that sleeps from before a fire until after midnight never
mentions it.
-/

namespace TradeDesk.Engine

/-- What a process remembers between passes: the marks, and the date of the
market window it holds. -/
structure Memory where
  marks : Marks
  window : Option Date

/-- `if window is None or window.date != today`: the window is refreshed and
the marks are pruned. -/
def Memory.turn (mem : Memory) (today : Date) : Memory :=
  if mem.window = some today then mem else ⟨mem.marks.prune today, some today⟩

/-- What one pass reports. -/
structure Pass where
  now : Instant
  missed : List Fire
  due : List Fire

/-- `Engine._pass`: what it reports and what is remembered. -/
def Schedule.pass (sch : Schedule) (et : Zone) (tradingDay : Date → Bool) (now : Instant)
    (mem : Memory) : Pass × Memory :=
  let mem := mem.turn (et.date now)
  let missed := sch.markMissed et tradingDay now mem.marks
  let due := sch.due et tradingDay now missed.2
  (⟨now, missed.1, due.1⟩, { mem with marks := due.2 })

def Schedule.passes (sch : Schedule) (et : Zone) (tradingDay : Date → Bool) :
    List Instant → Memory → List Pass
  | [], _ => []
  | now :: later, mem =>
    let r := sch.pass et tradingDay now mem
    r.1 :: sch.passes et tradingDay later r.2

def timesDue (f : Fire) (ps : List Pass) : ℕ := (ps.flatMap Pass.due).count f
def timesMissed (f : Fire) (ps : List Pass) : ℕ := (ps.flatMap Pass.missed).count f

/-- Within the grace period after the instant the fire names. -/
def Fire.InGrace (et : Zone) (f : Fire) (now : Instant) : Prop :=
  f.instant et ≤ now ∧ now ≤ f.instant et + grace

instance (et : Zone) (f : Fire) (now : Instant) : Decidable (f.InGrace et now) :=
  inferInstanceAs (Decidable (_ ∧ _))

/-- Handed out once and in time, or reported as missed once, and not both. -/
def Accounted (et : Zone) (f : Fire) (ps : List Pass) : Prop :=
  (timesDue f ps = 1 ∧ timesMissed f ps = 0 ∧ ∀ p ∈ ps, f ∈ p.due → f.InGrace et p.now) ∨
    (timesMissed f ps = 1 ∧ timesDue f ps = 0)

instance (et : Zone) (f : Fire) (ps : List Pass) : Decidable (Accounted et f ps) :=
  inferInstanceAs (Decidable (_ ∨ _))

/-- A fire after the first pass, and more than the grace period before the
last. -/
def Fire.Within (et : Zone) (f : Fire) (times : List Instant) : Prop :=
  (∃ t ∈ times.head?, t < f.instant et) ∧ ∃ t ∈ times.getLast?, f.instant et + grace < t

/-- A pass at `now` finds the fire: it is of the pass's date, and the clock
has reached it. -/
def Fire.Reached (et : Zone) (f : Fire) (now : Instant) : Prop :=
  et.date now = f.date ∧ f.at_ ≤ easternWall et now

instance (et : Zone) (f : Fire) : DecidablePred (f.Reached et) := fun _ =>
  inferInstanceAs (Decidable (_ ∧ _))

/-- Some pass is made on the fire's date once the clock has reached it, and
the first of them, if the clock still reads within the grace period, is not
in the repeat of the hour. -/
def Fire.ReachedInTime (et : Zone) (f : Fire) (times : List Instant) : Prop :=
  ∃ now, times.find? (f.Reached et ·) = some now ∧
    (f.Ready (easternWall et now) → f.InGrace et now)

/-! ## One pass -/

variable {sch : Schedule} {et : Zone} {tradingDay : Date → Bool} {now : Instant} {d : ℤ}
  {mem : Memory} {f : Fire} {times : List Instant}

theorem Memory.turn_of_le (h : et.date now ≤ f.date) :
    (mem.turn (et.date now)).marks.Has f ↔ mem.marks.Has f := by
  unfold Memory.turn
  split
  · rfl
  · rw [Marks.has_prune, and_iff_left h]

theorem Memory.turn_has (h : (mem.turn (et.date now)).marks.Has f) : mem.marks.Has f := by
  unfold Memory.turn at h
  split at h
  · exact h
  · exact (Marks.has_prune.mp h).1

/-- A fire that is on the schedule is looked at on its date and no other. -/
theorem Schedule.mem_fires_date (hf : f ∈ sch.fires tradingDay d) {e : ℤ} :
    f ∈ sch.fires tradingDay e ↔ e = f.date := by
  have hd := Schedule.fires_date hf
  constructor
  · intro h
    exact (Schedule.fires_date h).symm
  · intro h
    rwa [h, hd]

theorem Fire.not_late_of_ready {w : ℤ} (h : f.Ready w) : ¬ f.Late w := by
  unfold Fire.Ready at h
  unfold Fire.Late
  omega

theorem Fire.ready_or_late {w : ℤ} (h : f.at_ ≤ w) : f.Ready w ∨ f.Late w := by
  unfold Fire.Ready Fire.Late
  omega

theorem Fire.at_le_of_late {w : ℤ} (h : f.Late w) : f.at_ ≤ w := by
  have hg : (0 : ℤ) ≤ grace := by decide
  unfold Fire.Late at h
  omega

theorem Schedule.mem_pass_missed (hf : f ∈ sch.fires tradingDay d) :
    f ∈ (sch.pass et tradingDay now mem).1.missed ↔
      et.date now = f.date ∧ f.Late (easternWall et now) ∧ ¬ mem.marks.Has f := by
  unfold Schedule.pass
  dsimp only
  rw [Schedule.mem_markMissed, Schedule.mem_fires_date hf]
  refine and_congr_right fun hd => and_congr_right fun _ => not_congr ?_
  exact Memory.turn_of_le hd.le

theorem Schedule.mem_pass_due (hf : f ∈ sch.fires tradingDay d) :
    f ∈ (sch.pass et tradingDay now mem).1.due ↔
      et.date now = f.date ∧ f.Ready (easternWall et now) ∧ ¬ mem.marks.Has f := by
  unfold Schedule.pass
  dsimp only
  rw [Schedule.mem_due, Schedule.mem_fires_date hf]
  refine and_congr_right fun hd => and_congr_right fun hr => not_congr ?_
  rw [Schedule.markMissed_has, Schedule.mem_markMissed, Memory.turn_of_le hd.le]
  exact or_iff_left fun h => Fire.not_late_of_ready hr h.2.1

theorem Schedule.pass_has : (sch.pass et tradingDay now mem).2.marks.Has f ↔
    (mem.turn (et.date now)).marks.Has f ∨ f ∈ (sch.pass et tradingDay now mem).1.missed ∨
      f ∈ (sch.pass et tradingDay now mem).1.due := by
  unfold Schedule.pass
  dsimp only
  rw [Schedule.due_has, Schedule.markMissed_has, or_assoc]

/-- What one pass does with a fire that is not marked. -/
theorem Schedule.pass_reached (hf : f ∈ sch.fires tradingDay d) (hno : ¬ mem.marks.Has f) :
    f.Reached et now ↔ f ∈ (sch.pass et tradingDay now mem).1.missed ∨
      f ∈ (sch.pass et tradingDay now mem).1.due := by
  rw [Schedule.mem_pass_missed hf, Schedule.mem_pass_due hf]
  unfold Fire.Reached
  constructor
  · intro h
    rcases Fire.ready_or_late h.2 with hr | hl
    · exact .inr ⟨h.1, hr, hno⟩
    · exact .inl ⟨h.1, hl, hno⟩
  · intro h
    rcases h with ⟨hd, hl, _⟩ | ⟨hd, hr, _⟩
    · exact ⟨hd, Fire.at_le_of_late hl⟩
    · exact ⟨hd, hr.1⟩

theorem Schedule.nodup_pass :
    (sch.pass et tradingDay now mem).1.missed.Nodup ∧
      (sch.pass et tradingDay now mem).1.due.Nodup :=
  ⟨Schedule.nodup_markMissed, Schedule.nodup_due⟩

theorem timesDue_cons (p : Pass) (ps : List Pass) (f : Fire) :
    timesDue f (p :: ps) = p.due.count f + timesDue f ps := by
  unfold timesDue
  rw [List.flatMap_cons, List.count_append]

theorem timesMissed_cons (p : Pass) (ps : List Pass) (f : Fire) :
    timesMissed f (p :: ps) = p.missed.count f + timesMissed f ps := by
  unfold timesMissed
  rw [List.flatMap_cons, List.count_append]

/-! ## All passes -/

/-- A fire that is marked whenever its date comes is not mentioned again. -/
theorem Schedule.passes_marked (hf : f ∈ sch.fires tradingDay d)
    (htimes : times.Pairwise (· ≤ ·)) (hhas : ∀ t ∈ times, et.date t = f.date → mem.marks.Has f) :
    timesDue f (sch.passes et tradingDay times mem) = 0 ∧
      timesMissed f (sch.passes et tradingDay times mem) = 0 := by
  induction times generalizing mem with
  | nil => exact ⟨rfl, rfl⟩
  | cons t later ih =>
    rw [List.pairwise_cons] at htimes
    unfold Schedule.passes
    dsimp only
    rw [timesDue_cons, timesMissed_cons]
    have hnow := hhas t List.mem_cons_self
    have hmissed : f ∉ (sch.pass et tradingDay t mem).1.missed := by
      rw [Schedule.mem_pass_missed hf]
      tauto
    have hdue : f ∉ (sch.pass et tradingDay t mem).1.due := by
      rw [Schedule.mem_pass_due hf]
      tauto
    rw [List.count_eq_zero_of_not_mem hmissed, List.count_eq_zero_of_not_mem hdue,
      Nat.zero_add, Nat.zero_add]
    refine ih htimes.2 ?_
    intro u hu hud
    -- the mark outlives this pass, which is not after the fire's date
    rw [Schedule.pass_has]
    refine .inl ((Memory.turn_of_le ?_).mpr (hhas u (List.mem_cons_of_mem _ hu) hud))
    rw [← hud]
    exact et.date_mono (htimes.1 u hu)

theorem timesDue_eq_zero {ps : List Pass} (h : timesDue f ps = 0) :
    ∀ p ∈ ps, f ∉ p.due := by
  intro p hp hf
  exact List.count_eq_zero.mp h (List.mem_flatMap.mpr ⟨p, hp, hf⟩)

/-- A marked fire is not mentioned by the passes that follow the one that
marked it. -/
theorem Schedule.passes_after (hf : f ∈ sch.fires tradingDay d)
    (htimes : (now :: times).Pairwise (· ≤ ·))
    (hhas : f ∈ (sch.pass et tradingDay now mem).1.missed ∨
      f ∈ (sch.pass et tradingDay now mem).1.due) :
    timesDue f (sch.passes et tradingDay times (sch.pass et tradingDay now mem).2) = 0 ∧
      timesMissed f (sch.passes et tradingDay times (sch.pass et tradingDay now mem).2) = 0 := by
  rw [List.pairwise_cons] at htimes
  refine Schedule.passes_marked hf htimes.2 ?_
  intro t _ _
  exact Schedule.pass_has.mpr (.inr hhas)

/-- **What becomes of a fire nobody has marked**: the first pass that finds
it hands it out if it is ready and reports it missed if it is late, and no
other pass mentions it. -/
theorem Schedule.passes_first (hf : f ∈ sch.fires tradingDay d)
    (htimes : times.Pairwise (· ≤ ·)) (hno : ¬ mem.marks.Has f) :
    timesDue f (sch.passes et tradingDay times mem) =
        (times.find? (f.Reached et ·)).elim 0 (fun t => if f.Ready (easternWall et t) then 1 else 0) ∧
      timesMissed f (sch.passes et tradingDay times mem) =
        (times.find? (f.Reached et ·)).elim 0 (fun t => if f.Ready (easternWall et t) then 0 else 1) ∧
      ∀ p ∈ sch.passes et tradingDay times mem, f ∈ p.due →
        times.find? (f.Reached et ·) = some p.now := by
  induction times generalizing mem with
  | nil => exact ⟨rfl, rfl, fun p hp => by cases hp⟩
  | cons t later ih =>
    have hreached : f.Reached et t ↔ _ := Schedule.pass_reached hf hno
    have hdue : f ∈ (sch.pass et tradingDay t mem).1.due ↔ _ := Schedule.mem_pass_due hf
    have hmissed : f ∈ (sch.pass et tradingDay t mem).1.missed ↔ _ := Schedule.mem_pass_missed hf
    unfold Schedule.passes
    dsimp only
    rw [timesDue_cons, timesMissed_cons]
    by_cases h : f.Reached et t
    · rw [List.find?_cons_of_pos (by simpa using h)]
      obtain ⟨hdue₀, hmissed₀⟩ := Schedule.passes_after hf htimes (hreached.mp h)
      rw [hdue₀, hmissed₀]
      dsimp only [Option.elim]
      by_cases hr : f.Ready (easternWall et t)
      · have hl := Fire.not_late_of_ready hr
        rw [if_pos hr, if_pos hr, List.count_eq_one_of_mem Schedule.nodup_pass.2
            (hdue.mpr ⟨h.1, hr, hno⟩),
          List.count_eq_zero_of_not_mem fun hm => hl (hmissed.mp hm).2.1]
        refine ⟨rfl, rfl, ?_⟩
        intro p hp hpf
        rcases List.mem_cons.mp hp with rfl | hp
        · rfl
        · exact absurd hpf (timesDue_eq_zero hdue₀ p hp)
      · have hl := (Fire.ready_or_late h.2).resolve_left hr
        rw [if_neg hr, if_neg hr, List.count_eq_one_of_mem Schedule.nodup_pass.1
            (hmissed.mpr ⟨h.1, hl, hno⟩),
          List.count_eq_zero_of_not_mem fun hm => hr (hdue.mp hm).2.1]
        refine ⟨rfl, rfl, ?_⟩
        intro p hp hpf
        rcases List.mem_cons.mp hp with rfl | hp
        · exact absurd (hdue.mp hpf).2.1 hr
        · exact absurd hpf (timesDue_eq_zero hdue₀ p hp)
    · rw [List.find?_cons_of_neg (by simpa using h)]
      have hout := not_or.mp (mt hreached.mpr h)
      have hno' : ¬ (sch.pass et tradingDay t mem).2.marks.Has f := by
        rw [Schedule.pass_has]
        intro hhas
        rcases hhas with hhas | hhas
        · exact hno (Memory.turn_has hhas)
        · exact h (hreached.mpr hhas)
      obtain ⟨h₁, h₂, h₃⟩ := ih (List.pairwise_cons.mp htimes).2 hno'
      rw [List.count_eq_zero_of_not_mem hout.1, List.count_eq_zero_of_not_mem hout.2,
        Nat.zero_add, Nat.zero_add]
      refine ⟨h₁, h₂, ?_⟩
      intro p hp hpf
      rcases List.mem_cons.mp hp with rfl | hp
      · exact absurd hpf hout.2
      · exact h₃ p hp hpf

/-- A fire is accounted for exactly when a pass reaches it in time. -/
theorem Schedule.accounted_iff (hf : f ∈ sch.fires tradingDay d)
    (htimes : times.Pairwise (· ≤ ·)) (hno : ¬ mem.marks.Has f) :
    Accounted et f (sch.passes et tradingDay times mem) ↔ f.ReachedInTime et times := by
  obtain ⟨hdue, hmissed, hat⟩ : timesDue f (sch.passes et tradingDay times mem) = _ ∧ _ :=
    Schedule.passes_first hf htimes hno
  unfold Accounted Fire.ReachedInTime
  rw [hdue, hmissed]
  cases hfind : times.find? (f.Reached et ·) with
  | none => simp
  | some t =>
    rw [hfind] at hat
    dsimp only [Option.elim]
    by_cases hr : f.Ready (easternWall et t)
    · rw [if_pos hr, if_pos hr]
      -- the pass that handed it out is the one that reached it first
      have hdue₁ : 0 < timesDue f (sch.passes et tradingDay times mem) := by
        rw [hdue, hfind, Option.elim_some, if_pos hr]
        decide
      obtain ⟨p, hp, hpf⟩ := List.mem_flatMap.mp (List.count_pos_iff.mp hdue₁)
      obtain rfl := Option.some.inj (hat p hp hpf)
      constructor
      · intro h
        rcases h with ⟨_, _, h⟩ | ⟨h, _⟩
        · exact ⟨p.now, rfl, fun _ => h p hp hpf⟩
        · cases h
      · intro h
        obtain ⟨u, hu, hgrace⟩ := h
        cases hu
        refine .inl ⟨rfl, rfl, ?_⟩
        intro q hq hqf
        rw [← Option.some.inj (hat q hq hqf)]
        exact hgrace hr
    · rw [if_neg hr, if_neg hr]
      refine iff_of_true (.inr ⟨rfl, rfl⟩) ⟨t, rfl, fun h => absurd h hr⟩

/-! ## The whole schedule -/

/-- Every fire of the schedule within the passes is accounted for. -/
def EveryFireAccounted (sch : Schedule) (et : Zone) (tradingDay : Date → Bool)
    (times : List Instant) (ps : List Pass) : Prop :=
  ∀ (d : ℤ) (f : Fire), f ∈ sch.fires tradingDay d → f.Within et times → Accounted et f ps

/-- **No fire is lost exactly when no gap between passes runs past a fire's
own midnight**, and none into the hour the clocks repeat: the fires the
process slept through are all reported if and only if each still has a pass
on its date, and the first of these, where it hands the fire out, is within
the grace period. -/
theorem everyFireAccounted_iff (sch : Schedule) (et : Zone) (tradingDay : Date → Bool)
    (window : Option Date) (times : List Instant) (htimes : times.Pairwise (· ≤ ·)) :
    EveryFireAccounted sch et tradingDay times
        (sch.passes et tradingDay times ⟨.none, window⟩) ↔
      ∀ (d : ℤ) (f : Fire), f ∈ sch.fires tradingDay d → f.Within et times →
        f.ReachedInTime et times := by
  have hno : ∀ f, ¬ (Memory.mk .none window).marks.Has f := by
    intro f h
    rcases h with h | h <;> exact Finset.notMem_empty _ h
  constructor
  · intro h d f hf hw
    exact (Schedule.accounted_iff hf htimes (hno f)).mp (h d f hf hw)
  · intro h d f hf hw
    exact (Schedule.accounted_iff hf htimes (hno f)).mpr (h d f hf hw)

/-- `session_close: at 16:04 weekdays`. -/
def closing : Schedule where
  specs := [("session_close", ⟨.weekdays, clockTime 16 4, clockTime 16 4, 0, by decide, by decide,
    by decide⟩)]
  nodup := List.nodup_singleton _

/-- Eastern daylight time. -/
def daylight : Zone := .fixed (-4 * 60 * minute)

theorem Fire.instant_fixed (o : ℤ) (f : Fire) : f.instant (.fixed o) = f.at_ - o := by
  have h := Int.mul_ediv_add_emod f.at_ dayLength
  unfold Fire.instant Fire.date Zone.fixed
  dsimp only
  linarith

/-- Thursday 2026-09-03. -/
def thursday : ℤ := 20699

/-- Passes at 16:00, 16:04:20 and 16:10 run the close. -/
theorem everyFireAccounted_closing :
    EveryFireAccounted closing daylight (fun _ => true)
      [daylight.combine thursday (clockTime 16 0),
        daylight.combine thursday (clockTime 16 4) + 20 * second,
        daylight.combine thursday (clockTime 16 10)]
      (closing.passes daylight (fun _ => true)
        [daylight.combine thursday (clockTime 16 0),
          daylight.combine thursday (clockTime 16 4) + 20 * second,
          daylight.combine thursday (clockTime 16 10)] ⟨.none, some thursday⟩) := by
  refine (everyFireAccounted_iff closing daylight (fun _ => true) (some thursday) _
    (by decide)).mpr ?_
  intro d f hf hw
  obtain ⟨s, hs, hat⟩ := Schedule.mem_fires.mp hf
  obtain ⟨hjob, rfl⟩ := Prod.mk.inj (List.mem_singleton.mp hs)
  obtain ⟨_, k, hk, _⟩ := ScheduleSpec.mem_firesOn.mp hat
  have hat₁ : f.at_ = wall d (clockTime 16 4) := by
    rw [hk]
    simp
  obtain ⟨⟨p, hp, hfirst⟩, q, hq, hlast⟩ := hw
  obtain rfl : daylight.combine thursday (clockTime 16 0) = p := Option.some.inj hp
  obtain rfl : daylight.combine thursday (clockTime 16 10) = q := Option.some.inj hq
  unfold daylight at hfirst hlast
  rw [Fire.instant_fixed, hat₁] at hfirst hlast
  have hlo : (_ : ℤ) < _ := hfirst
  have hhi : (_ : ℤ) < _ := hlast
  -- the one fire within the passes is Thursday's
  have hd : d = thursday := by
    simp only [wall, Zone.fixed, grace, thursday, clockTime, dayLength, minute, second]
      at hlo hhi ⊢
    omega
  obtain rfl : f = ⟨"session_close", wall thursday (clockTime 16 4)⟩ := by
    cases f
    simp_all
  exact ⟨_, rfl, by decide⟩

/-- **A lost fire**: the process sleeps from 16:00 until the next morning,
and the close of the day before is neither run nor reported. -/
theorem closing_lost :
    ¬ EveryFireAccounted closing daylight (fun _ => true)
      [daylight.combine thursday (clockTime 16 0),
        daylight.combine (thursday + 1) (clockTime 9 0)]
      (closing.passes daylight (fun _ => true)
        [daylight.combine thursday (clockTime 16 0),
          daylight.combine (thursday + 1) (clockTime 9 0)] ⟨.none, some thursday⟩) := by
  intro h
  have hlost := h thursday ⟨"session_close", wall thursday (clockTime 16 4)⟩ (by decide)
    ⟨⟨_, rfl, by decide⟩, _, rfl, by decide⟩
  revert hlost
  decide +kernel

end TradeDesk.Engine
