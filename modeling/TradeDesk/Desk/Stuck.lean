import TradeDesk.Desk.FirstTouch

/-!
# Items that cannot resolve

`resolve` waits for a bar that may never come; `missingBar` is to tell the
desk so once the hole is old enough. Three sessions past the horizon every
hole is (`missingBar_iff`), and the horizon's own session decides whatever
is left (`not_openUntil`), so an item waits then for a bar that is missing
for good. But `resolve` needs two series and `missingBar` reads one: a hole
in the benchmark's is waited for and never named.
-/

namespace TradeDesk.Desk

open TradeDesk.Async

variable {item : Item} {bars spy bench : List DailyBar}

/-! ## Old sessions -/

/-- The sessions from a date on are the last of a series in order. -/
theorem filter_le_suffix {l : List Date} (h : l.Pairwise (· < ·)) (a : Date) :
    ∃ before, l = before ++ l.filter fun d => a ≤ d := by
  induction l with
  | nil => exact ⟨[], rfl⟩
  | cons d l ih =>
    obtain ⟨hd, hl⟩ := List.pairwise_cons.mp h
    by_cases had : a ≤ d
    · refine ⟨[], ?_⟩
      have hall : (d :: l).filter (fun d => a ≤ d) = d :: l := List.filter_eq_self.mpr fun x hx => by
        rcases List.mem_cons.mp hx with rfl | hx
        · exact decide_eq_true had
        · exact decide_eq_true (le_trans had (le_of_lt (hd x hx)))
      rw [hall]
      rfl
    · obtain ⟨before, hbefore⟩ := ih hl
      refine ⟨d :: before, ?_⟩
      rw [List.filter_cons_of_neg (by simpa using had), List.cons_append, ← hbefore]

/-- As many sessions follow one in the whole series as follow it among the
item's. -/
theorem idxOf_session (hspy : Dated spy) {j : ℕ} {d : Date} (hd : (sessionsOf item spy)[j]? = some d) :
    (spy.map (·.date)).idxOf d + (sessionsOf item spy).length = (spy.map (·.date)).length + j := by
  obtain ⟨before, hbefore⟩ := filter_le_suffix hspy.ordered item.session
  change spy.map (·.date) = before ++ sessionsOf item spy at hbefore
  obtain ⟨hj, rfl⟩ := List.getElem?_eq_some_iff.mp hd
  have hnodup : (before ++ sessionsOf item spy).Nodup := by
    rw [← hbefore]
    exact hspy.ordered.imp fun h => ne_of_lt h
  have hlen : before.length + j < (before ++ sessionsOf item spy).length := by
    rw [List.length_append]
    omega
  have hat : (before ++ sessionsOf item spy)[before.length + j] = (sessionsOf item spy)[j] := by
    rw [List.getElem_append_right (by omega)]
    simp
  have hidx := hnodup.idxOf_getElem (before.length + j) hlen
  rw [hat] at hidx
  rw [hbefore, hidx, List.length_append]
  omega

/-- The first `h` of the item's sessions, for `h` not negative. -/
theorem window_take (h : 0 ≤ item.horizonDays) :
    window item spy = (sessionsOf item spy).take item.horizonDays.toNat := by
  unfold window firstDays
  rw [if_pos h]

/-- Three sessions past the horizon, any hole in the symbol's bars counts. -/
theorem missingBar_iff (hspy : Dated spy) (hh : 0 ≤ item.horizonDays)
    (hold : item.horizonDays + stuckAfterSessions ≤ (sessionsOf item spy).length) :
    missingBar item bars spy = true ↔ ∃ d ∈ window item spy, ¬ HasBar bars d := by
  have hall : ∀ d, (bars.all fun b => b.date != d) = true ↔ ¬ HasBar bars d := by
    intro d
    unfold HasBar BarOf
    simp
  change ((window item spy).any fun d => (bars.all fun b => b.date != d) &&
    decide ((spy.map (·.date)).idxOf d + 1 + stuckAfterSessions ≤ (spy.map (·.date)).length)) = true
    ↔ _
  rw [List.any_eq_true]
  constructor
  · rintro ⟨d, hd, hmiss⟩
    rw [Bool.and_eq_true, hall] at hmiss
    exact ⟨d, hd, hmiss.1⟩
  · rintro ⟨d, hd, hmiss⟩
    refine ⟨d, hd, ?_⟩
    rw [Bool.and_eq_true, hall, decide_eq_true_eq]
    refine ⟨hmiss, ?_⟩
    rw [window_take hh] at hd
    obtain ⟨j, hj, hjd⟩ := List.mem_iff_getElem.mp hd
    rw [List.length_take] at hj
    rw [List.getElem_take] at hjd
    have hidx := idxOf_session hspy (List.getElem?_eq_some_iff.mpr ⟨by omega, hjd⟩)
    unfold stuckAfterSessions at hold ⊢
    omega

/-! ## What can still be waited for -/

/-- The horizon's own session decides, if none before it did. -/
theorem not_openUntil (hh : 1 ≤ item.horizonDays)
    (hlen : item.horizonDays ≤ (sessionsOf item spy).length) :
    ¬ OpenUntil item bars (window item spy) (window item spy).length := by
  have hcount : ((window item spy).length : ℤ) = item.horizonDays := by
    rw [window_take (by omega), List.length_take]
    omega
  intro hopen
  obtain ⟨d, b, -, -, hno⟩ := hopen ((window item spy).length - 1) (by omega)
  have hk : (((window item spy).length - 1 : ℕ) : ℤ) + 1 = item.horizonDays := by omega
  rw [hk] at hno
  by_cases hlevel : ∃ e, LevelExit item item.horizonDays b e
  · obtain ⟨e, he⟩ := hlevel
    exact hno e (.inl he)
  · exact hno _ (.inr ⟨fun e he => hlevel ⟨e, he⟩, rfl, rfl⟩)

/-- The item's first session is in its window. -/
theorem head_mem_window (hh : 1 ≤ item.horizonDays) {d : Date}
    (hhead : (sessionsOf item spy).head? = some d) : d ∈ window item spy := by
  rw [window_take (by omega)]
  cases hdays : sessionsOf item spy with
  | nil =>
    rw [hdays] at hhead
    cases hhead
  | cons x rest =>
    rw [hdays] at hhead
    cases hhead
    obtain ⟨n, hn⟩ : ∃ n, item.horizonDays.toNat = n + 1 := ⟨item.horizonDays.toNat - 1, by omega⟩
    rw [hn]
    exact List.mem_cons_self

/-- With every bar of the window there is nothing left to wait for. -/
theorem not_undecided (hh : 1 ≤ item.horizonDays)
    (hlen : item.horizonDays ≤ (sessionsOf item spy).length)
    (hbars : ∀ d ∈ window item spy, HasBar bars d)
    (hbench : ∀ d ∈ window item spy, HasBar bench d) : ¬ Undecided item bars spy bench := by
  intro hu
  cases hu with
  | waiting _ hopen => exact not_openUntil hh hlen hopen
  | noFirst d hhead hmissing =>
    have hd := head_mem_window hh hhead
    exact hmissing.elim (fun h => h (hbars d hd)) fun h => h (hbench d hd)
  | hole k d _ hd hno => exact hno (hbars d (List.mem_of_getElem? hd))
  | noBench d e hdecided hno =>
    obtain ⟨k, b, -, hd, -, -⟩ := hdecided.first
    exact hno (hbench d (List.mem_of_getElem? hd))

/-- Every session of the window has the symbol's bar, but the benchmark has
none on the first or on the one that decides. -/
structure BenchmarkHole (item : Item) (bars spy bench : List DailyBar) : Prop where
  whole : ∀ d ∈ window item spy, HasBar bars d
  hole : (∃ d, (sessionsOf item spy).head? = some d ∧ ¬ HasBar bench d) ∨
    ∃ d e, Decided item bars (window item spy) d e ∧ ¬ HasBar bench d

/-- It is the only thing still waited for and not named. -/
theorem undecided_old (hh : 1 ≤ item.horizonDays)
    (hold : item.horizonDays + stuckAfterSessions ≤ (sessionsOf item spy).length)
    (hu : Undecided item bars spy bench) :
    (∃ d ∈ window item spy, ¬ HasBar bars d) ∨ BenchmarkHole item bars spy bench := by
  by_cases hwhole : ∀ d ∈ window item spy, HasBar bars d
  · refine .inr ⟨hwhole, ?_⟩
    cases hu with
    | waiting _ hopen =>
      unfold stuckAfterSessions at hold
      exact absurd hopen (not_openUntil hh (by omega))
    | noFirst d hhead hmissing =>
      have hd := hwhole d (head_mem_window hh hhead)
      exact .inl ⟨d, hhead, hmissing.resolve_left (not_not.mpr hd)⟩
    | hole k d _ hd hno => exact absurd (hwhole d (List.mem_of_getElem? hd)) hno
    | noBench d e hdecided hno => exact .inr ⟨d, e, hdecided, hno⟩
  · push Not at hwhole
    exact .inl hwhole

theorem BenchmarkHole.undecided (h : BenchmarkHole item bars spy bench) :
    Undecided item bars spy bench := by
  rcases h.hole with ⟨d, hhead, hno⟩ | ⟨d, e, hdecided, hno⟩
  · exact .noFirst d hhead (.inr hno)
  · exact .noBench d e hdecided hno

/-- `None` is answered exactly where the rule is undecided. -/
theorem resolve_none_iff (hbars : Dated bars) (hspy : Dated spy) (hbench : Dated bench) :
    resolve item bars spy bench = .ok none ↔ Undecided item bars spy bench := by
  rcases resolve_cases item hbars hspy hbench with
    ⟨hres, hundecided, -⟩ | ⟨start, r, -, -, hdecided, herror, hok⟩
  · exact iff_of_true hres hundecided
  · refine iff_of_false (fun h => ?_) hdecided
    by_cases hz : start.Zero
    · rw [herror hz] at h
      cases h
    · rw [hok hz] at h
      cases h

/-- What `resolve` leaves open is named as stuck. -/
def Named (item : Item) (bars spy bench : List DailyBar) : Prop :=
  resolve item bars spy bench = .ok none → missingBar item bars spy = true

private def sixDays : List DailyBar :=
  [⟨700, 100, 101, 99, 100⟩, ⟨701, 100, 101, 99, 100⟩, ⟨702, 100, 101, 99, 100⟩,
    ⟨703, 100, 101, 99, 100⟩, ⟨704, 100, 101, 99, 100⟩, ⟨705, 100, 101, 99, 100⟩]

private theorem sixDays_dated : Dated sixDays := ⟨by decide +kernel⟩

private theorem fiveDays_dated : Dated (sixDays.drop 1) := ⟨by decide +kernel⟩

private def twoDayPitch : Item where
  kind := .pitch
  itemId := 1
  symbol := "MU"
  direction := .up
  target := 150
  invalidation := 90
  horizonDays := 2
  benchmark := "SMH"
  session := 700
  refs := none

end TradeDesk.Desk
