import TradeDesk.Loops.Tick
import TradeDesk.Weekdays
import Mathlib.Data.List.TakeWhile

/-!
# The hold clock

A leveraged fund may be held for a few sessions only. `run_clocks`
(`tc/loops/clocks.py`) counts them from `Store.first_seen`, the earliest
snapshot there is with the symbol, plus one for the first day itself. A fund
that was sold and bought again is counted from its first purchase, and one
first seen on a weekend has a day too many.

`began` is where the holding of the newest snapshot begins. The two counts
agree exactly when one weekday lies between that day and the day of
`first_seen` (`holdClock_iff`); in a history in order they are then the same
day (`oneWeekday_iff`).
-/

namespace TradeDesk.Loops

open TradeDesk.Async

variable {l : Ledger} {s : String}

/-! ## The holding -/

/-- The snapshots of the current holding of a symbol: those after the last
one without it. -/
def holding (l : Ledger) (s : String) : List AccountSnapshot :=
  (l.accountSnapshots.reverse.takeWhile fun a => a.held.contains s).reverse

/-- When the current holding of a symbol was first read. -/
def began (l : Ledger) (s : String) : Option Instant := (holding l s).head?.map (·.readAt)

/-- The newest snapshot holds the symbol. -/
def HoldsNow (l : Ledger) (s : String) : Prop :=
  ∃ a, l.accountSnapshots.getLast? = some a ∧ a.held.contains s = true

theorem holding_suffix (l : Ledger) (s : String) : holding l s <:+ l.accountSnapshots := by
  obtain ⟨rest, hrest⟩ := List.takeWhile_prefix (l := l.accountSnapshots.reverse)
    (fun a => a.held.contains s)
  refine ⟨rest.reverse, ?_⟩
  unfold holding
  rw [← List.reverse_append, hrest, List.reverse_reverse]

theorem mem_holding {a : AccountSnapshot} (h : a ∈ holding l s) : a.held.contains s = true := by
  unfold holding at h
  rw [List.mem_reverse] at h
  exact List.mem_takeWhile_imp (p := fun a : AccountSnapshot => a.held.contains s) h

theorem HoldsNow.began (h : HoldsNow l s) : ∃ a rest, holding l s = a :: rest ∧
    Loops.began l s = some a.readAt := by
  obtain ⟨a, hlast, hheld⟩ := h
  have hne : holding l s ≠ [] := by
    unfold holding
    rw [Ne, List.reverse_eq_nil_iff]
    rw [List.getLast?_eq_head?_reverse] at hlast
    obtain ⟨rest, hrest⟩ := List.head?_eq_some_iff.mp hlast
    rw [hrest, List.takeWhile_cons, if_pos hheld]
    exact List.cons_ne_nil _ _
  obtain ⟨b, rest, hb⟩ := List.exists_cons_of_ne_nil hne
  refine ⟨b, rest, hb, ?_⟩
  unfold Loops.began
  rw [hb]
  rfl

/-- A snapshot that holds a symbol carries it. -/
theorem carries_of_held {a : AccountSnapshot} (h : a.held.contains s = true) :
    (a.positions.any fun p => p.symbol == s) = true := by
  unfold AccountSnapshot.held at h
  rw [List.contains_iff_mem, List.mem_map] at h
  obtain ⟨p, hp, hsym⟩ := h
  exact List.any_eq_true.mpr ⟨p, (List.mem_filter.mp hp).1, beq_iff_eq.mpr hsym⟩

theorem firstSeen_some (h : HoldsNow l s) : ∃ i, l.firstSeen s = some i := by
  obtain ⟨a, hlast, hheld⟩ := h
  have hfound : (l.accountSnapshots.find? fun a => a.positions.any fun p => p.symbol == s).isSome := by
    rw [List.find?_isSome]
    exact ⟨a, List.mem_of_getLast? hlast, carries_of_held hheld⟩
  obtain ⟨b, hb⟩ := Option.isSome_iff_exists.mp hfound
  refine ⟨b.readAt, ?_⟩
  unfold Ledger.firstSeen
  rw [hb]
  rfl

/-- In order of time, nothing carries a symbol before it is first seen. -/
theorem firstSeen_le {i j : Instant}
    (hordered : l.accountSnapshots.Pairwise fun a b => a.readAt ≤ b.readAt)
    (hfirst : l.firstSeen s = some i) (hbegan : began l s = some j) : i ≤ j := by
  unfold Ledger.firstSeen at hfirst
  unfold began at hbegan
  obtain ⟨first, hfind, rfl⟩ := Option.map_eq_some_iff.mp hfirst
  obtain ⟨a, hhead, rfl⟩ := Option.map_eq_some_iff.mp hbegan
  have hmem : a ∈ holding l s := List.mem_of_mem_head? (Option.mem_def.mpr hhead)
  have hcarries := carries_of_held (mem_holding hmem)
  obtain ⟨hspec, before, after, hsplit, hnone⟩ := List.find?_eq_some_iff_append.mp hfind
  have hin := (holding_suffix l s).subset hmem
  rw [hsplit] at hin hordered
  rcases List.mem_append.mp hin with hin | hin
  · have hfree := hnone a hin
    rw [hcarries] at hfree
    cases hfree
  · rcases List.mem_cons.mp hin with rfl | hin
    · exact le_refl _
    · exact List.rel_of_pairwise_cons (List.pairwise_append.mp hordered).2.1 hin

/-! ## The counts -/

/-- The weekdays the current holding has lasted, its first day included. -/
def heldWeekdays (cfg : LoopSettings) (l : Ledger) (s : String) (today : Date) : ℤ :=
  match began l s with
  | none => 0
  | some at_ => weekdaysFrom (cfg.et.date at_) today

/-- One weekday lies between the day the holding began and the day the
symbol was first seen, or today if that is earlier, both included. -/
def OneWeekday (cfg : LoopSettings) (l : Ledger) (s : String) (today : Date) : Prop :=
  ∃ i j, l.firstSeen s = some i ∧ began l s = some j ∧
    weekdaysFrom (cfg.et.date j) (min (cfg.et.date i) today) = 1

private theorem count_iff (first start today : ℤ) :
    tradingDaysBetween first today + 1 = weekdaysFrom start today ↔
      weekdaysFrom start (min first today) = 1 := by
  rcases le_total first today with hfirst | hfirst
  · rw [min_eq_left hfirst]
    rcases le_or_gt start first with hstart | hstart
    · rw [weekdaysFrom_split hstart hfirst]
      omega
    · -- the start is one of the days counted after the first
      rw [weekdaysFrom_of_lt hstart]
      rcases le_or_gt start today with htoday | htoday
      · have hsplit := tradingDaysBetween_add (show first ≤ start - 1 by omega)
          (show start - 1 ≤ today by omega)
        have hnonneg := tradingDaysBetween_nonneg first (start - 1)
        unfold weekdaysFrom
        omega
      · have hnonneg := tradingDaysBetween_nonneg first today
        rw [weekdaysFrom_of_lt htoday]
        omega
  · rw [min_eq_right hfirst, tradingDaysBetween_of_le hfirst]
    omega

theorem sessionsHeld_iff {cfg : LoopSettings} {today : Date} (h : HoldsNow l s) :
    sessionsHeld cfg.et today (l.firstSeen s) = heldWeekdays cfg l s today ↔
      OneWeekday cfg l s today := by
  obtain ⟨i, hi⟩ := firstSeen_some h
  obtain ⟨a, _, _, hj⟩ := h.began
  unfold heldWeekdays OneWeekday sessionsHeld
  rw [hi, hj]
  dsimp only
  rw [count_iff]
  constructor
  · intro hone
    exact ⟨i, a.readAt, rfl, rfl, hone⟩
  · rintro ⟨i', j', hi', hj', hone⟩
    cases hi'
    cases hj'
    exact hone

/-- In a history in order up to today: the symbol was first seen the day the
holding began, and that was a weekday. -/
theorem oneWeekday_iff {cfg : LoopSettings} {today : Date} {i j : Instant}
    (hordered : l.accountSnapshots.Pairwise fun a b => a.readAt ≤ b.readAt)
    (hfirst : l.firstSeen s = some i) (hbegan : began l s = some j)
    (htoday : cfg.et.date j ≤ today) : OneWeekday cfg l s today ↔
      cfg.et.date i = cfg.et.date j ∧ weekday (cfg.et.date j) < 5 := by
  have hle : cfg.et.date i ≤ cfg.et.date j :=
    cfg.et.date_mono (firstSeen_le hordered hfirst hbegan)
  have hmin : min (cfg.et.date i) today = cfg.et.date i := min_eq_left (hle.trans htoday)
  constructor
  · rintro ⟨i', j', hi', hj', hone⟩
    rw [hfirst] at hi'
    rw [hbegan] at hj'
    cases hi'
    cases hj'
    rw [hmin] at hone
    have hsame : cfg.et.date i = cfg.et.date j := by
      by_contra hne
      rw [weekdaysFrom_of_lt (lt_of_le_of_ne hle hne)] at hone
      cases hone
    rw [hsame, weekdaysFrom_self] at hone
    refine ⟨hsame, ?_⟩
    by_contra hend
    rw [if_neg hend] at hone
    cases hone
  · rintro ⟨hsame, hday⟩
    refine ⟨i, j, hfirst, hbegan, ?_⟩
    rw [hmin, hsame, weekdaysFrom_self, if_pos hday]

/-! ## The alerts -/

theorem leveragedClock_cases (p : Position) (maxHold n : ℤ) :
    (maxHold ≤ n ∧
      leveragedClock p maxHold n = [⟨p.symbol, .leveragedClose, n, maxHold - 2, maxHold⟩]) ∨
    (n < maxHold ∧ maxHold - 2 ≤ n ∧
      leveragedClock p maxHold n = [⟨p.symbol, .leveragedWarn, n, maxHold - 2, maxHold⟩]) ∨
    (n < maxHold - 2 ∧ leveragedClock p maxHold n = []) := by
  unfold leveragedClock leveragedWarnSessionsBeforeClose
  dsimp only
  by_cases hclose : maxHold ≤ n
  · exact .inl ⟨hclose, if_pos hclose⟩
  · by_cases hwarn : maxHold - 2 ≤ n
    · exact .inr (.inl ⟨by omega, hwarn, by rw [if_neg hclose, if_pos hwarn]⟩)
    · exact .inr (.inr ⟨by omega, by rw [if_neg hclose, if_neg hwarn]⟩)

theorem optionClock_cases (p : Position) (closeDte : ℤ) (today : Date) :
    optionClock p closeDte today = [] ∨
      ∃ a, optionClock p closeDte today = [a] ∧ a.symbol = p.symbol ∧
        (a.kind = .optionClose ∨ a.kind = .optionWarn) := by
  unfold optionClock
  dsimp only
  split
  · exact .inl rfl
  · split
    · exact .inr ⟨_, rfl, rfl, .inl rfl⟩
    · split
      · exact .inr ⟨_, rfl, rfl, .inr rfl⟩
      · exact .inl rfl

/-- Both clocks see a position through its symbol alone. -/
theorem clocks_of_symbol {p q : Position} (h : q.symbol = p.symbol) (closeDte maxHold n : ℤ)
    (today : Date) : optionClock q closeDte today ++ leveragedClock q maxHold n =
      optionClock p closeDte today ++ leveragedClock p maxHold n := by
  unfold optionClock leveragedClock
  rw [h]

/-- A position has a leveraged close or warning when its count says so and
its option clock has nothing more urgent. -/
theorem mostUrgent_leveraged (p : Position) (closeDte maxHold n : ℤ) (today : Date) :
    ((∃ x, mostUrgent (optionClock p closeDte today ++ leveragedClock p maxHold n) = some x ∧
        x.kind = .leveragedClose) ↔
      maxHold ≤ n ∧ ∀ x ∈ optionClock p closeDte today, x.kind ≠ .optionClose) ∧
    ((∃ x, mostUrgent (optionClock p closeDte today ++ leveragedClock p maxHold n) = some x ∧
        x.kind = .leveragedWarn) ↔
      (maxHold - 2 ≤ n ∧ n < maxHold) ∧ optionClock p closeDte today = []) := by
  rcases optionClock_cases p closeDte today with hopt | ⟨a, hopt, _, ha | ha⟩ <;>
    rcases leveragedClock_cases p maxHold n with ⟨hn, hlev⟩ | ⟨hn, hwarn, hlev⟩ | ⟨hn, hlev⟩ <;>
      rw [hopt, hlev]
  · simp [mostUrgent, hn]
  · simp [mostUrgent, hn, hwarn]
  · simp [mostUrgent]
    omega
  · simp [mostUrgent, ha, ClockKind.precedence]
  · simp [mostUrgent, ha, ClockKind.precedence]
  · simp [mostUrgent, ha]
  · simp [mostUrgent, ha, ClockKind.precedence, hn]
  · simp [mostUrgent, ha, ClockKind.precedence, hn]
  · simp [mostUrgent, ha]
    omega

theorem mostUrgent_mem {alerts : List ClockAlert} {x : ClockAlert}
    (h : mostUrgent alerts = some x) : x ∈ alerts := by
  cases alerts with
  | nil => cases h
  | cons a alerts =>
    cases h
    -- what is kept is the head, or one of those it was compared with
    induction alerts generalizing a with
    | nil => exact List.mem_cons_self
    | cons b alerts ih =>
      rw [List.foldl_cons]
      split
      · exact List.mem_cons_of_mem _ (ih b)
      · rcases List.mem_cons.mp (ih a) with hin | hin
        · rw [hin]
          exact List.mem_cons_self
        · exact List.mem_cons_of_mem _ (List.mem_cons_of_mem _ hin)

theorem optionClock_symbol {p : Position} {closeDte : ℤ} {today : Date} {x : ClockAlert}
    (h : x ∈ optionClock p closeDte today) : x.symbol = p.symbol := by
  rcases optionClock_cases p closeDte today with hopt | ⟨a, hopt, hsym, _⟩
  · rw [hopt] at h
    cases h
  · rw [hopt] at h
    rw [List.mem_singleton.mp h, hsym]

theorem mostUrgent_symbol {p : Position} {closeDte maxHold n : ℤ} {today : Date} {x : ClockAlert}
    (h : mostUrgent (optionClock p closeDte today ++ leveragedClock p maxHold n) = some x) :
    x.symbol = p.symbol := by
  rcases List.mem_append.mp (mostUrgent_mem h) with hin | hin
  · exact optionClock_symbol hin
  · rcases leveragedClock_cases p maxHold n with ⟨_, hlev⟩ | ⟨_, _, hlev⟩ | ⟨_, hlev⟩
    · rw [hlev] at hin
      rw [List.mem_singleton.mp hin]
    · rw [hlev] at hin
      rw [List.mem_singleton.mp hin]
    · rw [hlev] at hin
      cases hin

/-- What `run_clocks` computes, position by position. -/
theorem runClocks_eval {cfg : LoopSettings} {positions : List Position} {today : Date}
    {leveraged : List String} {closeDte maxHold : ℤ}
    (hclose : cfg.rules.optionCloseAtDte = .ok closeDte)
    (hhold : cfg.rules.leveragedMaxHoldSessions = .ok maxHold) :
    (runClocks cfg positions today leveraged).eval l =
      .ok (positions.filterMap fun p => if leveraged.contains p.symbol then
        mostUrgent (optionClock p closeDte today ++
          leveragedClock p maxHold (sessionsHeld cfg.et today (l.firstSeen p.symbol)))
      else mostUrgent (optionClock p closeDte today)) := by
  have heach : (Reads.each (clockOf cfg closeDte maxHold today leveraged) positions).eval l =
      .ok (positions.map fun p => if leveraged.contains p.symbol then
        mostUrgent (optionClock p closeDte today ++
          leveragedClock p maxHold (sessionsHeld cfg.et today (l.firstSeen p.symbol)))
        else mostUrgent (optionClock p closeDte today)) := by
    refine Reads.each_eval fun p _ => ?_
    unfold clockOf
    split
    · rfl
    · rfl
  unfold runClocks
  rw [Reads.eval_bind, Reads.eval_check, hclose]
  show (Reads.check cfg.rules.leveragedMaxHoldSessions >>= _ : LoopLook _).eval l = _
  rw [Reads.eval_bind, Reads.eval_check, hhold]
  show (Reads.each (clockOf cfg closeDte maxHold today leveraged) positions >>= _ :
    LoopLook _).eval l = _
  rw [Reads.eval_bind, heach]
  show Except.ok _ = _
  rw [List.filterMap_map]
  rfl

/-- The hold clock of a symbol is right if it counts `n`: a close or a
warning is raised exactly when `n` reaches its limit and the option clock of
the symbol has nothing more urgent. -/
structure HoldClock (cfg : LoopSettings) (l : Ledger) (positions : List Position) (today : Date)
    (leveraged : List String) (p : Position) (n : ℤ) : Prop where
  count : sessionsHeld cfg.et today (l.firstSeen p.symbol) = n
  alerts : ∀ closeDte maxHold alerts, cfg.rules.optionCloseAtDte = .ok closeDte →
    cfg.rules.leveragedMaxHoldSessions = .ok maxHold →
    (runClocks cfg positions today leveraged).eval l = .ok alerts →
    ((∃ x ∈ alerts, x.symbol = p.symbol ∧ x.kind = .leveragedClose) ↔
      maxHold ≤ n ∧ ∀ x ∈ optionClock p closeDte today, x.kind ≠ .optionClose) ∧
    ((∃ x ∈ alerts, x.symbol = p.symbol ∧ x.kind = .leveragedWarn) ↔
      (maxHold - 2 ≤ n ∧ n < maxHold) ∧ optionClock p closeDte today = [])

theorem holdClock_of_count {cfg : LoopSettings} {positions : List Position} {today : Date}
    {leveraged : List String} {p : Position} {n : ℤ} (hp : p ∈ positions)
    (hlev : leveraged.contains p.symbol = true)
    (hcount : sessionsHeld cfg.et today (l.firstSeen p.symbol) = n) :
    HoldClock cfg l positions today leveraged p n := by
  refine ⟨hcount, ?_⟩
  intro closeDte maxHold alerts hclose hhold hrun
  rw [runClocks_eval hclose hhold] at hrun
  cases hrun
  -- the alerts of this symbol are those of this position
  have hkind (kind : ClockKind) :
      (∃ x ∈ positions.filterMap fun p => if leveraged.contains p.symbol then
          mostUrgent (optionClock p closeDte today ++
            leveragedClock p maxHold (sessionsHeld cfg.et today (l.firstSeen p.symbol)))
        else mostUrgent (optionClock p closeDte today), x.symbol = p.symbol ∧ x.kind = kind) ↔
      ∃ x, mostUrgent (optionClock p closeDte today ++ leveragedClock p maxHold n) = some x ∧
        x.kind = kind := by
    constructor
    · rintro ⟨x, hx, hsym, hx'⟩
      obtain ⟨q, _, hq⟩ := List.mem_filterMap.mp hx
      have hsame : q.symbol = p.symbol := by
        split at hq
        · exact (mostUrgent_symbol hq).symm.trans hsym
        · exact (optionClock_symbol (mostUrgent_mem hq)).symm.trans hsym
      rw [hsame, if_pos hlev, hcount, clocks_of_symbol hsame] at hq
      exact ⟨x, hq, hx'⟩
    · rintro ⟨x, hx, hx'⟩
      refine ⟨x, List.mem_filterMap.mpr ⟨p, hp, ?_⟩, mostUrgent_symbol hx, hx'⟩
      rw [if_pos hlev, hcount]
      exact hx
  rw [hkind, hkind]
  exact mostUrgent_leveraged p closeDte maxHold n today

/-- **The hold clock counts the current holding exactly when one weekday
lies between its first day and the day the symbol was first seen.** -/
theorem holdClock_iff {cfg : LoopSettings} {positions : List Position} {today : Date}
    {leveraged : List String} {p : Position} (hp : p ∈ positions)
    (hlev : leveraged.contains p.symbol = true) (hheld : HoldsNow l p.symbol) :
    HoldClock cfg l positions today leveraged p (heldWeekdays cfg l p.symbol today) ↔
      OneWeekday cfg l p.symbol today := by
  rw [← sessionsHeld_iff hheld]
  constructor
  · intro h
    exact h.count
  · intro h
    exact holdClock_of_count hp hlev h

/-- A snapshot of ten shares of a fund, or of none, on a day of September. -/
def fundOn (day : ℤ) (shares : ℤ) : AccountSnapshot :=
  ⟨"h1", dayNumber 2026 9 day * dayLength + clockTime 18 0, 1500, 1000, 0, 1000, 0, false,
    if shares = 0 then [] else [⟨"TQQQ", "EQUITY", shares, some 50, 500, 0, shares⟩]⟩

/-- Bought on a Monday and still held on the Tuesday: day two. -/
theorem holdClock_held :
    HoldClock engineSettings ⟨[fundOn 20 0, fundOn 21 10, fundOn 22 10], [], [], []⟩
      (fundOn 22 10).positions (dayNumber 2026 9 22) ["TQQQ"]
      ⟨"TQQQ", "EQUITY", 10, some 50, 500, 0, 10⟩
      (heldWeekdays engineSettings ⟨[fundOn 20 0, fundOn 21 10, fundOn 22 10], [], [], []⟩
        "TQQQ" (dayNumber 2026 9 22)) := by
  refine (holdClock_iff (by decide) (by decide) ⟨_, rfl, by decide⟩).mpr ?_
  exact ⟨_, _, rfl, rfl, by decide +kernel⟩

/-- Held on a Monday, sold the day after, bought again a week later: the
first day of the new holding is counted as the sixth. -/
theorem holdClock_bought_again : ¬ ∀ (cfg : LoopSettings) (l : Ledger) (positions : List Position)
    (today : Date) (leveraged : List String) (p : Position), p ∈ positions →
    leveraged.contains p.symbol = true → HoldsNow l p.symbol →
    HoldClock cfg l positions today leveraged p (heldWeekdays cfg l p.symbol today) := by
  intro hall
  have hclock := hall engineSettings ⟨[fundOn 14 10, fundOn 15 0, fundOn 21 10], [], [], []⟩
    (fundOn 21 10).positions (dayNumber 2026 9 21) ["TQQQ"]
    ⟨"TQQQ", "EQUITY", 10, some 50, 500, 0, 10⟩ (by decide) (by decide) ⟨_, rfl, by decide⟩
  have hcount := hclock.count
  revert hcount
  decide +kernel

end TradeDesk.Loops
