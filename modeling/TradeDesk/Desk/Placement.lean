import TradeDesk.Desk.Sizing

/-!
# Where a stop is placed

`entry_stop` (`tc/desk/sizing.py`) raises the formula's trigger to the
invalidation and refuses what is not below the fill. The invalidation is
rounded up, the limit down; the formula's level is rounded to the nearest
cent by `stop_geometry`. Where that goes down, and the invalidation does not
lift it again, the trigger is below the level of the manual, and with the
widest stop further from the fill than the manual allows
(`entryStop_bounds_iff`).
-/

namespace TradeDesk.Desk

open TradeDesk.Async

/-! ## Rounding to the nearest cent -/

/-- The nearest cent is below: less than half a cent over, or half a cent
over an even one. -/
def RoundsDown (d : ℚ) : Prop :=
  0 < Int.fract (d * 100) ∧ (Int.fract (d * 100) < 1 / 2 ∨
    Int.fract (d * 100) = 1 / 2 ∧ ⌊d * 100⌋ % 2 = 0)

theorem cents_lt_iff (d : ℚ) : cents d < d ↔ RoundsDown d := by
  have hfract : Int.fract (d * 100) = d * 100 - ⌊d * 100⌋ := rfl
  have hone := Int.fract_lt_one (d * 100)
  unfold cents RoundsDown
  dsimp only
  rw [← hfract]
  split
  next hlow =>
    constructor
    · intro h
      exact ⟨by linarith, .inl hlow⟩
    · rintro ⟨hpos, _⟩
      linarith
  next hlow =>
    split
    next hhigh =>
      constructor
      · intro h
        linarith
      · rintro ⟨_, hdown | ⟨hdown, _⟩⟩
        · exact absurd hdown hlow
        · linarith
    next hhigh =>
      have hhalf : Int.fract (d * 100) = 1 / 2 := le_antisymm (not_lt.mp hhigh) (not_lt.mp hlow)
      split
      next heven =>
        constructor
        · intro _
          exact ⟨by rw [hhalf]; norm_num, .inr ⟨hhalf, heven⟩⟩
        · intro _
          linarith
      next hodd =>
        constructor
        · intro h
          linarith
        · rintro ⟨_, hdown | ⟨_, heven⟩⟩
          · exact absurd hdown hlow
          · exact absurd heven hodd

/-! ## The level -/

/-- The percentage below the fill: a multiple of the daily range, clamped. -/
def stopPct (atrPct : ℚ) : ℚ := min (max (5 / 2 * atrPct) 8) 15

/-- The level the manual's formula gives, before any rounding. -/
def stopLevel (fill atrPct : ℚ) : ℚ := fill * (100 - stopPct atrPct) / 100

theorem stopPct_bounds (atrPct : ℚ) : 8 ≤ stopPct atrPct ∧ stopPct atrPct ≤ 15 := by
  refine ⟨le_min (le_max_right _ _) (by norm_num), min_le_right _ _⟩

theorem stopLevel_le {fill : ℚ} (atrPct : ℚ) (hfill : 0 ≤ fill) : stopLevel fill atrPct ≤ fill := by
  obtain ⟨hmin, _⟩ := stopPct_bounds atrPct
  unfold stopLevel
  nlinarith

theorem stopLevel_nonpos {fill : ℚ} (atrPct : ℚ) (hfill : fill ≤ 0) : stopLevel fill atrPct ≤ 0 := by
  obtain ⟨_, hmax⟩ := stopPct_bounds atrPct
  unfold stopLevel
  nlinarith

theorem le_stopLevel {fill : ℚ} (atrPct : ℚ) (hfill : 0 ≤ fill) :
    fill * 85 / 100 ≤ stopLevel fill atrPct := by
  obtain ⟨_, hmax⟩ := stopPct_bounds atrPct
  unfold stopLevel
  nlinarith

/-- The trigger is the level's nearest cent, or the invalidation's next. -/
def stopTrigger (fill atrPct invalidation : ℚ) : ℚ :=
  max (cents (stopLevel fill atrPct)) (ceilCents invalidation)

theorem entryStop_eq (fill atrPct invalidation : ℚ) :
    entryStop fill atrPct invalidation rulesYml =
      let trigger := stopTrigger fill atrPct invalidation
      if fill ≤ trigger then .error (.sizingRefused (.stopAboveFill trigger fill))
      else .ok ⟨trigger, floorCents (trigger * 95 / 100), (fill - trigger) / fill * 100⟩ := by
  have hgeometry : ∃ limit, stopGeometry fill atrPct rulesYml =
      .ok ⟨cents (stopLevel fill atrPct), limit, stopPct atrPct⟩ := ⟨_, rfl⟩
  obtain ⟨limit, hgeometry⟩ := hgeometry
  have hlimit : rulesYml.stopLimitPctBelowTrigger = .ok 5 := rfl
  unfold entryStop refuseIf stopTrigger
  have hpct : (100 - 5 : ℚ) = 95 := by norm_num
  rw [hgeometry, hlimit]
  dsimp only [Bind.bind, Except.bind]
  by_cases h : fill ≤ max (cents (stopLevel fill atrPct)) (ceilCents invalidation)
  · rw [if_pos h, if_pos h]
  · rw [if_neg h, if_neg h, ← hpct]
    rfl

/-! ## The bounds -/

/-- A stop as the manual places it: at or above the formula's level and the
invalidation, below the fill and at most fifteen percent below, with its
limit five percent below the trigger or lower. -/
structure Placed (fill atrPct invalidation : ℚ) (g : StopGeometry) : Prop where
  level : stopLevel fill atrPct ≤ g.trigger
  invalidation : invalidation ≤ g.trigger
  below : g.trigger < fill
  within : fill - g.trigger ≤ fill * 15 / 100
  limit_lt : g.limit < g.trigger
  limit_le : g.limit ≤ g.trigger * 95 / 100

/-- The entry is refused, or its stop is placed as the manual has it. -/
def StopBounds (fill atrPct invalidation : ℚ) : Prop :=
  (∃ refusal, entryStop fill atrPct invalidation rulesYml = .error (.sizingRefused refusal)) ∨
    ∃ g, entryStop fill atrPct invalidation rulesYml = .ok g ∧ Placed fill atrPct invalidation g

/-- A refused entry has its level at or below the trigger anyway. -/
theorem stopLevel_le_of_refused {fill atrPct invalidation : ℚ} (hinv : 0 < invalidation)
    (h : fill ≤ stopTrigger fill atrPct invalidation) :
    stopLevel fill atrPct ≤ stopTrigger fill atrPct invalidation := by
  rcases le_or_gt 0 fill with hfill | hfill
  · exact (stopLevel_le atrPct hfill).trans h
  · have hlow := stopLevel_nonpos atrPct hfill.le
    have hpos := ceilCents_pos hinv
    exact hlow.trans (hpos.le.trans (le_max_right _ _))

/-- The bounds are the first of them: the others come with it. -/
theorem stopBounds_iff_level {fill atrPct invalidation : ℚ} (hinv : 0 < invalidation) :
    StopBounds fill atrPct invalidation ↔
      stopLevel fill atrPct ≤ stopTrigger fill atrPct invalidation := by
  unfold StopBounds
  rw [entryStop_eq]
  dsimp only
  by_cases href : fill ≤ stopTrigger fill atrPct invalidation
  · rw [if_pos href]
    constructor
    · intro _
      exact stopLevel_le_of_refused hinv href
    · intro _
      exact .inl ⟨_, rfl⟩
  · rw [if_neg href]
    constructor
    · rintro (⟨_, h⟩ | ⟨g, h, hg⟩)
      · cases h
      · cases h
        exact hg.level
    · intro hlevel
      have hceil : ceilCents invalidation ≤ stopTrigger fill atrPct invalidation :=
        le_max_right _ _
      have hpos := (ceilCents_pos hinv).trans_le hceil
      have hbelow := not_le.mp href
      have hwithin := le_stopLevel atrPct (hpos.trans hbelow).le
      have hlimit := floorCents_le (stopTrigger fill atrPct invalidation * 95 / 100)
      refine .inr ⟨_, rfl, hlevel, (le_ceilCents invalidation).trans hceil, hbelow, ?_, ?_, hlimit⟩
      · dsimp only
        linarith
      · dsimp only
        linarith

end TradeDesk.Desk
