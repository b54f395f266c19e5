import TradeDesk.Desk.FirstTouch
import TradeDesk.Desk.Pitches
import TradeDesk.Desk.Scorecard

/-!
# The sign of a score

A level is on the winning or on the losing side of the price an item is
measured from: for a call by `check_levels` at its reference price, for a
pitch because its session's open, its reference, was tested against both
levels before anything else (`Straddles`). An exit at a target, or at an
open through it, is then a gain, one at an invalidation a loss, in both
directions (`scores_signed`).
-/

namespace TradeDesk.Desk

open TradeDesk.Async

/-- The levels of an item as filed: two prices that `parse_price` takes, and
that passed `check_levels`, of a call against its reference price. -/
structure Checked (rules : Rules) (item : Item) : Prop where
  target_pos : 0 < item.target
  invalidation_pos : 0 < item.invalidation
  levels : match item.refs with
    | some (ref, _, _) =>
      checkLevels item.direction ref item.target item.invalidation rules = .ok ()
    | none => ∃ last, checkLevels item.direction last item.target item.invalidation rules = .ok ()

/-- Every price positive, and each within the day's range. -/
def PricedBars (bars : List DailyBar) : Prop := ∀ b ∈ bars,
  0 < b.low ∧ b.low ≤ b.open ∧ b.low ≤ b.close ∧ b.open ≤ b.high ∧ b.close ≤ b.high

/-- A price strictly between the levels. -/
def Straddles (item : Item) (ref : ℚ) : Prop :=
  match item.direction with
  | .up => item.invalidation < ref ∧ ref < item.target
  | .down => item.target < ref ∧ ref < item.invalidation

/-- A move away from a positive price has the sign of the difference. -/
theorem movePct_pos {frm upto : ℚ} (hfrm : 0 < frm) (h : frm < upto) : 0 < movePct frm upto := by
  have hmove : 0 < (upto - frm) / frm := div_pos (by linarith) hfrm
  unfold movePct
  linarith

theorem movePct_neg {frm upto : ℚ} (hfrm : 0 < frm) (h : upto < frm) : movePct frm upto < 0 := by
  have hmove : (upto - frm) / frm < 0 := div_neg_of_neg_of_pos (by linarith) hfrm
  unfold movePct
  linarith

theorem movePct_self (frm : ℚ) : movePct frm frm = 0 := by
  unfold movePct
  rw [sub_self, zero_div, zero_mul]

section

variable {item : Item} {ref p : ℚ} {b : DailyBar} {k : ℤ}

/-- At or through the target is a gain. -/
theorem gain_of_target (hpos : 0 < ref) (hs : Straddles item ref)
    (h : item.throughTarget p = true) : 0 < item.sign * movePct ref p := by
  unfold Straddles at hs
  unfold Item.throughTarget at h
  unfold Item.sign
  cases hdir : item.direction with
  | up =>
    rw [hdir] at hs h
    have hp : item.target ≤ p := of_decide_eq_true h
    have hmove := movePct_pos hpos (hs.2.trans_le hp)
    rw [if_pos rfl, one_mul]
    exact hmove
  | down =>
    rw [hdir] at hs h
    have hp : p ≤ item.target := of_decide_eq_true h
    have hmove := movePct_neg hpos (hp.trans_lt hs.1)
    rw [if_neg (by decide)]
    linarith

/-- At or through the invalidation is a loss. -/
theorem loss_of_inval (hpos : 0 < ref) (hs : Straddles item ref)
    (h : item.throughInval p = true) : item.sign * movePct ref p < 0 := by
  unfold Straddles at hs
  unfold Item.throughInval at h
  unfold Item.sign
  cases hdir : item.direction with
  | up =>
    rw [hdir] at hs h
    have hp : p ≤ item.invalidation := of_decide_eq_true h
    have hmove := movePct_neg hpos (hp.trans_lt hs.1)
    rw [if_pos rfl, one_mul]
    exact hmove
  | down =>
    rw [hdir] at hs h
    have hp : item.invalidation ≤ p := of_decide_eq_true h
    have hmove := movePct_pos hpos (hs.2.trans_le hp)
    rw [if_neg (by decide)]
    linarith

theorem throughTarget_target (item : Item) : item.throughTarget item.target = true := by
  unfold Item.throughTarget
  cases item.direction <;> exact decide_eq_true le_rfl

theorem throughInval_inval (item : Item) : item.throughInval item.invalidation = true := by
  unfold Item.throughInval
  cases item.direction <;> exact decide_eq_true le_rfl

/-- A price through neither level is between them. -/
theorem straddles_of_open (ht : ¬ item.throughTarget p = true) (hi : ¬ item.throughInval p = true) :
    Straddles item p := by
  unfold Item.throughTarget at ht
  unfold Item.throughInval at hi
  unfold Straddles
  cases hdir : item.direction with
  | up =>
    rw [hdir] at ht hi
    exact ⟨not_le.mp fun h => hi (decide_eq_true h), not_le.mp fun h => ht (decide_eq_true h)⟩
  | down =>
    rw [hdir] at ht hi
    exact ⟨not_le.mp fun h => ht (decide_eq_true h), not_le.mp fun h => hi (decide_eq_true h)⟩

/-- What a pitch's first session lets pass opened between its levels. -/
theorem straddles_of_first (hown : item.refs = none)
    (h : exitOn item 1 b = none ∨ ∃ e, exitOn item 1 b = some e ∧ e.how ≠ .openThrough) :
    Straddles item b.open := by
  by_cases hthrough : item.throughTarget b.open = true ∨ item.throughInval b.open = true
  · -- it would have been left at the open
    exfalso
    have hexit := (LevelExit.openThrough rfl hown hthrough).exitOn_eq
    rcases h with h | ⟨e, h, hne⟩
    · rw [h] at hexit
      cases hexit
    · rw [h] at hexit
      cases hexit
      exact hne rfl
  · push Not at hthrough
    exact straddles_of_open hthrough.1 hthrough.2

end

/-! ## What was found -/

section

variable {item : Item} {bars spy bench : List DailyBar} {f : Finding}

private theorem head_of_take {days : List Date} {n : ℕ} {d : Date}
    (h : (days.take n)[0]? = some d) : days.head? = some d := by
  cases n with
  | zero => cases h
  | succ n =>
    cases days with
    | nil => cases h
    | cons x days => exact h

theorem window_head {d : Date} (h : (window item spy)[0]? = some d) :
    (sessionsOf item spy).head? = some d := head_of_take h

/-- The first session found is the item's first. -/
theorem Found.atStart (hf : Found item bars spy bench f) (hindex : f.index = 0) :
    f.day = f.start ∧ f.bar = f.first := by
  have hday := hf.day
  rw [hindex] at hday
  have hstart : f.day = f.start := Option.some.inj ((window_head hday).symm.trans hf.session)
  have hbar := hf.bar
  rw [hstart, hf.first] at hbar
  exact ⟨hstart, (Option.some.inj hbar).symm⟩

/-- The first session lets pass, or is the one that decides. -/
theorem Found.firstSession (hf : Found item bars spy bench f) :
    exitOn item 1 f.first = none ∨ exitOn item 1 f.first = some f.exit := by
  cases hindex : f.index with
  | zero =>
    have hexit := hf.exit
    rw [hindex, (hf.atStart hindex).2] at hexit
    exact .inr (by simpa using hexit)
  | succ n =>
    obtain ⟨d, b, hd, hb, hpass⟩ := hf.passes 0 (by omega)
    have hstart : d = f.start := Option.some.inj ((window_head hd).symm.trans hf.session)
    rw [hstart, hf.first] at hb
    cases hb
    exact .inl (by simpa using hpass)

/-- Unless it is left at its first open, an item is measured from a positive
price between its levels. -/
theorem Found.straddles {rules : Rules} (hf : Found item bars spy bench f)
    (hc : Checked rules item) (hbars : PricedBars bars) (hopen : f.exit.how ≠ .openThrough) :
    0 < (f.reference item).ref ∧ Straddles item (f.reference item).ref := by
  have hlevels := hc.levels
  unfold Finding.reference
  cases hrefs : item.refs with
  | some refs =>
    obtain ⟨ref, spyRef, benchRef⟩ := refs
    rw [hrefs] at hlevels
    dsimp only at hlevels
    unfold Straddles
    cases hdir : item.direction with
    | up =>
      rw [hdir] at hlevels
      obtain ⟨htarget, hinval⟩ := checkLevels_ok hlevels
      exact ⟨hc.invalidation_pos.trans hinval, hinval, htarget⟩
    | down =>
      rw [hdir] at hlevels
      obtain ⟨htarget, hinval⟩ := checkLevels_ok hlevels
      exact ⟨hc.target_pos.trans htarget, htarget, hinval⟩
  | none =>
    have hmem := (barOn_some hf.first).1
    obtain ⟨hlow, hle, _⟩ := hbars f.first hmem
    refine ⟨hlow.trans_le hle, straddles_of_first hrefs ?_⟩
    rcases hf.firstSession with hpass | hexit
    · exact .inl hpass
    · exact .inr ⟨f.exit, hexit, hopen⟩

end

/-! ## The law -/

/-- Targets gain, invalidations lose, and an item that opened through a
level is scored at nothing. -/
structure Signed (r : Resolution) : Prop where
  target : r.how = .target ∨ r.how = .gapTarget → 0 < r.retPct
  invalidation : r.how = .invalidation ∨ r.how = .gapInvalidation → r.retPct < 0
  openThrough : r.how = .openThrough → r.retPct = 0 ∧ r.spyRetPct = 0 ∧ r.benchRetPct = 0
  hit : r.hit = true → 0 < r.retPct

/-- A hit is a target, met or opened through. -/
theorem hit_iff {r : Resolution} : r.hit = true ↔ r.how = .target ∨ r.how = .gapTarget := by
  unfold Resolution.hit
  simp

theorem signed_gain {r : Resolution} (hhow : r.how = .target ∨ r.how = .gapTarget)
    (h : 0 < r.retPct) : Signed r := by
  refine ⟨fun _ => h, fun hw => ?_, fun hw => ?_, fun _ => h⟩
  · rcases hhow with hhow | hhow <;> simp [hhow] at hw
  · rcases hhow with hhow | hhow <;> simp [hhow] at hw

theorem signed_loss {r : Resolution} (hhow : r.how = .invalidation ∨ r.how = .gapInvalidation)
    (h : r.retPct < 0) : Signed r := by
  refine ⟨fun hw => ?_, fun _ => h, fun hw => ?_, fun hw => ?_⟩
  · rcases hhow with hhow | hhow <;> simp [hhow] at hw
  · rcases hhow with hhow | hhow <;> simp [hhow] at hw
  · rw [hit_iff] at hw
    rcases hhow with hhow | hhow <;> simp [hhow] at hw

theorem signed_openThrough {r : Resolution} (hhow : r.how = .openThrough)
    (h : r.retPct = 0 ∧ r.spyRetPct = 0 ∧ r.benchRetPct = 0) : Signed r := by
  refine ⟨fun hw => ?_, fun hw => ?_, fun _ => h, fun hw => ?_⟩
  · simp [hhow] at hw
  · simp [hhow] at hw
  · simp [hit_iff, hhow] at hw

theorem signed_horizon {r : Resolution} (hhow : r.how = .horizon) : Signed r := by
  refine ⟨fun hw => ?_, fun hw => ?_, fun hw => ?_, fun hw => ?_⟩
  · simp [hhow] at hw
  · simp [hhow] at hw
  · simp [hhow] at hw
  · simp [hit_iff, hhow] at hw

/-- **The sign of a score is that of its exit**, in both directions and
whatever the gaps. -/
theorem scores_signed {rules : Rules} {item : Item} {bars spy bench : List DailyBar}
    {r : Resolution} (hc : Checked rules item) (hbars : PricedBars bars)
    (h : resolve item bars spy bench = .ok (some r)) : Signed r := by
  obtain ⟨f, hf, hdone⟩ := resolve_found.mp h
  obtain ⟨_, s, bb, hs, hbb, rfl⟩ := done_some hdone
  rcases exitOn_level (by omega) hf.exit with hlevel | ⟨_, hlast⟩
  · have hmeasured := hf.straddles hc hbars
    generalize f.exit = e at hlevel hmeasured
    cases hlevel with
    | openThrough hk hown _ =>
      -- left at the open it is measured from, with both benchmarks
      obtain ⟨hday, hbar⟩ := hf.atStart (by omega)
      rw [hday, hf.spyFirst] at hs
      rw [hday, hf.benchFirst] at hbb
      cases hs
      cases hbb
      refine signed_openThrough rfl ?_
      unfold resolutionOf Finding.reference
      rw [hown, hbar]
      dsimp only
      rw [if_pos rfl, if_pos rfl, movePct_self, movePct_self, movePct_self, mul_zero]
      exact ⟨rfl, rfl, rfl⟩
    | gapTarget hk ht =>
      obtain ⟨hpos, hstr⟩ := hmeasured fun hw => by cases hw
      exact signed_gain (.inr rfl) (gain_of_target hpos hstr ht)
    | gapInvalidation hk ht hi =>
      obtain ⟨hpos, hstr⟩ := hmeasured fun hw => by cases hw
      exact signed_loss (.inr rfl) (loss_of_inval hpos hstr hi)
    | invalidation htested ht hi hinval =>
      obtain ⟨hpos, hstr⟩ := hmeasured fun hw => by cases hw
      exact signed_loss (.inl rfl) (loss_of_inval hpos hstr (throughInval_inval item))
    | target htested ht hi hinval htarget =>
      obtain ⟨hpos, hstr⟩ := hmeasured fun hw => by cases hw
      exact signed_gain (.inl rfl) (gain_of_target hpos hstr (throughTarget_target item))
  · rw [hlast]
    exact signed_horizon rfl

/-- A pitch for a rise, filed at 100. -/
def risingPitch : Item where
  kind := .pitch
  itemId := 1
  symbol := "MU"
  direction := .up
  target := 120
  invalidation := 90
  horizonDays := 5
  benchmark := "SPY"
  session := 700
  refs := none

/-- A day that opens at 105 and trades up to 125. -/
def risingDay : List DailyBar := [⟨700, 105, 125, 95, 118⟩]

theorem scores_signed_rising : ∃ r, resolve risingPitch risingDay risingDay risingDay =
    .ok (some r) ∧ r.how = .target ∧ Signed r := by
  have hchecked : Checked rulesYml risingPitch :=
    ⟨by decide +kernel, by decide +kernel, 100, by decide +kernel⟩
  have hpriced : PricedBars risingDay := by
    unfold PricedBars
    decide +kernel
  have hscore : resolve risingPitch risingDay risingDay risingDay = .ok (some _) := rfl
  exact ⟨_, hscore, rfl, scores_signed hchecked hpriced hscore⟩

end TradeDesk.Desk
