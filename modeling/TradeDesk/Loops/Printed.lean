import TradeDesk.Loops.Osi
import TradeDesk.Loops.Universe
import TradeDesk.Research.Ledgers

/-!
# What the sweep prints

The sweep's document holds dates, counts and decimals, and each is read back
from its text. A date is that of a day number, so its text names a day of
the calendar (`civil_spec`): the years of a four-century cycle are found by a
division that grows with the day (`evened_mono`), so it is enough to try it
at both ends of every year. A number is its digits (`toString_digits`), and
a decimal the two numbers before and after its point, so reading one back
gives the rounded decimal (`parseDecimal_decimalText`).
-/

namespace TradeDesk.Loops

open TradeDesk.Research

/-! ## Dates -/

/-- The days before the year of a four-century cycle. -/
def daysBefore (y : ℤ) : ℤ := 365 * y + y / 4 - y / 100

/-- The days of a cycle without those that leap years add. -/
def evened (doe : ℤ) : ℤ := doe - doe / 1460 + doe / 36524 - doe / 146096

theorem evened_mono {a b : ℤ} (h : a ≤ b) : evened a ≤ evened b := by
  have hquads : a - a / 1460 ≤ b - b / 1460 := by omega
  have hcenturies : a / 36524 - a / 146096 ≤ b / 36524 - b / 146096 := by omega
  unfold evened
  omega

/-- At both ends of a year the days before it come out. -/
theorem evened_year (y : ℤ) (h0 : 0 ≤ y) (h1 : y ≤ 399) :
    365 * y ≤ evened (daysBefore y) ∧ (y ≠ 0 → evened (daysBefore y - 1) < 365 * y) := by
  have hall : ∀ n ∈ List.range 400, 365 * (n : ℤ) ≤ evened (daysBefore n) ∧
      ((n : ℤ) ≠ 0 → evened (daysBefore n - 1) < 365 * n) := by decide +kernel
  have h := hall y.toNat (List.mem_range.mpr (by omega))
  rwa [Int.toNat_of_nonneg h0] at h

theorem yearOf_spec {doe y : ℤ} (h0 : 0 ≤ doe) (h1 : doe ≤ 146096) (hy : y = evened doe / 365) :
    0 ≤ y ∧ y ≤ 399 ∧ daysBefore y ≤ doe ∧ doe < daysBefore (y + 1) + (y + 1) / 400 := by
  have hbounds : 0 ≤ y ∧ y ≤ 399 := by
    unfold evened at hy
    omega
  refine ⟨hbounds.1, hbounds.2, ?_, ?_⟩
  · by_contra hlt
    by_cases hzero : y = 0
    · subst hzero
      exact hlt h0
    · have hyear := (evened_year y hbounds.1 hbounds.2).2 hzero
      have hmono := evened_mono (show doe ≤ daysBefore y - 1 by omega)
      omega
  · by_contra hge
    by_cases hlast : y = 399
    · subst hlast
      have : daysBefore (399 + 1) + (399 + 1) / 400 = 146097 := by decide
      omega
    · have hyear := (evened_year (y + 1) (by omega) (by omega)).1
      have hmono := evened_mono (show daysBefore (y + 1) ≤ doe by omega)
      omega

/-- The month and the day of a day of the year that begins with March. -/
def monthDay (doy : ℤ) : ℤ × ℤ :=
  let mp := (5 * doy + 2) / 153
  (if mp < 10 then mp + 3 else mp - 9, doy - (153 * mp + 2) / 5 + 1)

theorem monthDay_spec {doy : ℤ} (h0 : 0 ≤ doy) (h1 : doy ≤ 365) :
    1 ≤ (monthDay doy).1 ∧ (monthDay doy).1 ≤ 12 ∧ 1 ≤ (monthDay doy).2 ∧
      (if (monthDay doy).1 = 2 then (monthDay doy).2 ≤ 28 ∨ doy = 365 ∧ (monthDay doy).2 = 29
        else (monthDay doy).2 ≤ monthLength 1 (monthDay doy).1) := by
  have hall : ∀ n ∈ List.range 366, 1 ≤ (monthDay n).1 ∧ (monthDay n).1 ≤ 12 ∧
      1 ≤ (monthDay n).2 ∧ (if (monthDay n).1 = 2 then
        (monthDay n).2 ≤ 28 ∨ (n : ℤ) = 365 ∧ (monthDay n).2 = 29
        else (monthDay n).2 ≤ monthLength 1 (monthDay n).1) := by decide +kernel
  have h := hall doy.toNat (List.mem_range.mpr (by omega))
  rwa [Int.toNat_of_nonneg h0] at h

/-- Only February depends on the year. -/
theorem monthLength_not_february {y m : ℤ} (h : m ≠ 2) : monthLength y m = monthLength 1 m := by
  unfold monthLength
  rw [if_neg h, if_neg h]

theorem isLeap_cycle {y era : ℤ} (h4 : y % 4 = 0) (h100 : y % 100 ≠ 0 ∨ y % 400 = 0) :
    isLeap (y + era * 400) = true := by
  unfold isLeap
  have hfour : (y + era * 400) % 4 = 0 := by omega
  rw [Bool.and_eq_true, Bool.or_eq_true, decide_eq_true_iff, decide_eq_true_iff, bne_iff_ne]
  refine ⟨hfour, h100.imp (fun h => ?_) fun h => ?_⟩
  · omega
  · omega

/-- **The day of a day number is a day of the calendar.** -/
theorem civil_spec (d : Date) : 1 ≤ (civil d).2.1 ∧ (civil d).2.1 ≤ 12 ∧ 1 ≤ (civil d).2.2 ∧
    (civil d).2.2 ≤ monthLength (civil d).1 (civil d).2.1 := by
  generalize hz : (show ℤ from d) + 719468 = z
  have hdoe0 : 0 ≤ z - z / 146097 * 146097 := by omega
  have hdoe1 : z - z / 146097 * 146097 ≤ 146096 := by omega
  obtain ⟨hy0, hy1, hlow, hhigh⟩ := yearOf_spec hdoe0 hdoe1 rfl
  generalize hera : z / 146097 = era at *
  generalize hy : evened (z - era * 146097) / 365 = y at *
  generalize hdoy : z - era * 146097 - daysBefore y = doy
  have hcivil : civil d = (y + era * 400 + if (monthDay doy).1 ≤ 2 then 1 else 0, monthDay doy) := by
    rw [← hdoy, ← hy, ← hera, ← hz]
    rfl
  have hdoy0 : 0 ≤ doy := by omega
  have hleap : doy < 365 ∨ doy = 365 ∧ (y + 1) % 4 = 0 ∧ ((y + 1) % 100 ≠ 0 ∨ (y + 1) % 400 = 0) := by
    have h4 : (y + 1) / 4 = y / 4 ∨ (y + 1) / 4 = y / 4 + 1 ∧ (y + 1) % 4 = 0 := by omega
    have h100 : (y + 1) / 100 = y / 100 ∧ (y + 1) % 100 ≠ 0 ∨ (y + 1) / 100 = y / 100 + 1 := by
      omega
    have h400 : (y + 1) / 400 = 0 ∨ (y + 1) / 400 = 1 ∧ y = 399 := by omega
    unfold daysBefore at hdoy hhigh
    rcases h4 with h4 | ⟨h4, hmod4⟩
    · left
      rcases h400 with h400 | ⟨-, rfl⟩
      · omega
      · omega
    · rcases h400 with h400 | ⟨h400, rfl⟩
      · rcases h100 with ⟨h100, hmod100⟩ | h100
        · omega
        · omega
      · omega
  obtain ⟨hm1, hm12, hd1, hlast⟩ := monthDay_spec hdoy0 (by omega)
  rw [hcivil]
  dsimp only
  refine ⟨hm1, hm12, hd1, ?_⟩
  by_cases hfeb : (monthDay doy).1 = 2
  · rw [if_pos hfeb] at hlast
    rw [hfeb, if_pos (by decide)]
    unfold monthLength
    rw [if_pos rfl]
    rcases hlast with hday | ⟨h365, hday⟩
    · split
      · omega
      · omega
    · have hyear : isLeap (y + era * 400 + 1) = true := by
        have harith : y + era * 400 + 1 = (y + 1) + era * 400 := by omega
        rcases hleap with hlt | ⟨-, h4, h100⟩
        · omega
        · rw [harith]
          exact isLeap_cycle h4 h100
      rw [if_pos hyear, hday]
  · rw [if_neg hfeb] at hlast
    rw [monthLength_not_february hfeb]
    exact hlast

/-- The day number of the day of a day number. -/
theorem dayNumber_civil (d : Date) : dayNumber (civil d).1 (civil d).2.1 (civil d).2.2 = d := by
  generalize hz : (show ℤ from d) + 719468 = z
  have hdoe0 : 0 ≤ z - z / 146097 * 146097 := by omega
  have hdoe1 : z - z / 146097 * 146097 ≤ 146096 := by omega
  obtain ⟨hy0, hy1, hlow, hhigh⟩ := yearOf_spec hdoe0 hdoe1 rfl
  generalize hera : z / 146097 = era at *
  generalize hy : evened (z - era * 146097) / 365 = y at *
  generalize hdoy : z - era * 146097 - daysBefore y = doy
  have hcivil : civil d = (y + era * 400 + if (monthDay doy).1 ≤ 2 then 1 else 0, monthDay doy) := by
    rw [← hdoy, ← hy, ← hera, ← hz]
    rfl
  have hdoy1 : doy ≤ 366 := by
    unfold daysBefore at *
    omega
  have hmonth : (monthDay doy).1 =
      if (5 * doy + 2) / 153 < 10 then (5 * doy + 2) / 153 + 3 else (5 * doy + 2) / 153 - 9 := rfl
  have hday : (monthDay doy).2 = doy - (153 * ((5 * doy + 2) / 153) + 2) / 5 + 1 := rfl
  generalize hmp : (5 * doy + 2) / 153 = mp at hmonth hday
  -- the month of the year that begins with March
  have hturn : ((monthDay doy).1 + 9) % 12 = mp := by
    rw [hmonth]
    split
    · omega
    · omega
  have hback : (if (monthDay doy).1 ≤ 2
      then (y + era * 400 + if (monthDay doy).1 ≤ 2 then 1 else 0) - 1
      else y + era * 400 + if (monthDay doy).1 ≤ 2 then 1 else 0) = y + era * 400 := by
    split
    · omega
    · omega
  have hquot : (y + era * 400) / 400 = era := by omega
  rw [hcivil]
  unfold dayNumber
  dsimp only
  rw [hback, hquot, hturn, hday]
  unfold daysBefore at hdoy
  show ((era * 146097 + ((y + era * 400 - era * 400) * 365 + (y + era * 400 - era * 400) / 4 -
    (y + era * 400 - era * 400) / 100 +
    ((153 * mp + 2) / 5 + (doy - (153 * mp + 2) / 5 + 1) - 1)) - 719468 : ℤ)) = (show ℤ from d)
  have hcancel : y + era * 400 - era * 400 = y := by omega
  rw [hcancel]
  omega

/-! ## Digits -/

theorem ofDigits_snoc (ds : List ℕ) (d : ℕ) : ofDigits (ds ++ [d]) = 10 * ofDigits ds + d := by
  unfold ofDigits
  rw [List.foldl_append]
  rfl

theorem ofDigits_append (as bs : List ℕ) :
    ofDigits (as ++ bs) = ofDigits as * 10 ^ bs.length + ofDigits bs := by
  induction bs using List.reverseRecOn with
  | nil =>
    show ofDigits (as ++ []) = ofDigits as * 1 + 0
    rw [List.append_nil, Nat.mul_one, Nat.add_zero]
  | append_singleton bs b ih =>
    rw [← List.append_assoc, ofDigits_snoc, ofDigits_snoc, ih, List.length_append,
      List.length_singleton, Nat.pow_succ]
    ring

/-- **A number is printed as its digits**, as many as it has. -/
theorem toString_digits (n : ℕ) : ∃ ds : List ℕ, (toString n).toList = ds.map Nat.digitChar ∧
    (∀ d ∈ ds, d < 10) ∧ ofDigits ds = n ∧ ds ≠ [] ∧ ∀ w, 0 < w → n < 10 ^ w → ds.length ≤ w := by
  have htext : (toString n).toList = Nat.toDigits 10 n := Nat.toList_repr
  have hlength : ∀ w, 0 < w → n < 10 ^ w → (Nat.toDigits 10 n).length ≤ w := fun w hw hn =>
    (Nat.length_toDigits_le_iff (by decide) hw).mpr hn
  rw [htext]
  suffices h : ∃ ds : List ℕ, Nat.toDigits 10 n = ds.map Nat.digitChar ∧ (∀ d ∈ ds, d < 10) ∧
      ofDigits ds = n by
    obtain ⟨ds, hds, hlt, hval⟩ := h
    refine ⟨ds, hds, hlt, hval, ?_, fun w hw hn => ?_⟩
    · rintro rfl
      exact Nat.toDigits_ne_nil hds
    · have hle := hlength w hw hn
      rwa [hds, List.length_map] at hle
  clear htext hlength
  induction n using Nat.strong_induction_on with
  | _ n ih =>
    by_cases hn : n < 10
    · refine ⟨[n], Nat.toDigits_of_lt_base hn, fun d hd => ?_, ?_⟩
      · rw [List.mem_singleton.mp hd]
        exact hn
      · show 10 * 0 + n = n
        omega
    · obtain ⟨ds, hds, hlt, hval⟩ := ih (n / 10) (by omega)
      refine ⟨ds ++ [n % 10], ?_, fun d hd => ?_, ?_⟩
      · rw [Nat.toDigits_of_base_le (by decide) (by omega), hds, List.map_append]
        rfl
      · rcases List.mem_append.mp hd with hd | hd
        · exact hlt d hd
        · rw [List.mem_singleton.mp hd]
          exact Nat.mod_lt n (by decide)
      · rw [ofDigits_snoc, hval]
        omega

/-- With zeros before it, it has as many as it is given. -/
theorem padded_digits {width n : ℕ} (hwidth : 0 < width) (h : n < 10 ^ width) :
    ∃ ds : List ℕ, (padded width n).toList = ds.map Nat.digitChar ∧ (∀ d ∈ ds, d < 10) ∧
      ofDigits ds = n ∧ ds.length = width := by
  obtain ⟨ds, hds, hlt, hval, -, hlength⟩ := toString_digits n
  have hle := hlength width hwidth h
  have hsize : (toString n).length = ds.length := by
    rw [← String.length_toList, hds, List.length_map]
  refine ⟨List.replicate (width - ds.length) 0 ++ ds, ?_, fun d hd => ?_, ?_, ?_⟩
  · unfold padded
    dsimp only
    rw [String.toList_append, String.toList_ofList, hsize, hds, List.map_append,
      List.map_replicate]
    rfl
  · rcases List.mem_append.mp hd with hd | hd
    · rw [(List.mem_replicate.mp hd).2]
      decide
    · exact hlt d hd
  · have hzeros : ∀ k, ofDigits (List.replicate k 0) = 0 := by
      intro k
      induction k with
      | zero => rfl
      | succ k ih => rw [List.replicate_succ', ofDigits_snoc, ih]
    rw [ofDigits_append, hzeros, hval, Nat.zero_mul, Nat.zero_add]
  · rw [List.length_append, List.length_replicate]
    omega

/-- Digits are read as far as they go. -/
theorem takeDigits_digits {ds : List ℕ} (rest : List Char) (h : ∀ d ∈ ds, d < 10)
    (hrest : ∀ c, rest.head? = some c → digitValue c = none) :
    takeDigits (ds.map Nat.digitChar ++ rest) = (ds, rest) := by
  induction ds with
  | nil =>
    cases rest with
    | nil => rfl
    | cons c cs =>
      show takeDigits (c :: cs) = ([], c :: cs)
      unfold takeDigits
      rw [hrest c rfl]
  | cons d ds ih =>
    rw [List.map_cons, List.cons_append]
    unfold takeDigits
    rw [digitValue_digitChar (h d List.mem_cons_self)]
    dsimp only
    rw [ih fun e he => h e (List.mem_cons_of_mem _ he)]

/-! ## Decimals -/

/-- A number rounded half to even at so many places. -/
def quantized (places : ℕ) (d : ℚ) : ℚ := roundHalfEven (d * 10 ^ places) / 10 ^ places

theorem roundHalfEven_down {x : ℚ} (h : x - ⌊x⌋ < 1 / 2) : roundHalfEven x = ⌊x⌋ := if_pos h

theorem roundHalfEven_up {x : ℚ} (h : 1 / 2 < x - ⌊x⌋) : roundHalfEven x = ⌊x⌋ + 1 :=
  (if_neg (not_lt.mpr h.le)).trans (if_pos h)

theorem roundHalfEven_tie {x : ℚ} (h : x - ⌊x⌋ = 1 / 2) :
    roundHalfEven x = if ⌊x⌋ % 2 = 0 then ⌊x⌋ else ⌊x⌋ + 1 :=
  (if_neg (not_lt.mpr h.ge)).trans (if_neg (not_lt.mpr h.le))

/-- Rounding half to even does not know which side of zero it is on. -/
theorem roundHalfEven_neg (x : ℚ) : roundHalfEven (-x) = -roundHalfEven x := by
  have hfloor : (⌊x⌋ : ℚ) ≤ x := Int.floor_le x
  by_cases hint : (⌊x⌋ : ℚ) = x
  · have hneg : ⌊-x⌋ = -⌊x⌋ := by
      rw [← hint, Int.floor_intCast, ← Int.cast_neg, Int.floor_intCast]
    have hself : x - (⌊x⌋ : ℚ) < 1 / 2 := by
      rw [hint]
      norm_num
    have hopposite : -x - (⌊-x⌋ : ℚ) < 1 / 2 := by
      rw [hneg]
      push_cast
      rw [hint]
      norm_num
    rw [roundHalfEven_down hself, roundHalfEven_down hopposite, hneg]
  · have hlt : (⌊x⌋ : ℚ) < x := lt_of_le_of_ne hfloor hint
    have hneg : ⌊-x⌋ = -⌊x⌋ - 1 := by
      rw [Int.floor_eq_iff]
      have hnext := Int.lt_floor_add_one x
      push_cast
      exact ⟨by linarith, by linarith⟩
    have hrest : -x - (⌊-x⌋ : ℚ) = 1 - (x - ⌊x⌋) := by
      rw [hneg]
      push_cast
      ring
    rcases lt_trichotomy (x - (⌊x⌋ : ℚ)) (1 / 2) with h | h | h
    · rw [roundHalfEven_down h, roundHalfEven_up (by rw [hrest]; linarith), hneg]
      omega
    · -- the tie: one of the neighbours is even
      rw [roundHalfEven_tie h, roundHalfEven_tie (by rw [hrest]; linarith), hneg]
      by_cases heven : ⌊x⌋ % 2 = 0
      · rw [if_pos heven, if_neg (by omega)]
        omega
      · rw [if_neg heven, if_pos (by omega)]
        omega
    · rw [roundHalfEven_up h, roundHalfEven_down (by rw [hrest]; linarith), hneg]
      omega

theorem roundHalfEven_nonneg {x : ℚ} (h : 0 ≤ x) : 0 ≤ roundHalfEven x := by
  have hfloor : 0 ≤ ⌊x⌋ := Int.floor_nonneg.mpr h
  unfold roundHalfEven
  dsimp only
  split
  · exact hfloor
  · split
    · omega
    · split
      · exact hfloor
      · omega

theorem parseUnsigned_whole {ws : List ℕ} (hne : ws ≠ []) (hws : ∀ d ∈ ws, d < 10) :
    parseUnsigned (ws.map Nat.digitChar) = some (ofDigits ws : ℚ) := by
  have htake := takeDigits_digits [] hws fun c hc => by cases hc
  rw [List.append_nil] at htake
  unfold parseUnsigned
  rw [htake]
  dsimp only
  rw [if_neg (by simpa using hne)]
  unfold parseExponent
  simp

theorem parseUnsigned_point {ws fs : List ℕ} (hne : ws ≠ []) (hws : ∀ d ∈ ws, d < 10)
    (hfs : ∀ d ∈ fs, d < 10) :
    parseUnsigned (ws.map Nat.digitChar ++ '.' :: fs.map Nat.digitChar) =
      some ((ofDigits (ws ++ fs) : ℚ) / 10 ^ fs.length) := by
  have hwhole := takeDigits_digits ('.' :: fs.map Nat.digitChar) hws fun c hc => by
    cases hc
    decide
  have hfrac := takeDigits_digits [] hfs fun c hc => by cases hc
  rw [List.append_nil] at hfrac
  unfold parseUnsigned
  rw [hwhole]
  show (if ws.isEmpty && (takeDigits (fs.map Nat.digitChar)).1.isEmpty then none
    else (parseExponent (takeDigits (fs.map Nat.digitChar)).2).map fun (e : ℤ) =>
      (ofDigits (ws ++ (takeDigits (fs.map Nat.digitChar)).1) : ℚ) *
        (10 : ℚ) ^ (e - ((takeDigits (fs.map Nat.digitChar)).1.length : ℤ))) = _
  rw [hfrac]
  dsimp only
  rw [if_neg (by simp [hne])]
  unfold parseExponent
  simp [div_eq_mul_inv]

/-- A digit begins no name of a number, is no sign and no filler. -/
theorem digitChar_plain {d : ℕ} (h : d < 10) : (Nat.digitChar d).toLower = Nat.digitChar d ∧
    Nat.digitChar d ≠ 'i' ∧ Nat.digitChar d ≠ 'n' ∧ Nat.digitChar d ≠ 's' ∧
    Nat.digitChar d ≠ '-' ∧ Nat.digitChar d ≠ '+' ∧ Nat.digitChar d ≠ '_' := by
  have hall : ∀ e ∈ List.range 10, (Nat.digitChar e).toLower = Nat.digitChar e ∧
      Nat.digitChar e ≠ 'i' ∧ Nat.digitChar e ≠ 'n' ∧ Nat.digitChar e ≠ 's' ∧
      Nat.digitChar e ≠ '-' ∧ Nat.digitChar e ≠ '+' ∧ Nat.digitChar e ≠ '_' := by decide
  exact hall d (List.mem_range.mpr h)

theorem isSpecial_digit {d : ℕ} {cs : List Char} (h : d < 10) :
    isSpecial (Nat.digitChar d :: cs) = false := by
  obtain ⟨hlower, hi, hn, hs, -⟩ := digitChar_plain h
  unfold isSpecial
  rw [List.map_cons, hlower]
  simp [Ne.symm hn, Ne.symm hs, hi]

/-- The sign of a number, and the rest. -/
def signOf : List Char → Bool × List Char
  | '-' :: cs => (true, cs)
  | '+' :: cs => (false, cs)
  | cs => (false, cs)

theorem signOf_digit {d : ℕ} {cs : List Char} (h : d < 10) :
    signOf (Nat.digitChar d :: cs) = (false, Nat.digitChar d :: cs) := by
  obtain ⟨-, -, -, -, hminus, hplus, -⟩ := digitChar_plain h
  unfold signOf
  split
  next heq => exact absurd (List.cons.inj heq).1 hminus
  next heq => exact absurd (List.cons.inj heq).1 hplus
  next => rfl

theorem parseDecimal_eq (text : String) : parseDecimal text =
    (let r := signOf ((stripChars text.toList).filter (· != '_'))
    if isSpecial r.2 then .special
    else match parseUnsigned r.2 with
      | none => .invalid
      | some q => .finite (if r.1 then -q else q)) := rfl

/-- A text of no blanks and no fillers is read as it stands. -/
theorem parseDecimal_plain {cs : List Char} (h : ∀ c ∈ cs, isSpace c = false ∧ c ≠ '_') :
    parseDecimal (String.ofList cs) =
      if isSpecial (signOf cs).2 then .special
      else match parseUnsigned (signOf cs).2 with
        | none => .invalid
        | some q => .finite (if (signOf cs).1 then -q else q) := by
  have hstrip : stripChars cs = cs := by
    cases cs with
    | nil => rfl
    | cons c rest =>
      obtain ⟨z, hz⟩ : ∃ z, (c :: rest).getLast? = some z :=
        ⟨_, List.getLast?_eq_some_getLast (List.cons_ne_nil c rest)⟩
      exact stripChars_same rfl hz (h c List.mem_cons_self).1 (h z (List.mem_of_getLast? hz)).1
  have hfilter : cs.filter (· != '_') = cs :=
    List.filter_eq_self.mpr fun c hc => bne_iff_ne.mpr (h c hc).2
  rw [parseDecimal_eq, String.toList_ofList, hstrip, hfilter]

/-- What is printed of a decimal is not trimmed, has no filler, and is no
name of a number. -/
theorem parseDecimal_signed {rest : List Char} {d z : ℕ} {q : ℚ} (neg : Bool) (hd : d < 10)
    (hz : z < 10) (hplain : ∀ c ∈ rest, c ≠ '_')
    (hlast : (Nat.digitChar d :: rest).getLast? = some (Nat.digitChar z))
    (hq : parseUnsigned (Nat.digitChar d :: rest) = some q) :
    parseDecimal (String.ofList ((if neg then ['-'] else []) ++ Nat.digitChar d :: rest)) =
      .finite (if neg then -q else q) := by
  have hfilter : (Nat.digitChar d :: rest).filter (· != '_') = Nat.digitChar d :: rest := by
    rw [List.filter_eq_self]
    intro c hc
    rcases List.mem_cons.mp hc with rfl | hc
    · obtain ⟨-, -, -, -, -, -, hfiller⟩ := digitChar_plain hd
      exact bne_iff_ne.mpr hfiller
    · exact bne_iff_ne.mpr (hplain c hc)
  have hsigned : signOf ((stripChars ((if neg then ['-'] else []) ++ Nat.digitChar d :: rest)).filter
      (· != '_')) = (neg, Nat.digitChar d :: rest) := by
    cases neg with
    | true =>
      have hstrip : stripChars ('-' :: Nat.digitChar d :: rest) = '-' :: Nat.digitChar d :: rest :=
        stripChars_same rfl (by rw [List.getLast?_cons_cons]; exact hlast) (by decide)
          (digitChar_spec hz).1
      show signOf ((stripChars ('-' :: Nat.digitChar d :: rest)).filter (· != '_')) = _
      rw [hstrip, List.filter_cons_of_pos (by decide), hfilter]
      rfl
    | false =>
      have hstrip := stripChars_same rfl hlast (digitChar_spec hd).1 (digitChar_spec hz).1
      show signOf ((stripChars (Nat.digitChar d :: rest)).filter (· != '_')) = _
      rw [hstrip, hfilter, signOf_digit hd]
  rw [parseDecimal_eq, String.toList_ofList, hsigned]
  dsimp only
  rw [isSpecial_digit hd, hq]
  rfl

/-- The digits of a decimal, with its point if it has one. -/
theorem decimalText_chars {places : ℕ} {d : ℚ} {text : String}
    (h : decimalText places d = some text) : ∃ ws fs : List ℕ, ws ≠ [] ∧ (∀ e ∈ ws, e < 10) ∧
      (∀ e ∈ fs, e < 10) ∧ fs.length = places ∧
      (ofDigits (ws ++ fs) : ℤ) = roundHalfEven (|d| * 10 ^ places) ∧
      text.toList = (if d < 0 then ['-'] else []) ++ (ws.map Nat.digitChar ++
        if places = 0 then [] else '.' :: fs.map Nat.digitChar) := by
  have hnonneg : 0 ≤ roundHalfEven (|d| * 10 ^ places) :=
    roundHalfEven_nonneg (mul_nonneg (abs_nonneg d) (by positivity))
  unfold decimalText at h
  dsimp only at h
  generalize hn : (roundHalfEven (|d| * 10 ^ places)).toNat = n at h
  have hvalue : (n : ℤ) = roundHalfEven (|d| * 10 ^ places) := by
    rw [← hn]
    exact Int.toNat_of_nonneg hnonneg
  rw [← hvalue]
  split at h
  · cases h
  have hsign : (if d < 0 then "-" else "").toList = if d < 0 then ['-'] else [] := by
    split
    · rfl
    · rfl
  by_cases hplaces : places = 0
  · subst hplaces
    obtain ⟨ws, hws, hlt, hval, hne, -⟩ := toString_digits (n / 10 ^ 0)
    rw [if_pos rfl] at h
    refine ⟨ws, [], hne, hlt, fun e he => (by cases he), rfl, ?_, ?_⟩
    · rw [List.append_nil, hval, pow_zero, Nat.div_one]
    · rw [← Option.some.inj h, String.toList_append, hsign, hws, if_pos rfl, List.append_nil]
  · have hpos : 0 < places := Nat.pos_of_ne_zero hplaces
    have hten : 0 < 10 ^ places := Nat.pow_pos (by decide)
    obtain ⟨ws, hws, hlt, hval, hne, -⟩ := toString_digits (n / 10 ^ places)
    obtain ⟨fs, hfs, hlt', hval', hlen⟩ := padded_digits hpos (Nat.mod_lt n hten)
    rw [if_neg hplaces] at h
    refine ⟨ws, fs, hne, hlt, hlt', hlen, ?_, ?_⟩
    · rw [ofDigits_append, hval, hval', hlen]
      exact_mod_cast Nat.div_add_mod' n (10 ^ places)
    · have hpoint : ".".toList = ['.'] := rfl
      rw [← Option.some.inj h, if_neg hplaces, String.toList_append, String.toList_append,
        String.toList_append, hsign, hws, hfs, hpoint]
      simp

/-- The digits end with a digit, and are read as the number they are. -/
theorem parseUnsigned_decimal {ws fs : List ℕ} {places : ℕ} (hne : ws ≠ [])
    (hws : ∀ e ∈ ws, e < 10) (hfs : ∀ e ∈ fs, e < 10) (hlen : fs.length = places) :
    let cs := ws.map Nat.digitChar ++ if places = 0 then [] else '.' :: fs.map Nat.digitChar
    (∃ z < 10, cs.getLast? = some (Nat.digitChar z)) ∧
      parseUnsigned cs = some ((ofDigits (ws ++ fs) : ℚ) / 10 ^ places) := by
  have hlast : ∀ {ds : List ℕ}, ds ≠ [] → (∀ e ∈ ds, e < 10) →
      ∃ z < 10, (ds.map Nat.digitChar).getLast? = some (Nat.digitChar z) := by
    intro ds hds hlt
    refine ⟨ds.getLast hds, hlt _ (List.getLast_mem hds), ?_⟩
    rw [List.getLast?_map, List.getLast?_eq_getLast_of_ne_nil hds]
    rfl
  dsimp only
  by_cases hplaces : places = 0
  · subst hplaces
    obtain rfl := List.length_eq_zero_iff.mp hlen
    rw [if_pos rfl, List.append_nil, List.append_nil, pow_zero, div_one]
    exact ⟨hlast hne hws, parseUnsigned_whole hne hws⟩
  · have hfne : fs ≠ [] := by
      rintro rfl
      exact hplaces hlen.symm
    obtain ⟨z, hz, hend⟩ := hlast hfne hfs
    rw [if_neg hplaces]
    refine ⟨⟨z, hz, ?_⟩, ?_⟩
    · rw [List.getLast?_append_cons, List.getLast?_cons, hend]
      rfl
    · rw [parseUnsigned_point hne hws hfs, hlen]

/-- **A decimal read back** is the decimal rounded. -/
theorem parseDecimal_decimalText {places : ℕ} {d : ℚ} {text : String}
    (h : decimalText places d = some text) :
    parseDecimal text = .finite (quantized places d) := by
  obtain ⟨ws, fs, hne, hws, hfs, hlen, hvalue, htext⟩ := decimalText_chars h
  obtain ⟨⟨z, hz, hlast⟩, hparse⟩ := parseUnsigned_decimal hne hws hfs hlen
  obtain ⟨w, ws, rfl⟩ := List.exists_cons_of_ne_nil hne
  rw [List.map_cons, List.cons_append] at hlast hparse htext
  have hplain : ∀ c ∈ ws.map Nat.digitChar ++
      (if places = 0 then [] else '.' :: fs.map Nat.digitChar), c ≠ '_' := by
    have hdigits : ∀ {ds : List ℕ}, (∀ e ∈ ds, e < 10) → ∀ c ∈ ds.map Nat.digitChar, c ≠ '_' := by
      intro ds hlt c hc
      obtain ⟨e, he, rfl⟩ := List.mem_map.mp hc
      obtain ⟨-, -, -, -, -, -, hfiller⟩ := digitChar_plain (hlt e he)
      exact hfiller
    intro c hc
    rcases List.mem_append.mp hc with hc | hc
    · exact hdigits (fun e he => hws e (List.mem_cons_of_mem _ he)) c hc
    · split at hc
      · cases hc
      · rcases List.mem_cons.mp hc with rfl | hc
        · decide
        · exact hdigits hfs c hc
  have hread := parseDecimal_signed (decide (d < 0)) (hws w List.mem_cons_self) hz hplain
    hlast hparse
  have hchars : text = String.ofList ((if decide (d < 0) = true then ['-'] else []) ++
      Nat.digitChar w :: (ws.map Nat.digitChar ++
        if places = 0 then [] else '.' :: fs.map Nat.digitChar)) := by
    rw [← String.ofList_toList (s := text), htext]
    simp only [decide_eq_true_eq]
  rw [hchars, hread]
  have hcast : (ofDigits (w :: ws ++ fs) : ℚ) = (roundHalfEven (|d| * 10 ^ places) : ℚ) := by
    exact_mod_cast hvalue
  rw [hcast]
  unfold quantized
  by_cases hneg : d < 0
  · have habs : |d| * 10 ^ places = -(d * 10 ^ places) := by
      rw [abs_of_neg hneg]
      ring
    rw [if_pos (by simpa using hneg), habs, roundHalfEven_neg]
    rw [Int.cast_neg, neg_div, neg_neg]
  · rw [if_neg (by simpa using hneg), abs_of_nonneg (not_lt.mp hneg)]

/-! ## The text of a date -/

/-- `isoformat` of the date of a day number. -/
def dateText (d : Date) : String :=
  let (y, m, day) := civil d
  padded 4 y.toNat ++ "-" ++ padded 2 m.toNat ++ "-" ++ padded 2 day.toNat

/-- What `datetime` can hold. -/
def InCalendar (d : Date) : Prop := 1 ≤ (civil d).1 ∧ (civil d).1 ≤ 9999

theorem digitChar_toNat {d : ℕ} (h : d < 10) : (Nat.digitChar d).toNat - 48 = d := by
  have hall : ∀ e ∈ List.range 10, (Nat.digitChar e).toNat - 48 = e := by decide
  exact hall d (List.mem_range.mpr h)

/-- A date is printed in ten characters. -/
theorem dateText_chars {d : Date} (h : InCalendar d) : ∃ y3 y2 y1 y0 m1 m0 d1 d0 : ℕ,
    (∀ e ∈ [y3, y2, y1, y0, m1, m0, d1, d0], e < 10) ∧
    (dateText d).toList = [y3, y2, y1, y0].map Nat.digitChar ++ '-' :: ([m1, m0].map Nat.digitChar ++
      '-' :: [d1, d0].map Nat.digitChar) ∧
    (ofDigits [y3, y2, y1, y0] : ℤ) = (civil d).1 ∧ (ofDigits [m1, m0] : ℤ) = (civil d).2.1 ∧
    (ofDigits [d1, d0] : ℤ) = (civil d).2.2 := by
  obtain ⟨hm1, hm12, hd1, hdlast⟩ := civil_spec d
  have hd31 : (civil d).2.2 ≤ 31 := by
    refine hdlast.trans ?_
    unfold monthLength
    split
    · split
      · omega
      · omega
    · split
      · omega
      · omega
  obtain ⟨hy1, hy9999⟩ := h
  obtain ⟨ys, hys, hylt, hyval, hylen⟩ := padded_digits (n := (civil d).1.toNat)
    (show 0 < 4 by decide) (show _ < 10000 by omega)
  obtain ⟨ms, hms, hmlt, hmval, hmlen⟩ := padded_digits (n := (civil d).2.1.toNat)
    (show 0 < 2 by decide) (show _ < 100 by omega)
  obtain ⟨ds, hds, hdlt, hdval, hdlen⟩ := padded_digits (n := (civil d).2.2.toNat)
    (show 0 < 2 by decide) (show _ < 100 by omega)
  match ys, hylen with
  | [y3, y2, y1, y0], _ => match ms, hmlen with
    | [m1, m0], _ => match ds, hdlen with
      | [d1, d0], _ =>
        refine ⟨y3, y2, y1, y0, m1, m0, d1, d0, ?_, ?_, ?_, ?_, ?_⟩
        · intro e he
          simp only [List.mem_cons, List.not_mem_nil, or_false] at he hylt hmlt hdlt
          rcases he with rfl | rfl | rfl | rfl | rfl | rfl | rfl | rfl
          · exact hylt _ (by simp)
          · exact hylt _ (by simp)
          · exact hylt _ (by simp)
          · exact hylt _ (by simp)
          · exact hmlt _ (by simp)
          · exact hmlt _ (by simp)
          · exact hdlt _ (by simp)
          · exact hdlt _ (by simp)
        · have htext : dateText d = padded 4 (civil d).1.toNat ++ "-" ++
            padded 2 (civil d).2.1.toNat ++ "-" ++ padded 2 (civil d).2.2.toNat := rfl
          have hdash : "-".toList = ['-'] := rfl
          rw [htext, String.toList_append, String.toList_append, String.toList_append,
            String.toList_append, hys, hms, hds, hdash]
          simp
        · rw [hyval]
          omega
        · rw [hmval]
          omega
        · rw [hdval]
          omega

theorem digitChar_isDigit {d : ℕ} (h : d < 10) : (Nat.digitChar d).isDigit = true := by
  have hall : ∀ e ∈ List.range 10, (Nat.digitChar e).isDigit = true := by decide
  exact hall d (List.mem_range.mpr h)

/-- Ten characters that are the digits of a date are its text. -/
theorem realDate_digits {s : String} {y3 y2 y1 y0 m1 m0 d1 d0 : ℕ}
    (hlt : ∀ e ∈ [y3, y2, y1, y0, m1, m0, d1, d0], e < 10)
    (hchars : s.toList = [y3, y2, y1, y0].map Nat.digitChar ++ '-' ::
      ([m1, m0].map Nat.digitChar ++ '-' :: [d1, d0].map Nat.digitChar)) :
    realDate s = decide (1 ≤ (ofDigits [y3, y2, y1, y0] : ℤ) ∧ 1 ≤ (ofDigits [m1, m0] : ℤ) ∧
      (ofDigits [m1, m0] : ℤ) ≤ 12 ∧ 1 ≤ (ofDigits [d1, d0] : ℤ) ∧
      (ofDigits [d1, d0] : ℤ) ≤ monthLength (ofDigits [y3, y2, y1, y0]) (ofDigits [m1, m0])) := by
  have hall : ∀ ds : List ℕ, (∀ e ∈ ds, e ∈ [y3, y2, y1, y0, m1, m0, d1, d0]) →
      (ds.map Nat.digitChar).map (fun c => c.toNat - 48) = ds := by
    intro ds hds
    rw [List.map_map]
    exact (List.map_congr_left fun e he => digitChar_toNat (hlt e (hds e he))).trans (List.map_id ds)
  have hy := hall [y3, y2, y1, y0] (by simp)
  have hm := hall [m1, m0] (by simp)
  have hd := hall [d1, d0] (by simp)
  have hdigits : ([y3, y2, y1, y0, m1, m0, d1, d0].map Nat.digitChar).all Char.isDigit = true := by
    rw [List.all_eq_true]
    intro c hc
    obtain ⟨e, he, rfl⟩ := List.mem_map.mp hc
    exact digitChar_isDigit (hlt e he)
  have hlist : s.toList = [Nat.digitChar y3, Nat.digitChar y2, Nat.digitChar y1, Nat.digitChar y0,
      '-', Nat.digitChar m1, Nat.digitChar m0, '-', Nat.digitChar d1, Nat.digitChar d0] := hchars
  unfold realDate
  rw [hlist]
  dsimp only
  refine (congrArg₂ _ hdigits ?_).trans (Bool.true_and _)
  rw [← hy, ← hm, ← hd]
  rfl

/-- Two dates of one text are one date. -/
theorem dateText_injective {d d' : Date} (h : InCalendar d) (h' : InCalendar d')
    (htext : dateText d = dateText d') : d = d' := by
  obtain ⟨y3, y2, y1, y0, m1, m0, d1, d0, hlt, hchars, hy, hm, hd⟩ := dateText_chars h
  obtain ⟨y3', y2', y1', y0', m1', m0', d1', d0', hlt', hchars', hy', hm', hd'⟩ :=
    dateText_chars h'
  rw [htext, hchars'] at hchars
  have hsame : ∀ {e e' : ℕ}, e < 10 → e' < 10 → Nat.digitChar e' = Nat.digitChar e → e' = e := by
    intro e e' he he' heq
    rw [← digitChar_toNat he, ← digitChar_toNat he', heq]
  simp only [List.map_cons, List.map_nil, List.cons_append, List.nil_append, List.cons.injEq,
    true_and, and_true] at hchars
  simp only [List.mem_cons, List.not_mem_nil, or_false, forall_eq_or_imp, forall_eq] at hlt hlt'
  obtain ⟨e3, e2, e1, e0, f1, f0, g1, g0⟩ := hchars
  obtain ⟨l3, l2, l1, l0, k1, k0, j1, j0⟩ := hlt
  obtain ⟨l3', l2', l1', l0', k1', k0', j1', j0'⟩ := hlt'
  obtain rfl := hsame l3 l3' e3
  obtain rfl := hsame l2 l2' e2
  obtain rfl := hsame l1 l1' e1
  obtain rfl := hsame l0 l0' e0
  obtain rfl := hsame k1 k1' f1
  obtain rfl := hsame k0 k0' f0
  obtain rfl := hsame j1 j1' g1
  obtain rfl := hsame j0 j0' g0
  rw [← dayNumber_civil d, ← dayNumber_civil d', ← hy, ← hm, ← hd, ← hy', ← hm', ← hd']

/-- **The text of a date is one**: ten characters that name a day of the
calendar. -/
theorem dateText_real {d : Date} (h : InCalendar d) : realDate (dateText d) = true := by
  obtain ⟨y3, y2, y1, y0, m1, m0, d1, d0, hlt, hchars, hy, hm, hd⟩ := dateText_chars h
  obtain ⟨hm1, hm12, hd1, hdlast⟩ := civil_spec d
  rw [realDate_digits hlt hchars, hy, hm, hd]
  exact decide_eq_true ⟨h.1, hm1, hm12, hd1, hdlast⟩

end TradeDesk.Loops
