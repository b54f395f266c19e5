import TradeDesk.Scripts.OrderGate
import Mathlib.Data.List.TakeWhile
import Mathlib.Tactic.FieldSimp
import Mathlib.Tactic.LinearCombination

/-!
# Amounts and ten-thousandths

An amount that the gate accepts has at most thirteen digits before its point
and four after it. So its ten-thousandths are a whole number, which `toE4`
computes without leaving the 64 bits of the shell (`toE4_exact`).
-/

namespace TradeDesk.Scripts

/-! ## The range of the shell -/

/-- What 64 bits hold. -/
def Fits64 (n : ℤ) : Prop := -2 ^ 63 ≤ n ∧ n < 2 ^ 63

theorem wrap_of_fits {n : ℤ} (h : Fits64 n) : wrap n = n := by
  obtain ⟨hlow, hhigh⟩ := h
  unfold wrap
  exact Int.bmod_eq_of_le (by omega) (by omega)

theorem fits_of_lt {n b : ℤ} (h0 : 0 ≤ n) (h : n < b) (hb : b ≤ 2 ^ 63) : Fits64 n := by
  unfold Fits64
  omega

/-! ## Digits -/

theorem digit_lt {c : Char} (h : c.isDigit = true) : c.toNat - 48 < 10 := by
  have hcode : c.toNat ≤ 57 := by
    have hboth := Bool.and_eq_true_iff.mp h
    have hle := of_decide_eq_true hboth.2
    exact hle
  omega

/-- The value of digits. -/
def valueOf (digits : List Char) : ℕ := ofDigits (digits.map fun c => c.toNat - 48)

theorem valueOf_append (xs ys : List Char) :
    valueOf (xs ++ ys) = valueOf xs * 10 ^ ys.length + valueOf ys := by
  have hfold : ∀ (ds : List ℕ) (n : ℕ), ds.foldl (fun n d => 10 * n + d) n =
      n * 10 ^ ds.length + ofDigits ds := by
    intro ds
    induction ds with
    | nil =>
      intro n
      show n = n * 1 + 0
      omega
    | cons d ds ih =>
      intro n
      have hd : ofDigits (d :: ds) = ds.foldl (fun n d => 10 * n + d) (10 * 0 + d) := rfl
      rw [hd, List.foldl_cons, ih, ih, List.length_cons, Nat.pow_succ]
      ring
  unfold valueOf
  rw [List.map_append]
  unfold ofDigits
  rw [List.foldl_append, hfold, List.length_map]
  rfl

theorem valueOf_lt {digits : List Char} (h : ∀ c ∈ digits, c.isDigit = true) :
    valueOf digits < 10 ^ digits.length := by
  induction digits with
  | nil => exact Nat.one_pos
  | cons c cs ih =>
    have hc := digit_lt (h c List.mem_cons_self)
    have hcs := ih fun d hd => h d (List.mem_cons_of_mem _ hd)
    have hsplit := valueOf_append [c] cs
    have hone : valueOf [c] = c.toNat - 48 := by
      show 10 * 0 + (c.toNat - 48) = c.toNat - 48
      omega
    rw [hone] at hsplit
    have hbound : (c.toNat - 48) * 10 ^ cs.length ≤ 9 * 10 ^ cs.length :=
      Nat.mul_le_mul_right _ (by omega)
    rw [List.length_cons, Nat.pow_succ]
    show valueOf ([c] ++ cs) < _
    rw [hsplit]
    omega

theorem valueOf_zeros (k : ℕ) : valueOf (List.replicate k '0') = 0 := by
  induction k with
  | zero => rfl
  | succ k ih =>
    rw [List.replicate_succ', valueOf_append, ih]
    rfl

/-- Up to eighteen digits fit. -/
theorem number_eq {digits : List Char} (h : ∀ c ∈ digits, c.isDigit = true)
    (hlen : digits.length ≤ 18) : number digits = valueOf digits := by
  have hlt := valueOf_lt h
  have hpow : 10 ^ digits.length ≤ 10 ^ 18 := Nat.pow_le_pow_right (by decide) hlen
  have hfits : Fits64 (valueOf digits : ℤ) := by
    unfold Fits64
    omega
  exact wrap_of_fits hfits

/-! ## Amounts -/

/-- The amount that a decimal text names. -/
def amount (s : String) : ℚ :=
  let int := s.toList.takeWhile (· != '.')
  let frac := (s.toList.dropWhile (· != '.')).tail
  valueOf int + valueOf frac / 10 ^ frac.length

/-- The digits before the point and after it. -/
structure Parts (whole : ℕ) (s : String) (int frac : List Char) : Prop where
  int_eq : s.toList.takeWhile (· != '.') = int
  frac_eq : (s.toList.dropWhile (· != '.')).tail = frac
  int_digits : ∀ c ∈ int, c.isDigit = true
  frac_digits : ∀ c ∈ frac, c.isDigit = true
  int_pos : 1 ≤ int.length
  int_le : int.length ≤ whole
  frac_le : frac.length ≤ 4

theorem not_point {c : Char} (h : c.isDigit = true) : (c != '.') = true := by
  rw [bne_iff_ne]
  rintro rfl
  cases h

theorem takeWhile_digits {int rest : List Char} (hint : ∀ c ∈ int, c.isDigit = true)
    (hrest : rest.head?.all (· == '.') = true) :
    (int ++ rest).takeWhile (· != '.') = int ∧ (int ++ rest).dropWhile (· != '.') = rest := by
  have hpoint : rest.takeWhile (· != '.') = [] ∧ rest.dropWhile (· != '.') = rest := by
    cases rest with
    | nil => exact ⟨rfl, rfl⟩
    | cons c cs =>
      have hc : c = '.' := beq_iff_eq.mp hrest
      subst hc
      exact ⟨rfl, rfl⟩
  have hall : ∀ c ∈ int, (c != '.') = true := fun c hc => not_point (hint c hc)
  rw [List.takeWhile_append_of_pos hall, List.dropWhile_append_of_pos hall, hpoint.1, hpoint.2,
    List.append_nil]
  exact ⟨rfl, rfl⟩

/-- **An accepted decimal** is its digits before and after the point. -/
theorem decimalFormat_parts {whole : ℕ} {s : String} (h : decimalFormat whole s = true) :
    ∃ int frac, Parts whole s int frac := by
  unfold decimalFormat at h
  dsimp only at h
  obtain ⟨hlen, hrest⟩ := Bool.and_eq_true_iff.mp h
  obtain ⟨hpos, hle⟩ := of_decide_eq_true hlen
  have hint : ∀ c ∈ s.toList.takeWhile Char.isDigit, c.isDigit = true :=
    fun c hc => List.mem_takeWhile_imp hc
  have hsplit := List.takeWhile_append_dropWhile (p := Char.isDigit) (l := s.toList)
  generalize s.toList.takeWhile Char.isDigit = int at *
  generalize s.toList.dropWhile Char.isDigit = rest at *
  split at hrest
  · obtain ⟨htake, hdrop⟩ := @takeWhile_digits int [] hint rfl
    rw [hsplit] at htake hdrop
    exact ⟨int, [], htake, by rw [hdrop]; rfl, hint, fun c hc => (by cases hc), hpos, hle,
      Nat.zero_le _⟩
  next frac =>
    obtain ⟨hfrac, hdigits⟩ := Bool.and_eq_true_iff.mp hrest
    obtain ⟨-, hfle⟩ := of_decide_eq_true hfrac
    obtain ⟨htake, hdrop⟩ := @takeWhile_digits int ('.' :: frac) hint rfl
    rw [hsplit] at htake hdrop
    exact ⟨int, frac, htake, by rw [hdrop]; rfl, hint, List.all_eq_true.mp hdigits, hpos, hle,
      hfle⟩
  · cases hrest

/-- Four digits after the point, with zeros for those that are missing. -/
theorem valueOf_padded {frac : List Char} (h : frac.length ≤ 4) :
    valueOf ((frac ++ ['0', '0', '0', '0']).take 4) = valueOf frac * 10 ^ (4 - frac.length) := by
  have hzeros : ['0', '0', '0', '0'] = List.replicate 4 '0' := rfl
  rw [hzeros, List.take_append, List.take_of_length_le h, List.take_replicate, valueOf_append,
    valueOf_zeros, List.length_replicate, Nat.add_zero]
  congr 2
  omega

/-- **The conversion loses nothing**, and no step of it leaves the range of
the shell. -/
theorem toE4_exact {whole : ℕ} {s : String} (h : decimalFormat whole s = true)
    (hwhole : whole ≤ 13) : (toE4 s : ℚ) = amount s * 10000 ∧ 0 ≤ toE4 s ∧
      toE4 s < 10 ^ (whole + 4) := by
  obtain ⟨int, frac, hint, hfrac, hintDigits, hfracDigits, -, hle, hfle⟩ := decimalFormat_parts h
  have hpadDigits : ∀ c ∈ (frac ++ ['0', '0', '0', '0']).take 4, c.isDigit = true := by
    intro c hc
    rcases List.mem_append.mp (List.mem_of_mem_take hc) with hc | hc
    · exact hfracDigits c hc
    · have hzero : c = '0' := by simpa using hc
      rw [hzero]
      rfl
  have hpadLen : ((frac ++ ['0', '0', '0', '0']).take 4).length ≤ 18 := by
    rw [List.length_take]
    omega
  have hintLt := valueOf_lt hintDigits
  have hpadLt := valueOf_lt hpadDigits
  have hpow : 10 ^ int.length ≤ 10 ^ whole := Nat.pow_le_pow_right (by decide) hle
  have hwide : 10 ^ whole ≤ 10 ^ 13 := Nat.pow_le_pow_right (by decide) hwhole
  have hpadFour : ((frac ++ ['0', '0', '0', '0']).take 4).length = 4 := by
    rw [List.length_take, List.length_append]
    simp
  rw [hpadFour] at hpadLt
  have hvalue : toE4 s = (valueOf int * 10000 +
      valueOf ((frac ++ ['0', '0', '0', '0']).take 4) : ℕ) := by
    unfold toE4
    dsimp only
    rw [hint, hfrac, number_eq hintDigits (by omega), number_eq hpadDigits hpadLen]
    have hfits : Fits64 ((valueOf int : ℤ) * 10000) := by
      unfold Fits64
      omega
    rw [wrap_of_fits hfits]
    refine (wrap_of_fits ?_).trans ?_
    · unfold Fits64
      omega
    · push_cast
      rfl
  refine ⟨?_, ?_, ?_⟩
  · have hpad := valueOf_padded hfle
    have hten : (10 : ℚ) ^ frac.length * 10 ^ (4 - frac.length) = 10000 := by
      rw [← pow_add]
      have hfour : frac.length + (4 - frac.length) = 4 := by omega
      rw [hfour]
      norm_num
    have hne : (10 : ℚ) ^ frac.length ≠ 0 := by positivity
    unfold amount
    dsimp only
    rw [hvalue, hint, hfrac, hpad]
    push_cast
    field_simp
    linear_combination (valueOf frac : ℚ) * hten
  · omega
  · rw [hvalue, pow_add]
    have hcast : ((10 ^ whole * 10 ^ 4 : ℕ) : ℤ) = 10 ^ whole * 10 ^ 4 := by push_cast; rfl
    rw [← hcast]
    omega

/-- A count of shares is a number without a point. -/
theorem isQty_exact {s : String} (h : isQty s = true) :
    (number s.toList : ℚ) = amount s ∧ 0 ≤ number s.toList := by
  obtain ⟨hlen, hdigits⟩ := Bool.and_eq_true_iff.mp h
  obtain ⟨-, hle⟩ := of_decide_eq_true hlen
  have hall := List.all_eq_true.mp hdigits
  obtain ⟨htake, hdrop⟩ := @takeWhile_digits s.toList [] hall rfl
  rw [List.append_nil] at htake hdrop
  have hnumber := number_eq hall (by omega)
  unfold amount
  dsimp only
  rw [htake, hdrop, hnumber]
  refine ⟨?_, Int.natCast_nonneg _⟩
  show ((valueOf s.toList : ℤ) : ℚ) = (valueOf s.toList : ℚ) + ((0 : ℕ) : ℚ) / 10 ^ 0
  simp

end TradeDesk.Scripts
