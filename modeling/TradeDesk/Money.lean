import Mathlib.Data.Rat.Floor
import Mathlib.Algebra.Order.Floor.Ring
import Mathlib.Tactic.Linarith
import Mathlib.Tactic.FieldSimp

/-!
# Money: decimals and their roundings

`tc/money.py` keeps every amount a `Decimal`, never a float. The engine's
amounts are cents, share counts and percentages of them, far inside the
28 digits the decimal context keeps, so a `Decimal` here is the rational
it denotes and only the explicit roundings of the source round:
`floorCents` (every cap), `cents` (half to even) and `ceilCents`
(`quantize(CENT, ROUND_CEILING)`, the stop triggers).
-/

namespace TradeDesk

/-- Round down to the cent. Used for every cap so a cap never rounds up. -/
def floorCents (d : ℚ) : ℚ := ⌊d * 100⌋ / 100

/-- Round up to the cent. -/
def ceilCents (d : ℚ) : ℚ := ⌈d * 100⌉ / 100

/-- Round to the cent, half to even. -/
def cents (d : ℚ) : ℚ :=
  let n := ⌊d * 100⌋
  let r := d * 100 - n
  if r < 1 / 2 then n / 100
  else if 1 / 2 < r then (n + 1) / 100
  else if n % 2 = 0 then n / 100 else (n + 1) / 100

/-- `int(d)` of a decimal: the fraction is cut off, toward zero. -/
def truncInt (d : ℚ) : ℤ := if 0 ≤ d then ⌊d⌋ else ⌈d⌉

theorem floorCents_le (d : ℚ) : floorCents d ≤ d := by
  have h := Int.floor_le (d * 100)
  unfold floorCents
  linarith

theorem le_ceilCents (d : ℚ) : d ≤ ceilCents d := by
  have h := Int.le_ceil (d * 100)
  unfold ceilCents
  linarith

theorem ceilCents_mono {a b : ℚ} (h : a ≤ b) : ceilCents a ≤ ceilCents b := by
  have hab : a * 100 ≤ b * 100 := by linarith
  have hc : ((⌈a * 100⌉ : ℤ) : ℚ) ≤ ⌈b * 100⌉ := by exact_mod_cast Int.ceil_mono hab
  unfold ceilCents
  linarith

theorem ceilCents_pos {d : ℚ} (h : 0 < d) : 0 < ceilCents d :=
  lt_of_lt_of_le h (le_ceilCents d)

theorem cents_nonneg {d : ℚ} (h : 0 ≤ d) : 0 ≤ cents d := by
  have hn : (0 : ℚ) ≤ ⌊d * 100⌋ := by
    exact_mod_cast Int.floor_nonneg.mpr (by linarith)
  unfold cents
  dsimp only
  split
  · linarith
  · split
    · linarith
    · split <;> linarith

/-- What is rounded moves by at most half a cent, and by half a cent only to
an even one. -/
theorem cents_spec (d : ℚ) : ∃ n : ℤ, cents d = n / 100 ∧ (n : ℚ) - 1 / 2 ≤ d * 100 ∧
    d * 100 ≤ n + 1 / 2 ∧ (d * 100 = n - 1 / 2 ∨ d * 100 = n + 1 / 2 → n % 2 = 0) := by
  have hle := Int.floor_le (d * 100)
  have hlt := Int.lt_floor_add_one (d * 100)
  unfold cents
  dsimp only
  split
  next hlow =>
    refine ⟨⌊d * 100⌋, rfl, by linarith, by linarith, ?_⟩
    rintro (htie | htie) <;> linarith
  next hlow =>
    split
    next hhigh =>
      refine ⟨⌊d * 100⌋ + 1, by push_cast; rfl, by push_cast; linarith, by push_cast; linarith, ?_⟩
      rintro (htie | htie) <;> push_cast at htie <;> linarith
    next hhigh =>
      split
      next heven => exact ⟨⌊d * 100⌋, rfl, by linarith, by linarith, fun _ => heven⟩
      next hodd =>
        refine ⟨⌊d * 100⌋ + 1, by push_cast; rfl, by push_cast; linarith, by push_cast; linarith, ?_⟩
        intro _
        omega

/-- Rounding keeps order. -/
theorem cents_mono {a b : ℚ} (h : a ≤ b) : cents a ≤ cents b := by
  obtain ⟨m, hm, hm0, hm1, hmeven⟩ := cents_spec a
  obtain ⟨n, hn, hn0, hn1, hneven⟩ := cents_spec b
  rw [hm, hn]
  have hmn : m ≤ n := by
    by_contra hlt
    have hnext : (n : ℚ) + 1 ≤ m := by exact_mod_cast not_le.mp hlt
    -- both are halfway between the same two cents, and each went to the even one
    have heq : m = n + 1 := by
      have hupper : (m : ℚ) ≤ n + 1 := by linarith
      have hlower : m ≤ n + 1 := by exact_mod_cast hupper
      omega
    have hm2 := hmeven (.inl (by linarith))
    have hn2 := hneven (.inr (by linarith))
    omega
  have hcast : (m : ℚ) ≤ n := by exact_mod_cast hmn
  linarith

/-- Shown as negative: below minus half a cent. -/
theorem cents_neg_iff {d : ℚ} : cents d < 0 ↔ d < -1 / 200 := by
  obtain ⟨n, hn, hlow, hhigh, heven⟩ := cents_spec d
  rw [hn]
  constructor
  · intro hneg
    have hn1 : (n : ℚ) < 0 := by linarith
    have hn2 : n ≤ -1 := by
      have : n < 0 := by exact_mod_cast hn1
      omega
    have hn3 : (n : ℚ) ≤ -1 := by exact_mod_cast hn2
    by_contra hd
    have htie : d * 100 = n + 1 / 2 := by linarith
    have hn4 : (n : ℚ) = -1 := by linarith
    have hn5 : n = -1 := by exact_mod_cast hn4
    have := heven (.inr htie)
    omega
  · intro hd
    have hn1 : (n : ℚ) < 0 := by linarith
    linarith

theorem truncInt_nonneg {d : ℚ} (h : 0 ≤ d) : 0 ≤ truncInt d := by
  rw [truncInt, if_pos h]
  exact Int.floor_nonneg.mpr h

/-- A whole number at least one only comes from a number at least one. -/
theorem one_le_of_truncInt {d : ℚ} (h : 1 ≤ truncInt d) : 1 ≤ d := by
  unfold truncInt at h
  split at h
  · exact le_trans (by exact_mod_cast h) (Int.floor_le d)
  next hd =>
    have : ⌈d⌉ ≤ 0 := Int.ceil_le.mpr (by push_cast; linarith)
    omega

end TradeDesk
