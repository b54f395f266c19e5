import TradeDesk.Clock
import Mathlib.Algebra.Order.Ring.Int
import Mathlib.Data.List.Range

/-!
# Counting sessions and weekdays

The engine's only calendar is the week: a session is a weekday, holidays are
not known (`trading_days_between`, `tc/clock.py`). A count over a span
splits at any day of it (`sessionsBetween_add`), for the market's own
sessions as for weekdays. The weekdays of a span are also a difference of
two values of one function (`tradingDaysBetween_eq`), so that questions
about them are linear arithmetic.
-/

namespace TradeDesk

/-! ## Sessions of a market -/

/-- Sessions after `a`, up to `b`. -/
def sessionsBetween (isSession : Date → Bool) (a b : Date) : ℕ :=
  (List.range (b - a).toNat).countP fun n : ℕ => isSession (a + 1 + (n : ℤ))

section

variable {isSession : Date → Bool}

theorem sessionsBetween_add {a b c : ℤ} (hab : a ≤ b) (hbc : b ≤ c) :
    sessionsBetween isSession a c = sessionsBetween isSession a b + sessionsBetween isSession b c := by
  have hlen : (c - a).toNat = (b - a).toNat + (c - b).toNat := by omega
  unfold sessionsBetween
  rw [hlen, List.range_add, List.countP_append, List.countP_map]
  congr 1
  refine List.countP_congr fun n _ => ?_
  have hday : a + 1 + (((b - a).toNat + n : ℕ) : ℤ) = b + 1 + (n : ℤ) := by omega
  dsimp only [Function.comp_apply]
  rw [hday]

theorem sessionsBetween_of_le {a b : ℤ} (h : b ≤ a) : sessionsBetween isSession a b = 0 := by
  have hnone : (b - a).toNat = 0 := by omega
  unfold sessionsBetween
  rw [hnone]
  rfl

theorem sessionsBetween_next (a : ℤ) :
    sessionsBetween isSession a (a + 1) = if isSession (a + 1) = true then 1 else 0 := by
  have hone : (a + 1 - a).toNat = 1 := by omega
  unfold sessionsBetween
  rw [hone, List.range_one, List.countP_singleton, Nat.cast_zero, add_zero]

/-- A later start has fewer to come. -/
theorem sessionsBetween_anti {a b c : ℤ} (h : a ≤ b) :
    sessionsBetween isSession b c ≤ sessionsBetween isSession a c := by
  rcases le_total b c with hbc | hcb
  · rw [sessionsBetween_add h hbc]
    exact Nat.le_add_left _ _
  · rw [sessionsBetween_of_le hcb]
    exact Nat.zero_le _

/-- A session is one of those after any earlier day. -/
theorem sessionsBetween_lt {a d c : ℤ} (had : a < d) (hdc : d ≤ c) (hd : isSession d = true) :
    sessionsBetween isSession d c < sessionsBetween isSession a c := by
  have hone : sessionsBetween isSession (d - 1) d = 1 := by
    have h := @sessionsBetween_next isSession (d - 1)
    rw [sub_add_cancel, if_pos hd] at h
    exact h
  have hsplit := @sessionsBetween_add isSession _ _ _ (show d - 1 ≤ d by omega) hdc
  have hanti := @sessionsBetween_anti isSession _ _ c (show a ≤ d - 1 by omega)
  omega

/-- Without one before the last day there is one at most. -/
theorem sessionsBetween_le_one {a b : ℤ} (h : ∀ d, a < d → d < b → isSession d = false) :
    sessionsBetween isSession a b ≤ 1 := by
  rcases le_or_gt b a with hba | hab
  · rw [sessionsBetween_of_le hba]
    exact Nat.zero_le _
  · have hbefore : sessionsBetween isSession a (b - 1) = 0 := by
      unfold sessionsBetween
      rw [List.countP_eq_zero]
      intro n hn
      rw [List.mem_range] at hn
      rw [h (a + 1 + (n : ℤ)) (by omega) (by omega)]
      decide
    have hlast := @sessionsBetween_next isSession (b - 1)
    rw [sub_add_cancel] at hlast
    rw [sessionsBetween_add (show a ≤ b - 1 by omega) (show b - 1 ≤ b by omega), hbefore, hlast]
    split
    · exact le_rfl
    · exact Nat.zero_le _

/-- The weekdays are the sessions of a market without holidays. -/
theorem tradingDaysBetween_sessions (a b : Date) :
    tradingDaysBetween a b = sessionsBetween (fun d => decide (weekday d < 5)) a b := rfl

/-- Weekdays count too many rather than too few. -/
theorem sessionsBetween_le_weekdays (h : ∀ d, isSession d = true → weekday d < 5) (a b : Date) :
    (sessionsBetween isSession a b : ℤ) ≤ tradingDaysBetween a b := by
  rw [tradingDaysBetween_sessions, Nat.cast_le]
  exact List.countP_mono_left fun n _ hn => decide_eq_true (h _ hn)

end

/-! ## Weekdays -/

theorem tradingDaysBetween_of_le {a b : ℤ} (h : b ≤ a) : tradingDaysBetween a b = 0 := by
  rw [tradingDaysBetween_sessions, sessionsBetween_of_le h]
  rfl

theorem tradingDaysBetween_nonneg (a b : ℤ) : 0 ≤ tradingDaysBetween a b :=
  Int.natCast_nonneg _

theorem tradingDaysBetween_add {a b c : ℤ} (hab : a ≤ b) (hbc : b ≤ c) :
    tradingDaysBetween a c = tradingDaysBetween a b + tradingDaysBetween b c := by
  rw [tradingDaysBetween_sessions, sessionsBetween_add hab hbc, Nat.cast_add]
  rfl

theorem tradingDaysBetween_next (a : ℤ) :
    tradingDaysBetween a (a + 1) = if weekday (a + 1) < 5 then 1 else 0 := by
  rw [tradingDaysBetween_sessions, sessionsBetween_next]
  by_cases h : weekday (a + 1) < 5
  · simp [h]
  · simp [h]

/-- The weekdays from one day to another, both included. -/
def weekdaysFrom (a b : ℤ) : ℤ := tradingDaysBetween (a - 1) b

theorem weekdaysFrom_self (a : ℤ) : weekdaysFrom a a = if weekday a < 5 then 1 else 0 := by
  have h := tradingDaysBetween_next (a - 1)
  rw [sub_add_cancel] at h
  exact h

theorem weekdaysFrom_split {a b c : ℤ} (hab : a ≤ b) (hbc : b ≤ c) :
    weekdaysFrom a c = weekdaysFrom a b + tradingDaysBetween b c :=
  tradingDaysBetween_add (by omega) hbc

theorem weekdaysFrom_of_lt {a b : ℤ} (h : b < a) : weekdaysFrom a b = 0 :=
  tradingDaysBetween_of_le (by omega)

/-- The weekdays up to a day, counted from a Sunday. -/
def weekdaysUpTo (d : ℤ) : ℤ := 5 * ((d + 4) / 7) + min ((d + 4) % 7) 5

theorem weekdaysUpTo_next (d : ℤ) :
    weekdaysUpTo (d + 1) = weekdaysUpTo d + if weekday (d + 1) < 5 then 1 else 0 := by
  unfold weekdaysUpTo weekday
  split
  · omega
  · omega

/-- Each day more adds itself. -/
theorem tradingDaysBetween_eq {a b : ℤ} (h : a ≤ b) :
    tradingDaysBetween a b = weekdaysUpTo b - weekdaysUpTo a := by
  induction b, h using Int.leInduction with
  | base =>
    rw [tradingDaysBetween_of_le le_rfl]
    omega
  | succ b hab ih =>
    rw [tradingDaysBetween_add hab (by omega), ih, tradingDaysBetween_next, weekdaysUpTo_next]
    omega

/-- A span without a weekday counts none. -/
theorem tradingDaysBetween_zero {a b : ℤ} (h : ∀ d, a < d → d ≤ b → ¬ weekday d < 5) :
    tradingDaysBetween a b = 0 := by
  unfold tradingDaysBetween
  rw [Int.natCast_eq_zero, List.countP_eq_zero]
  intro n hn hday
  rw [List.mem_range] at hn
  exact h (a + 1 + (n : ℤ)) (by omega) (by omega) (of_decide_eq_true hday)

end TradeDesk
