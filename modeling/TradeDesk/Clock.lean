import Mathlib.Order.Monotone.Basic
import Mathlib.Tactic.Common

/-!
# Eastern time and the session window

An instant is a number of microseconds, a date a number of days since
1970-01-01 and a time of day microseconds since midnight. The engine asks
`zoneinfo` three things about an instant or a wall clock: its Eastern
date, its Eastern time of day, and the instant of a date and a time
(`datetime.combine`). `Zone` is those three with the one law the desk
relies on: the clock is set back at two in the morning, so the date never
goes back.

Session gates are on the clock against the market-hours window
(`phaseFor`), never on the window's own "is open" flag alone.
-/

namespace TradeDesk

abbrev Instant := ℤ
abbrev Date := ℤ
abbrev TimeOfDay := ℤ

def second : ℤ := 1000000
def minute : ℤ := 60 * second
def dayLength : ℤ := 24 * 60 * minute

/-- The wall clock time `h:m`. -/
def clockTime (h m : ℤ) : TimeOfDay := (h * 60 + m) * minute

/-- The Eastern time zone, as `zoneinfo` answers it. -/
structure Zone where
  date : Instant → Date
  time : Instant → TimeOfDay
  combine : Date → TimeOfDay → Instant
  date_mono : ∀ {i j : Instant}, i ≤ j → date i ≤ date j

/-- The clock is set at two in the morning. At a time of day an hour away
from that, an instant is at or after the wall clock it names exactly when
what the wall reads is. -/
structure Zone.Lawful (et : Zone) : Prop where
  time_nonneg : ∀ i, 0 ≤ et.time i
  combine_le : ∀ d t i, 0 ≤ t → t < dayLength → t ≤ clockTime 1 0 ∨ clockTime 3 0 ≤ t →
    (et.combine d t ≤ i ↔ d < et.date i ∨ d = et.date i ∧ t ≤ et.time i)

/-- A zone at a constant offset from UTC: Eastern time between two clock
changes. -/
def Zone.fixed (offset : ℤ) : Zone where
  date i := (i + offset) / dayLength
  time i := (i + offset) % dayLength
  combine d t := d * dayLength + t - offset
  date_mono h := Int.ediv_le_ediv (by decide) (Int.add_le_add_right h offset)

/-- Dates and times of day are the digits of an instant. -/
theorem digits_le {len d t i : ℤ} (h0 : 0 ≤ t) (h1 : t < len) :
    d * len + t ≤ i ↔ d < i / len ∨ d = i / len ∧ t ≤ i % len := by
  have hlen : 0 < len := by omega
  have hi : i / len * len + i % len = i := Int.ediv_mul_add_emod i len
  have hmod : i % len < len := Int.emod_lt_of_pos i hlen
  have hmod0 : 0 ≤ i % len := Int.emod_nonneg i (by omega)
  rcases lt_trichotomy d (i / len) with hlt | heq | hgt
  · have := Int.mul_le_mul_of_nonneg_right (show d + 1 ≤ i / len by omega) hlen.le
    rw [Int.add_mul, Int.one_mul] at this
    omega
  · rw [heq]
    omega
  · have := Int.mul_le_mul_of_nonneg_right (show i / len + 1 ≤ d by omega) hlen.le
    rw [Int.add_mul, Int.one_mul] at this
    omega

theorem Zone.fixed_lawful (offset : ℤ) : (Zone.fixed offset).Lawful where
  time_nonneg i := Int.emod_nonneg _ (by decide)
  combine_le d t i h0 h1 _ := by
    have hsub : (Zone.fixed offset).combine d t ≤ i ↔ d * dayLength + t ≤ i + offset :=
      Int.sub_right_le_iff_le_add
    exact hsub.trans (digits_le h0 h1)

/-- Monday is 0; day 0 was a Thursday. -/
def weekday (d : Date) : ℤ := (d + 3) % 7

structure MarketWindow where
  date : Date
  isTradingDay : Bool
  rthStart : Option Instant
  rthEnd : Option Instant
deriving DecidableEq, Repr

inductive SessionPhase where
  | pre | rth | post | closed
deriving DecidableEq, Repr

def phaseFor (now : Instant) (window : MarketWindow) : SessionPhase :=
  match window.isTradingDay, window.rthStart, window.rthEnd with
  | true, some start, some stop =>
    if now < start then .pre else if now < stop then .rth else .post
  | _, _, _ => .closed

/-- Only for an engine without the broker's calendar: a weekday is assumed
to be a full trading day, holidays are unknown by design. -/
def fallbackWindow (et : Zone) (d : Date) : MarketWindow :=
  if 5 ≤ weekday d then ⟨d, false, none, none⟩
  else ⟨d, true, some (et.combine d (clockTime 9 30)), some (et.combine d (clockTime 16 0))⟩

/-- Weekdays after `a`, up to `b`: sessions, holidays not known. -/
def tradingDaysBetween (a b : Date) : ℤ :=
  (List.range (b - a).toNat).countP fun n : ℕ => weekday (a + 1 + (n : ℤ)) < 5

/-- The regular session is between the window's two ends. -/
theorem phaseFor_rth {now : Instant} {w : MarketWindow} (h : phaseFor now w = .rth) :
    w.isTradingDay = true ∧ ∃ start stop, w.rthStart = some start ∧ w.rthEnd = some stop ∧
      start ≤ now ∧ now < stop := by
  unfold phaseFor at h
  split at h
  next start stop hd hs he =>
    split at h
    · cases h
    next hstart =>
      split at h
      next hstop => exact ⟨hd, start, stop, hs, he, Int.not_lt.mp hstart, hstop⟩
      · cases h
  · cases h

end TradeDesk
