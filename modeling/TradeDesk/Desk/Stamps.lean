import TradeDesk.Loops.Printed
import TradeDesk.Models

/-!
# Stored timestamps

Every time the desk stores is written by `utc_iso`, and the ledger compares
these texts as they are. A text has one of two shapes: the microseconds are
left out where there are none, so at a whole second the `+` of the offset
stands where another text has the point.

The fields before it are of a fixed width, so the order of two texts is the
order of their first fields that differ, and a calendar counts its days in
the order of its years, months and days (`dayNumber_lt`). At a whole second
the order is decided by `+` being below the point.
-/

namespace TradeDesk.Desk

open TradeDesk.Loops

/-! ## Days in order -/

/-- The days of the years before, which are counted from March, and those
of the months before. -/
private def countedDays (y m : ℤ) : ℤ :=
  let y' := if m ≤ 2 then y - 1 else y
  365 * y' + y' / 4 - y' / 100 + y' / 400 + (153 * ((m + 9) % 12) + 2) / 5 - 719468

private theorem dayNumber_eq (y m d : ℤ) : dayNumber y m d = countedDays y m + (d - 1) := by
  unfold dayNumber countedDays
  dsimp only
  generalize (if m ≤ 2 then y - 1 else y) = y'
  generalize (153 * ((m + 9) % 12) + 2) / 5 = months
  show @Eq ℤ _ _
  omega

/-- A month ends where the next begins. -/
private theorem countedDays_month {y m : ℤ} (h1 : 1 ≤ m) (h12 : m < 12) :
    countedDays y (m + 1) = countedDays y m + monthLength y m := by
  have hm : m = 1 ∨ m = 2 ∨ m = 3 ∨ m = 4 ∨ m = 5 ∨ m = 6 ∨ m = 7 ∨ m = 8 ∨ m = 9 ∨ m = 10 ∨
      m = 11 := by omega
  unfold countedDays
  rcases hm with rfl | rfl | rfl | rfl | rfl | rfl | rfl | rfl | rfl | rfl | rfl
  case inr.inl =>
    -- the counted year ends with February
    have hlength : monthLength y 2 = if isLeap y then 29 else 28 := rfl
    have hleap : isLeap y = true ↔ y % 4 = 0 ∧ (y % 100 ≠ 0 ∨ y % 400 = 0) := by
      unfold isLeap
      simp
    rw [hlength]
    norm_num
    by_cases h : isLeap y = true
    · rw [if_pos h]
      rw [hleap] at h
      omega
    · rw [if_neg h]
      rw [hleap] at h
      omega
  all_goals
    norm_num [monthLength]
    try ring

private theorem countedDays_year (y : ℤ) : countedDays (y + 1) 1 = countedDays y 12 + 31 := by
  unfold countedDays
  norm_num
  ring

theorem monthLength_bounds (y m : ℤ) : 28 ≤ monthLength y m ∧ monthLength y m ≤ 31 := by
  unfold monthLength
  split
  · split
    · omega
    · omega
  · split
    · omega
    · omega

private theorem countedDays_later {y m : ℤ} (h1 : 1 ≤ m) (n : ℕ) (h12 : m + 1 + n ≤ 12) :
    countedDays y m + monthLength y m ≤ countedDays y (m + 1 + n) := by
  induction n with
  | zero =>
    rw [Nat.cast_zero, add_zero, countedDays_month h1 (by omega)]
  | succ n ih =>
    have hnext := @countedDays_month y (m + 1 + n) (by omega) (by omega)
    have hlength := (monthLength_bounds y (m + 1 + n)).1
    rw [show m + 1 + ((n + 1 : ℕ) : ℤ) = m + 1 + n + 1 by push_cast; ring, hnext]
    have := ih (by omega)
    omega

private theorem countedDays_newYear {y y' : ℤ} (h : y ≤ y') : countedDays y 1 ≤ countedDays y' 1 := by
  unfold countedDays
  norm_num
  omega

/-- The order of two days is that of their years, months and days. -/
theorem dayNumber_lt {y m d y' m' d' : ℤ} (hm : 1 ≤ m) (hm' : m ≤ 12) (hd : d ≤ monthLength y m)
    (hn : 1 ≤ m') (hn' : m' ≤ 12) (he : 1 ≤ d')
    (h : y < y' ∨ y = y' ∧ (m < m' ∨ m = m' ∧ d < d')) : dayNumber y m d < dayNumber y' m' d' := by
  rw [dayNumber_eq, dayNumber_eq]
  show @LT.lt ℤ _ _ _
  have hmonth : ∀ {y m m' : ℤ}, 1 ≤ m → m < m' → m' ≤ 12 →
      countedDays y m + monthLength y m ≤ countedDays y m' := by
    intro y m m' h1 hlt h12
    have hgap := @countedDays_later y m h1 (m' - (m + 1)).toNat (by omega)
    rw [show m + 1 + ((m' - (m + 1)).toNat : ℤ) = m' by omega] at hgap
    exact hgap
  rcases h with hy | ⟨rfl, hlt | ⟨rfl, hlt⟩⟩
  · -- through the last day of the one year and the first of the next
    have hlast : countedDays y m + monthLength y m ≤ countedDays (y + 1) 1 := by
      rw [countedDays_year]
      by_cases h12 : m = 12
      · rw [h12]
        exact Int.add_le_add_left (monthLength_bounds y 12).2 _
      · have hdecember := @hmonth y m 12 hm (by omega) (by omega)
        omega
    have hfirst := @countedDays_newYear (y + 1) y' hy
    have hin : countedDays y' 1 ≤ countedDays y' m' := by
      by_cases h1 : m' = 1
      · rw [h1]
      · have := @hmonth y' 1 m' (by omega) (by omega) hn'
        have := (monthLength_bounds y' 1).1
        omega
    omega
  · have := @hmonth y m m' hm hlt hn'
    omega
  · omega

/-! ## Texts in order -/

theorem append_lt_append_iff {l l' r r' : List Char} (h : l.length = l'.length) :
    l ++ r < l' ++ r' ↔ l < l' ∨ l = l' ∧ r < r' := by
  induction l generalizing l' with
  | nil =>
    obtain rfl := List.length_eq_zero_iff.mp h.symm
    simp
  | cons c l ih =>
    cases l' with
    | nil => cases h
    | cons c' l' =>
      have htail := @ih l' (Nat.succ.inj h)
      rw [List.cons_append, List.cons_append, List.cons_lt_cons_iff, List.cons_lt_cons_iff, htail,
        List.cons.injEq]
      constructor
      · rintro (hlt | ⟨rfl, hlt | ⟨rfl, hlt⟩⟩)
        · exact .inl (.inl hlt)
        · exact .inl (.inr ⟨rfl, hlt⟩)
        · exact .inr ⟨⟨rfl, rfl⟩, hlt⟩
      · rintro ((hlt | ⟨rfl, hlt⟩) | ⟨⟨rfl, rfl⟩, hlt⟩)
        · exact .inl hlt
        · exact .inr ⟨rfl, .inl hlt⟩
        · exact .inr ⟨rfl, .inr ⟨rfl, hlt⟩⟩

theorem digitChar_lt_iff {d e : ℕ} (hd : d < 10) (he : e < 10) :
    Nat.digitChar d < Nat.digitChar e ↔ d < e := by
  have hall : ∀ d ∈ List.range 10, ∀ e ∈ List.range 10,
      (Nat.digitChar d < Nat.digitChar e ↔ d < e) := by decide
  exact hall d (List.mem_range.mpr hd) e (List.mem_range.mpr he)

theorem ofDigits_cons (d : ℕ) (ds : List ℕ) :
    ofDigits (d :: ds) = d * 10 ^ ds.length + ofDigits ds := by
  have happend := ofDigits_append [d] ds
  have hone : ofDigits [d] = d := by simp [ofDigits]
  rw [hone] at happend
  exact happend

theorem ofDigits_lt {ds : List ℕ} (h : ∀ d ∈ ds, d < 10) : ofDigits ds < 10 ^ ds.length := by
  induction ds using List.reverseRecOn with
  | nil => exact Nat.one_pos
  | append_singleton ds d ih =>
    have hd := h d (by simp)
    have hds := ih fun e he => h e (List.mem_append_left _ he)
    rw [ofDigits_snoc, List.length_append, List.length_singleton, pow_succ]
    omega

/-- Digits of one width are in the order of their numbers. -/
theorem digits_lt_iff {ds es : List ℕ} (hlength : ds.length = es.length) (hds : ∀ d ∈ ds, d < 10)
    (hes : ∀ e ∈ es, e < 10) :
    ds.map Nat.digitChar < es.map Nat.digitChar ↔ ofDigits ds < ofDigits es := by
  induction ds generalizing es with
  | nil =>
    obtain rfl := List.length_eq_zero_iff.mp hlength.symm
    simp
  | cons d ds ih =>
    cases es with
    | nil => cases hlength
    | cons e es =>
      have hlength' : ds.length = es.length := Nat.succ.inj hlength
      have hds' : ∀ x ∈ ds, x < 10 := fun x hx => hds x (List.mem_cons_of_mem _ hx)
      have hes' : ∀ x ∈ es, x < 10 := fun x hx => hes x (List.mem_cons_of_mem _ hx)
      have hd := ofDigits_lt hds'
      have he := ofDigits_lt hes'
      have hdchar : Nat.digitChar d = Nat.digitChar e ↔ d = e := by
        refine ⟨fun h => ?_, fun h => by rw [h]⟩
        have hde := digitChar_toNat (hds d List.mem_cons_self)
        rw [h, digitChar_toNat (hes e List.mem_cons_self)] at hde
        exact hde.symm
      rw [List.map_cons, List.map_cons, List.cons_lt_cons_iff, ih hlength' hds' hes', hdchar,
        digitChar_lt_iff (hds d List.mem_cons_self) (hes e List.mem_cons_self), ofDigits_cons,
        ofDigits_cons]
      rw [hlength'] at hd ⊢
      generalize ofDigits ds = x at hd ⊢
      generalize ofDigits es = y at he ⊢
      -- the first digit decides, whatever the rest
      rcases Nat.lt_trichotomy d e with hlt | rfl | hgt
      · have hstep : (d + 1) * 10 ^ es.length ≤ e * 10 ^ es.length :=
          Nat.mul_le_mul_right _ hlt
        rw [Nat.add_mul, Nat.one_mul] at hstep
        exact iff_of_true (.inl hlt) (by omega)
      · constructor
        · rintro (hlt | ⟨-, hlt⟩)
          · omega
          · omega
        · intro hlt
          exact .inr ⟨rfl, by omega⟩
      · have hstep : (e + 1) * 10 ^ es.length ≤ d * 10 ^ es.length :=
          Nat.mul_le_mul_right _ hgt
        rw [Nat.add_mul, Nat.one_mul] at hstep
        refine iff_of_false ?_ (by omega)
        rintro (hlt | ⟨heq, -⟩)
        · omega
        · omega

/-- A field of a fixed width decides, and where two agree on it what comes
after does. -/
theorem field_lt_iff {width n m : ℕ} {r r' : List Char} (hwidth : 0 < width)
    (hn : n < 10 ^ width) (hm : m < 10 ^ width) :
    (padded width n).toList ++ r < (padded width m).toList ++ r' ↔ n < m ∨ n = m ∧ r < r' := by
  obtain ⟨ds, hds, hdlt, hdval, hdlength⟩ := padded_digits hwidth hn
  obtain ⟨es, hes, helt, heval, helength⟩ := padded_digits hwidth hm
  have hlength : ds.length = es.length := hdlength.trans helength.symm
  rw [hds, hes, append_lt_append_iff (by rw [List.length_map, List.length_map, hlength]),
    digits_lt_iff hlength hdlt helt, hdval, heval]
  refine or_congr_right (and_congr_left fun _ => ⟨fun h => ?_, fun h => ?_⟩)
  · rcases Nat.lt_trichotomy n m with hlt | heq | hgt
    · rw [← hdval, ← heval, ← digits_lt_iff hlength hdlt helt, h] at hlt
      exact absurd hlt (List.lt_irrefl _)
    · exact heq
    · rw [← hdval, ← heval, ← digits_lt_iff hlength.symm helt hdlt, h] at hgt
      exact absurd hgt (List.lt_irrefl _)
  · obtain rfl : n = m := h
    rw [← hds, ← hes]

/-! ## utc_iso -/

/-- A timezone-aware datetime: what its clock reads, counted since the start
of 1970, and how far its zone is ahead of UTC then. -/
structure AwareDatetime where
  reading : ℤ
  utcoffset : ℤ

/-- The instant it names. -/
def AwareDatetime.instant (dt : AwareDatetime) : Instant := dt.reading - dt.utcoffset

/-- `isoformat` of a time of day; the microseconds are left out if there are
none. -/
def timeText (t : TimeOfDay) : String :=
  let s := t / second
  let us := t % second
  padded 2 (s / 3600).toNat ++ ":" ++ padded 2 (s / 60 % 60).toNat ++ ":" ++
    padded 2 (s % 60).toNat ++ if us = 0 then "" else "." ++ padded 6 us.toNat

/-- `dt.astimezone(UTC).isoformat()`. -/
def utcIso (dt : AwareDatetime) : String :=
  dateText (dt.instant / dayLength) ++ "T" ++ timeText (dt.instant % dayLength) ++ "+00:00"

/-- The years `datetime` has, in UTC. -/
def AwareDatetime.InCalendar (dt : AwareDatetime) : Prop :=
  Loops.InCalendar (dt.instant / dayLength)

example : utcIso ⟨20699 * dayLength + clockTime 16 4, -clockTime 4 0⟩ = "2026-09-03T20:04:00+00:00" := by
  decide +kernel

private theorem same_char {c : Char} {r r' : List Char} : c :: r < c :: r' ↔ r < r' := by
  rw [List.cons_lt_cons_iff]
  simp

/-- The fraction, if there is one, and the offset. -/
private def fraction (us : ℕ) : List Char :=
  (if us = 0 then [] else '.' :: (padded 6 us).toList) ++ "+00:00".toList

/-- At a whole second there is no point, and the offset's sign is below it. -/
private theorem fraction_lt_iff {u v : ℕ} (hu : u < 10 ^ 6) (hv : v < 10 ^ 6) :
    fraction u < fraction v ↔ u < v := by
  have hsign : ∀ r r' : List Char, '+' :: r < '.' :: r' := fun r r' =>
    List.cons_lt_cons_iff.mpr (.inl (by decide))
  unfold fraction
  by_cases hu0 : u = 0
  · rw [if_pos hu0]
    by_cases hv0 : v = 0
    · rw [if_pos hv0, hu0, hv0]
      exact iff_of_false (List.lt_irrefl _) (Nat.lt_irrefl _)
    · rw [if_neg hv0]
      exact iff_of_true (hsign _ _) (by omega)
  · rw [if_neg hu0]
    by_cases hv0 : v = 0
    · rw [if_pos hv0]
      exact iff_of_false (List.lt_asymm (hsign _ _)) (by omega)
    · rw [if_neg hv0, List.cons_append, List.cons_append, same_char,
        field_lt_iff (by decide) hu hv]
      constructor
      · rintro (hlt | ⟨-, hlt⟩)
        · exact hlt
        · exact absurd hlt (List.lt_irrefl _)
      · exact .inl

private theorem timeText_lt_iff {t t' : ℤ} (h0 : 0 ≤ t) (h1 : t < dayLength) (h0' : 0 ≤ t')
    (h1' : t' < dayLength) : (timeText t).toList ++ "+00:00".toList <
      (timeText t').toList ++ "+00:00".toList ↔ t < t' := by
  have hchars : ∀ t : ℤ, 0 ≤ t → (timeText t).toList ++ "+00:00".toList =
      (padded 2 (t / second / 3600).toNat).toList ++ ':' ::
        ((padded 2 (t / second / 60 % 60).toNat).toList ++ ':' ::
          ((padded 2 (t / second % 60).toNat).toList ++ fraction (t % second).toNat)) := by
    intro t h0
    have hus : 0 ≤ t % second := Int.emod_nonneg _ (by decide)
    have hzero : (t % second).toNat = 0 ↔ t % second = 0 := by omega
    unfold timeText fraction
    dsimp only
    by_cases hnone : t % second = 0
    · rw [if_pos hnone, if_pos (hzero.mpr hnone)]
      simp [String.toList_append]
    · rw [if_neg hnone, if_neg (fun h => hnone (hzero.mp h))]
      simp [String.toList_append]
  rw [hchars t h0, hchars t' h0']
  unfold dayLength minute second at *
  rw [field_lt_iff (by decide) (by omega) (by omega), same_char,
    field_lt_iff (by decide) (by omega) (by omega), same_char,
    field_lt_iff (by decide) (by omega) (by omega), fraction_lt_iff (by omega) (by omega)]
  omega

theorem civil_lt_iff (d d' : Date) : d < d' ↔ (civil d).1 < (civil d').1 ∨
    (civil d).1 = (civil d').1 ∧ ((civil d).2.1 < (civil d').2.1 ∨
      (civil d).2.1 = (civil d').2.1 ∧ (civil d).2.2 < (civil d').2.2) := by
  have hlt : ∀ d d' : Date, ((civil d).1 < (civil d').1 ∨
      (civil d).1 = (civil d').1 ∧ ((civil d).2.1 < (civil d').2.1 ∨
        (civil d).2.1 = (civil d').2.1 ∧ (civil d).2.2 < (civil d').2.2)) → d < d' := by
    intro d d' h
    obtain ⟨hm, hm', -, hd⟩ := civil_spec d
    obtain ⟨hn, hn', he, -⟩ := civil_spec d'
    have hdays := dayNumber_lt hm hm' hd hn hn' he h
    rw [dayNumber_civil, dayNumber_civil] at hdays
    exact hdays
  refine ⟨fun h => ?_, hlt d d'⟩
  by_contra hno
  by_cases hback : (civil d').1 < (civil d).1 ∨
      (civil d').1 = (civil d).1 ∧ ((civil d').2.1 < (civil d).2.1 ∨
        (civil d').2.1 = (civil d).2.1 ∧ (civil d').2.2 < (civil d).2.2)
  · exact absurd (hlt d' d hback) (Int.not_lt.mpr h.le)
  · have hy : (civil d).1 = (civil d').1 := by omega
    have hm : (civil d).2.1 = (civil d').2.1 := by omega
    have hd : (civil d).2.2 = (civil d').2.2 := by omega
    have hsame : d = d' := by
      rw [← dayNumber_civil d, ← dayNumber_civil d', hy, hm, hd]
    exact absurd hsame h.ne

theorem utcIso_toList (dt : AwareDatetime) : (utcIso dt).toList =
    (padded 4 (civil (dt.instant / dayLength)).1.toNat).toList ++ '-' ::
      ((padded 2 (civil (dt.instant / dayLength)).2.1.toNat).toList ++ '-' ::
        ((padded 2 (civil (dt.instant / dayLength)).2.2.toNat).toList ++ 'T' ::
          ((timeText (dt.instant % dayLength)).toList ++ "+00:00".toList))) := by
  have hdate : dateText (dt.instant / dayLength) =
      padded 4 (civil (dt.instant / dayLength)).1.toNat ++ "-" ++
        padded 2 (civil (dt.instant / dayLength)).2.1.toNat ++ "-" ++
        padded 2 (civil (dt.instant / dayLength)).2.2.toNat := rfl
  unfold utcIso
  rw [hdate]
  simp [String.toList_append]

/-- The order of two instants, by day and time of day. -/
private theorem instant_lt_iff (i j : ℤ) : i < j ↔ i / dayLength < j / dayLength ∨
    i / dayLength = j / dayLength ∧ i % dayLength < j % dayLength := by
  unfold dayLength minute second
  omega

/-- The order of two texts, field by field, with a time after the date. -/
private theorem fields_iff {y m d y' m' d' : ℤ} {p : Prop} (hy : 1 ≤ y) (hm : 1 ≤ m) (hd : 1 ≤ d)
    (hy' : 1 ≤ y') (hm' : 1 ≤ m') (hd' : 1 ≤ d') :
    (y.toNat < y'.toNat ∨ y.toNat = y'.toNat ∧ (m.toNat < m'.toNat ∨ m.toNat = m'.toNat ∧
      (d.toNat < d'.toNat ∨ d.toNat = d'.toNat ∧ p))) ↔
    (y < y' ∨ y = y' ∧ (m < m' ∨ m = m' ∧ d < d')) ∨ (y = y' ∧ m = m' ∧ d = d') ∧ p := by
  by_cases hp : p
  · simp only [hp, and_true]
    omega
  · simp only [hp, and_false, or_false]
    omega

/-- The order of two texts is that of the instants they name. -/
theorem utcIso_lt_iff {a b : AwareDatetime} (ha : a.InCalendar) (hb : b.InCalendar) :
    utcIso a < utcIso b ↔ a.instant < b.instant := by
  have hlen : (0 : ℤ) < dayLength := by decide
  have ht0 := Int.emod_nonneg a.instant hlen.ne'
  have ht1 := Int.emod_lt_of_pos a.instant hlen
  have hu0 := Int.emod_nonneg b.instant hlen.ne'
  have hu1 := Int.emod_lt_of_pos b.instant hlen
  have hdate : (civil (a.instant / dayLength)).1 = (civil (b.instant / dayLength)).1 ∧
      (civil (a.instant / dayLength)).2.1 = (civil (b.instant / dayLength)).2.1 ∧
      (civil (a.instant / dayLength)).2.2 = (civil (b.instant / dayLength)).2.2 ↔
      a.instant / dayLength = b.instant / dayLength := by
    constructor
    · rintro ⟨hy, hm, hd⟩
      rw [← dayNumber_civil (a.instant / dayLength), ← dayNumber_civil (b.instant / dayLength),
        hy, hm, hd]
    · intro h
      rw [h]
      exact ⟨rfl, rfl, rfl⟩
  obtain ⟨hm, hm', hd, hdlast⟩ := civil_spec (a.instant / dayLength)
  obtain ⟨hn, hn', he, helast⟩ := civil_spec (b.instant / dayLength)
  have hdmax := (monthLength_bounds (civil (a.instant / dayLength)).1
    (civil (a.instant / dayLength)).2.1).2
  have hemax := (monthLength_bounds (civil (b.instant / dayLength)).1
    (civil (b.instant / dayLength)).2.1).2
  obtain ⟨hy, hy'⟩ := ha
  obtain ⟨hz, hz'⟩ := hb
  have hwidth : (civil (a.instant / dayLength)).1.toNat < 10 ^ 4 ∧
      (civil (b.instant / dayLength)).1.toNat < 10 ^ 4 := by omega
  rw [String.lt_iff, utcIso_toList, utcIso_toList,
    field_lt_iff (by decide) hwidth.1 hwidth.2, same_char,
    field_lt_iff (by decide) (by omega) (by omega), same_char,
    field_lt_iff (by decide) (by omega) (by omega), same_char, timeText_lt_iff ht0 ht1 hu0 hu1,
    fields_iff hy hm hd hz hn he, hdate, ← civil_lt_iff]
  exact (instant_lt_iff _ _).symm

/-! ## Counts over stored texts -/

/-- `SELECT COUNT(*) FROM pitches WHERE analyst=? AND filed_at >= ?`. -/
def filedSince (pitches : List (Analyst × String)) (analyst : Analyst) (since : String) : ℕ :=
  pitches.countP fun p => p.1 = analyst && decide (since ≤ p.2)

/-- `pitch_counts_since`: the analysts who have filed any, each with its
count. -/
def pitchCountsSince (pitches : List (Analyst × String)) (since : String) : List (Analyst × ℕ) :=
  ((pitches.filter fun p => decide (since ≤ p.2)).map Prod.fst).dedup.map fun analyst =>
    (analyst, filedSince pitches analyst since)

/-- The same over the times themselves. -/
def filedFrom (pitches : List (Analyst × AwareDatetime)) (analyst : Analyst) (since : Instant) : ℕ :=
  pitches.countP fun p => p.1 = analyst && decide (since ≤ p.2.instant)

def pitchCountsFrom (pitches : List (Analyst × AwareDatetime)) (since : Instant) :
    List (Analyst × ℕ) :=
  ((pitches.filter fun p => decide (since ≤ p.2.instant)).map Prod.fst).dedup.map fun analyst =>
    (analyst, filedFrom pitches analyst since)

/-- The rows of pitches filed at these times. -/
def storedPitches (pitches : List (Analyst × AwareDatetime)) : List (Analyst × String) :=
  pitches.map fun p => (p.1, utcIso p.2)

theorem utcIso_le_iff {a b : AwareDatetime} (ha : a.InCalendar) (hb : b.InCalendar) :
    utcIso a ≤ utcIso b ↔ a.instant ≤ b.instant := by
  rw [← String.not_lt, utcIso_lt_iff hb ha]
  exact Int.not_lt

theorem filedSince_stored {pitches : List (Analyst × AwareDatetime)} {since : AwareDatetime}
    (hsince : since.InCalendar) (hall : ∀ p ∈ pitches, p.2.InCalendar) (analyst : Analyst) :
    filedSince (storedPitches pitches) analyst (utcIso since) =
      filedFrom pitches analyst since.instant := by
  unfold filedSince filedFrom storedPitches
  rw [List.countP_map]
  apply List.countP_congr
  intro p hp
  simp only [Function.comp_apply, Bool.and_eq_true, decide_eq_true_eq]
  rw [utcIso_le_iff hsince (hall p hp)]

theorem pitchCountsSince_stored {pitches : List (Analyst × AwareDatetime)} {since : AwareDatetime}
    (hsince : since.InCalendar) (hall : ∀ p ∈ pitches, p.2.InCalendar) :
    pitchCountsSince (storedPitches pitches) (utcIso since) =
      pitchCountsFrom pitches since.instant := by
  have hkept : (storedPitches pitches).filter (fun p => decide (utcIso since ≤ p.2)) =
      storedPitches (pitches.filter fun p => decide (since.instant ≤ p.2.instant)) := by
    unfold storedPitches
    rw [List.filter_map]
    refine congrArg _ (List.filter_congr fun p hp => ?_)
    simp only [Function.comp_apply, decide_eq_decide]
    exact utcIso_le_iff hsince (hall p hp)
  unfold pitchCountsSince pitchCountsFrom
  rw [hkept]
  have hnames : ∀ ps : List (Analyst × AwareDatetime),
      (storedPitches ps).map Prod.fst = ps.map Prod.fst := by
    intro ps
    unfold storedPitches
    rw [List.map_map]
    rfl
  rw [hnames]
  refine List.map_congr_left fun analyst _ => ?_
  rw [filedSince_stored hsince hall]

/-- **The order of stored texts is the order of time**, and so the counts
over them are counts over the times. -/
theorem utcIso_timeOrder (a b : AwareDatetime) (ha : a.InCalendar) (hb : b.InCalendar) :
    (utcIso a < utcIso b ↔ a.instant < b.instant) ∧
      ∀ pitches : List (Analyst × AwareDatetime), (∀ p ∈ pitches, p.2.InCalendar) →
        (∀ analyst, filedSince (storedPitches pitches) analyst (utcIso a) =
          filedFrom pitches analyst a.instant) ∧
        pitchCountsSince (storedPitches pitches) (utcIso a) = pitchCountsFrom pitches a.instant :=
  ⟨utcIso_lt_iff ha hb, fun _ hall =>
    ⟨filedSince_stored ha hall, pitchCountsSince_stored ha hall⟩⟩

/-- A whole second in New York and the last microsecond before it in
Calcutta. -/
theorem utcIso_timeOrder_wholeSecond :
    utcIso ⟨20699 * dayLength + clockTime 21 34 - 1, clockTime 5 30⟩ <
      utcIso ⟨20699 * dayLength + clockTime 12 4, -clockTime 4 0⟩ := by
  refine (utcIso_timeOrder _ _ ?_ ?_).1.mpr (by decide)
  · unfold AwareDatetime.InCalendar InCalendar
    decide +kernel
  · unfold AwareDatetime.InCalendar InCalendar
    decide +kernel

end TradeDesk.Desk
