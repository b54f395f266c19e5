import TradeDesk.Desk.Scoring
import Mathlib.Data.List.Nodup

/-!
# The first touch

What `resolve` is to compute, said without its loop. A session decides an
item when its bar meets a level, or when it is the last of the horizon
(`Decides`); the first session that does is the one the item is resolved
on (`Decided`), at the price the rule says (`LevelExit`).

`walk` is a search for that session followed by `done` (`walk_eq`), and the
search finds it exactly if there is one (`firstExit_iff`). What is left is
arithmetic: the returns divide by the three reference prices, and a call's
are whatever was stored with it.
-/

namespace TradeDesk.Desk

open TradeDesk.Async

/-! ## The rule -/

/-- How and at what price an item leaves, and whether it is at the open. -/
structure Exit where
  how : How
  price : ℚ
  atOpen : Bool
deriving DecidableEq, Repr

namespace Item

variable (item : Item)

/-- The session's range reaches the level. -/
def touchesInval (b : DailyBar) : Bool :=
  match item.direction with
  | .up => b.low ≤ item.invalidation
  | .down => item.invalidation ≤ b.high

def touchesTarget (b : DailyBar) : Bool :=
  match item.direction with
  | .up => item.target ≤ b.high
  | .down => b.low ≤ item.target

/-- A call's first session is not tested: it was made during it. -/
def Tested (k : ℤ) : Prop := 1 < k ∨ item.refs = none

end Item

/-- The `k`th session, counted from one, meets a level and is left so. -/
inductive LevelExit (item : Item) (k : ℤ) (b : DailyBar) : Exit → Prop
  | openThrough : k = 1 → item.refs = none →
      item.throughTarget b.open = true ∨ item.throughInval b.open = true →
      LevelExit item k b ⟨.openThrough, b.open, true⟩
  | gapTarget : 1 < k → item.throughTarget b.open = true →
      LevelExit item k b ⟨.gapTarget, b.open, true⟩
  | gapInvalidation : 1 < k → ¬ item.throughTarget b.open = true →
      item.throughInval b.open = true → LevelExit item k b ⟨.gapInvalidation, b.open, true⟩
  | invalidation : item.Tested k → ¬ item.throughTarget b.open = true →
      ¬ item.throughInval b.open = true → item.touchesInval b = true →
      LevelExit item k b ⟨.invalidation, item.invalidation, false⟩
  | target : item.Tested k → ¬ item.throughTarget b.open = true →
      ¬ item.throughInval b.open = true → ¬ item.touchesInval b = true →
      item.touchesTarget b = true → LevelExit item k b ⟨.target, item.target, false⟩

/-- A session decides by a level, or as the last of the horizon by its close. -/
def Decides (item : Item) (k : ℤ) (b : DailyBar) (e : Exit) : Prop :=
  LevelExit item k b e ∨ (∀ e', ¬ LevelExit item k b e') ∧ k = item.horizonDays ∧
    e = ⟨.horizon, b.close, false⟩

/-- A series has this bar on that date. -/
def BarOf (bars : List DailyBar) (d : Date) (b : DailyBar) : Prop := b ∈ bars ∧ b.date = d

def HasBar (bars : List DailyBar) (d : Date) : Prop := ∃ b, BarOf bars d b

/-- One bar a date, in order. -/
structure Dated (bars : List DailyBar) : Prop where
  ordered : (bars.map (·.date)).Pairwise (· < ·)

/-- And every price positive. -/
structure Series (bars : List DailyBar) : Prop extends Dated bars where
  positive : ∀ b ∈ bars, 0 < b.open ∧ 0 < b.high ∧ 0 < b.low ∧ 0 < b.close

/-- The market sessions from the item's own on. -/
def sessionsOf (item : Item) (spy : List DailyBar) : List Date :=
  (spy.map (·.date)).filter fun d => item.session ≤ d

/-- The first so many of them. -/
def window (item : Item) (spy : List DailyBar) : List Date :=
  firstDays (sessionsOf item spy) item.horizonDays

/-- The sessions before the `k`th have bars and none decides. -/
def OpenUntil (item : Item) (bars : List DailyBar) (days : List Date) (k : ℕ) : Prop :=
  ∀ j < k, ∃ d b, days[j]? = some d ∧ BarOf bars d b ∧ ∀ e, ¬ Decides item (j + 1) b e

/-- The first session that decides, and how. -/
structure Decided (item : Item) (bars : List DailyBar) (days : List Date) (day : Date) (e : Exit) :
    Prop where
  first : ∃ k b, OpenUntil item bars days k ∧ days[k]? = some day ∧ BarOf bars day b ∧
    Decides item (k + 1) b e

/-- The prices an item is measured from: a call's own, a pitch's first
opens. -/
structure Refers (item : Item) (bars spy bench : List DailyBar) (start : Reference) : Prop where
  session : (sessionsOf item spy).head? = some start.date
  opens : ∃ b s bb, BarOf bars start.date b ∧ BarOf spy start.date s ∧ BarOf bench start.date bb ∧
    match item.refs with
    | none => start.ref = b.open ∧ start.spy = s.open ∧ start.bench = bb.open
    | some (ref, spyRef, benchRef) =>
      start.ref = ref ∧ start.spy = spyRef ∧ start.bench = benchRef

/-- A move in percent. -/
def movePct (frm upto : ℚ) : ℚ := (upto - frm) / frm * 100

def Item.sign (item : Item) : ℚ := if item.direction = .up then 1 else -1

/-- The row for an exit on a day with these two bars. -/
def resolutionOf (item : Item) (start : Reference) (day : Date) (e : Exit) (s bb : DailyBar) :
    Resolution where
  kind := item.kind
  itemId := item.itemId
  refDate := start.date
  refPrice := start.ref
  resolvedOn := day
  how := e.how
  exitPrice := e.price
  retPct := item.sign * movePct start.ref e.price
  spyRetPct := movePct start.spy (if e.atOpen then s.open else s.close)
  benchRetPct := item.sign * movePct start.bench (if e.atOpen then bb.open else bb.close)

/-- **The first-touch rule.** -/
def OutcomeOf (item : Item) (bars spy bench : List DailyBar) (r : Resolution) : Prop :=
  ∃ start day e s bb, Refers item bars spy bench start ∧ Decided item bars (window item spy) day e ∧
    BarOf spy day s ∧ BarOf bench day bb ∧ r = resolutionOf item start day e s bb

/-- Why an item has no outcome yet. -/
inductive Undecided (item : Item) (bars spy bench : List DailyBar) : Prop
  /-- No session, or none that decides, so far. -/
  | waiting : (∀ start, (sessionsOf item spy).head? = some start →
      HasBar bars start ∧ HasBar bench start) →
      OpenUntil item bars (window item spy) (window item spy).length →
      Undecided item bars spy bench
  /-- The first session's symbol or benchmark bar is missing. -/
  | noFirst (start : Date) : (sessionsOf item spy).head? = some start →
      ¬ HasBar bars start ∨ ¬ HasBar bench start → Undecided item bars spy bench
  /-- The symbol's bar is missing before a session has decided. -/
  | hole (k : ℕ) (day : Date) : OpenUntil item bars (window item spy) k →
      (window item spy)[k]? = some day → ¬ HasBar bars day → Undecided item bars spy bench
  /-- The benchmark's bar is missing where it is decided. -/
  | noBench (day : Date) (e : Exit) : Decided item bars (window item spy) day e →
      ¬ HasBar bench day → Undecided item bars spy bench

/-! ## One session -/

/-- What the body of the walk decides of the `k`th session. -/
def exitOn (item : Item) (k : ℤ) (b : DailyBar) : Option Exit :=
  let own := item.refs.isNone
  if k = 1 ∧ own ∧ (item.throughTarget b.open ∨ item.throughInval b.open) then
    some ⟨.openThrough, b.open, true⟩
  else if 1 < k ∧ item.throughTarget b.open then some ⟨.gapTarget, b.open, true⟩
  else if 1 < k ∧ item.throughInval b.open then some ⟨.gapInvalidation, b.open, true⟩
  else if (1 < k ∨ own) ∧ item.touchesInval b then some ⟨.invalidation, item.invalidation, false⟩
  else if (1 < k ∨ own) ∧ item.touchesTarget b then some ⟨.target, item.target, false⟩
  else if k = item.horizonDays then some ⟨.horizon, b.close, false⟩
  else none

section

variable {item : Item} {k : ℤ} {b : DailyBar} {e : Exit}

/-- What is tested without having opened through a level. -/
private theorem not_through (hk : 1 ≤ k) (ht : item.Tested k)
    (h₁ : ¬(k = 1 ∧ item.refs.isNone ∧
      (item.throughTarget b.open ∨ item.throughInval b.open)))
    (h₂ : ¬(1 < k ∧ item.throughTarget b.open)) (h₃ : ¬(1 < k ∧ item.throughInval b.open)) :
    ¬ item.throughTarget b.open = true ∧ ¬ item.throughInval b.open = true := by
  rcases Int.le_iff_lt_or_eq.mp hk with hlt | rfl
  · exact ⟨fun h => h₂ ⟨hlt, h⟩, fun h => h₃ ⟨hlt, h⟩⟩
  · have hown : item.refs.isNone = true := by
      rcases ht with h | h
      · omega
      · rw [h]
        rfl
    exact ⟨fun h => h₁ ⟨rfl, hown, .inl h⟩, fun h => h₁ ⟨rfl, hown, .inr h⟩⟩

/-- A level exit is the one the chain of tests comes to. -/
theorem LevelExit.exitOn_eq (h : LevelExit item k b e) : exitOn item k b = some e := by
  unfold exitOn
  cases h with
  | openThrough hk hown hthrough => simp [hk, hown, hthrough]
  | gapTarget hk ht => simp [hk, ht, ne_of_gt hk]
  | gapInvalidation hk ht hi => simp [hk, ht, hi, ne_of_gt hk]
  | invalidation htested ht hi hinval =>
    rcases htested with h | h
    · simp [h, ht, hi, hinval]
    · simp [h, ht, hi, hinval]
  | target htested ht hi hinval htarget =>
    rcases htested with h | h
    · simp [h, ht, hi, hinval, htarget]
    · simp [h, ht, hi, hinval, htarget]

/-- The tests come to a level exit, or to the horizon's close. -/
theorem exitOn_level (hk : 1 ≤ k) (h : exitOn item k b = some e) :
    LevelExit item k b e ∨ k = item.horizonDays ∧ e = ⟨.horizon, b.close, false⟩ := by
  have htested : 1 < k ∨ item.refs.isNone = true → item.Tested k := fun h =>
    h.imp_right Option.isNone_iff_eq_none.mp
  unfold exitOn at h
  dsimp only at h
  split at h
  next hopen =>
    cases h
    exact .inl (.openThrough hopen.1 (Option.isNone_iff_eq_none.mp hopen.2.1) hopen.2.2)
  next h₁ =>
    split at h
    next hgap =>
      cases h
      exact .inl (.gapTarget hgap.1 hgap.2)
    next h₂ =>
      split at h
      next hgap =>
        cases h
        exact .inl (.gapInvalidation hgap.1 (fun ht => h₂ ⟨hgap.1, ht⟩) hgap.2)
      next h₃ =>
        split at h
        next hinval =>
          cases h
          obtain ⟨ht, hi⟩ := not_through hk (htested hinval.1) h₁ h₂ h₃
          exact .inl (.invalidation (htested hinval.1) ht hi hinval.2)
        next h₄ =>
          split at h
          next htarget =>
            cases h
            obtain ⟨ht, hi⟩ := not_through hk (htested htarget.1) h₁ h₂ h₃
            exact .inl (.target (htested htarget.1) ht hi (fun hn => h₄ ⟨htarget.1, hn⟩) htarget.2)
          · split at h
            next hlast =>
              cases h
              exact .inr ⟨hlast, rfl⟩
            · cases h

/-- The session's tests are the rule. -/
theorem exitOn_iff (hk : 1 ≤ k) : exitOn item k b = some e ↔ Decides item k b e := by
  constructor
  · intro h
    rcases exitOn_level hk h with hlevel | ⟨hlast, rfl⟩
    · exact .inl hlevel
    · refine .inr ⟨fun e' hlevel => ?_, hlast, rfl⟩
      have heq := hlevel.exitOn_eq.symm.trans h
      cases hlevel <;> cases heq
  · rintro (hlevel | ⟨hno, hlast, rfl⟩)
    · exact hlevel.exitOn_eq
    · cases h : exitOn item k b with
      | some e' =>
        rcases exitOn_level hk h with hlevel | ⟨-, rfl⟩
        · exact absurd hlevel (hno e')
        · rfl
      | none =>
        unfold exitOn at h
        dsimp only at h
        rw [if_pos hlast] at h
        split_ifs at h

theorem exitOn_none (hk : 1 ≤ k) : exitOn item k b = none ↔ ∀ e, ¬ Decides item k b e := by
  rw [Option.eq_none_iff_forall_ne_some]
  exact forall_congr' fun e => not_congr (exitOn_iff hk)

end

/-! ## The search -/

/-- The first session that decides, if every one before it has a bar. -/
def firstExit (item : Item) (bars : List DailyBar) : ℤ → List Date → Option (Date × Exit)
  | _, [] => none
  | k, day :: rest =>
    match barOn bars day with
    | none => none
    | some b => match exitOn item k b with
      | some e => some (day, e)
      | none => firstExit item bars (k + 1) rest

/-- **The walk is that search**, and then the resolution of the day found. -/
theorem walk_eq (item : Item) (start : Reference) (bars spy bench : List DailyBar) :
    ∀ (k : ℤ) (days : List Date), walk item start bars spy bench k days =
      match firstExit item bars k days with
      | none => .ok none
      | some (day, e) => done item start spy bench day e.how e.price e.atOpen
  | k, [] => rfl
  | k, day :: rest => by
    unfold walk firstExit
    cases hb : barOn bars day with
    | none => rfl
    | some b =>
      dsimp only
      rw [walk_eq item start bars spy bench (k + 1) rest]
      unfold exitOn Item.touchesInval Item.touchesTarget
      cases item.direction <;> dsimp only <;> split_ifs <;> rfl

/-! ## The dates of a series -/

section

variable {bars : List DailyBar} {d : Date}

theorem barOn_some {b : DailyBar} (h : barOn bars d = some b) : BarOf bars d b := by
  unfold barOn at h
  exact ⟨List.mem_reverse.mp (List.mem_of_find?_eq_some h), by simpa using List.find?_some h⟩

theorem barOn_none : barOn bars d = none ↔ ¬ HasBar bars d := by
  unfold barOn HasBar BarOf
  rw [List.find?_eq_none]
  simp

/-- With one bar a date, the dictionary by date holds just that bar. -/
theorem Dated.barOn_iff (hs : Dated bars) {b : DailyBar} :
    barOn bars d = some b ↔ BarOf bars d b := by
  constructor
  · exact barOn_some
  · intro h
    cases hb : barOn bars d with
    | none => exact absurd ⟨b, h⟩ (barOn_none.mp hb)
    | some b' =>
      obtain ⟨hmem, hdate⟩ := barOn_some hb
      have hnodup : (bars.map (·.date)).Nodup := hs.ordered.imp fun h => ne_of_lt h
      rw [List.inj_on_of_nodup_map hnodup hmem h.1 (hdate.trans h.2.symm)]

end

/-! ## What the search finds -/

section

variable {item : Item} {bars : List DailyBar}

/-- Counted from `k`, the first `j` sessions have bars and pass. -/
def Passes (item : Item) (bars : List DailyBar) (k : ℤ) (days : List Date) (j : ℕ) : Prop :=
  ∀ i < j, ∃ d b, days[i]? = some d ∧ barOn bars d = some b ∧ exitOn item (k + i) b = none

theorem passes_cons {k : ℤ} {day : Date} {days : List Date} {j : ℕ} :
    Passes item bars k (day :: days) (j + 1) ↔
      (∃ b, barOn bars day = some b ∧ exitOn item k b = none) ∧
        Passes item bars (k + 1) days j := by
  constructor
  · intro h
    refine ⟨?_, fun i hi => ?_⟩
    · obtain ⟨d, b, hd, hb, hpass⟩ := h 0 (by omega)
      cases hd
      exact ⟨b, hb, by simpa using hpass⟩
    · obtain ⟨d, b, hd, hb, hpass⟩ := h (i + 1) (by omega)
      refine ⟨d, b, hd, hb, ?_⟩
      rw [show k + 1 + (i : ℤ) = k + ((i + 1 : ℕ) : ℤ) by push_cast; ring]
      exact hpass
  · rintro ⟨⟨b, hb, hpass⟩, hrest⟩ i hi
    cases i with
    | zero => exact ⟨day, b, rfl, hb, by simpa using hpass⟩
    | succ i =>
      obtain ⟨d, b', hd, hb', hpass'⟩ := hrest i (by omega)
      refine ⟨d, b', hd, hb', ?_⟩
      rw [show k + ((i + 1 : ℕ) : ℤ) = k + 1 + (i : ℤ) by push_cast; ring]
      exact hpass'

/-- Where the search ends, by the first session that does not pass. -/
theorem firstExit_from {day : Date} {e : Exit} : ∀ (k : ℤ) (days : List Date),
    firstExit item bars k days = some (day, e) ↔ ∃ (j : ℕ) (b : DailyBar),
      Passes item bars k days j ∧ days[j]? = some day ∧ barOn bars day = some b ∧
        exitOn item (k + j) b = some e
  | k, [] => by simp [firstExit]
  | k, d :: days => by
    unfold firstExit
    constructor
    · intro h
      cases hb : barOn bars d with
      | none => simp [hb] at h
      | some b =>
        cases hexit : exitOn item k b with
        | some e' =>
          simp only [hb, hexit, Option.some.injEq, Prod.mk.injEq] at h
          obtain ⟨rfl, rfl⟩ := h
          exact ⟨0, b, fun i hi => by omega, rfl, hb, by simpa using hexit⟩
        | none =>
          simp only [hb, hexit] at h
          obtain ⟨j, b', hpass, hday, hb', he⟩ := (firstExit_from (k + 1) days).mp h
          refine ⟨j + 1, b', passes_cons.mpr ⟨⟨b, hb, hexit⟩, hpass⟩, hday, hb', ?_⟩
          rw [show k + ((j + 1 : ℕ) : ℤ) = k + 1 + (j : ℤ) by push_cast; ring]
          exact he
    · rintro ⟨j, b, hpass, hday, hb, he⟩
      cases j with
      | zero =>
        cases hday
        have he' : exitOn item k b = some e := by simpa using he
        simp only [hb, he']
      | succ j =>
        obtain ⟨⟨b', hb', hexit⟩, hpass⟩ := passes_cons.mp hpass
        simp only [hb', hexit]
        refine (firstExit_from (k + 1) days).mpr ⟨j, b, hpass, hday, hb, ?_⟩
        rw [show k + 1 + (j : ℤ) = k + ((j + 1 : ℕ) : ℤ) by push_cast; ring]
        exact he

/-- It finds nothing where all pass, or the first that does not has no bar. -/
theorem firstExit_none : ∀ (k : ℤ) (days : List Date),
    firstExit item bars k days = none ↔ Passes item bars k days days.length ∨
      ∃ (j : ℕ) (day : Date), Passes item bars k days j ∧ days[j]? = some day ∧
        barOn bars day = none
  | k, [] => by simp [firstExit, Passes]
  | k, d :: days => by
    unfold firstExit
    constructor
    · intro h
      cases hb : barOn bars d with
      | none => exact .inr ⟨0, d, fun i hi => by omega, rfl, hb⟩
      | some b =>
        cases hexit : exitOn item k b with
        | some e => simp [hb, hexit] at h
        | none =>
          simp only [hb, hexit] at h
          rcases (firstExit_none (k + 1) days).mp h with hall | ⟨j, day, hpass, hday, hnone⟩
          · exact .inl (passes_cons.mpr ⟨⟨b, hb, hexit⟩, hall⟩)
          · exact .inr ⟨j + 1, day, passes_cons.mpr ⟨⟨b, hb, hexit⟩, hpass⟩, hday, hnone⟩
    · rintro (hall | ⟨j, day, hpass, hday, hnone⟩)
      · obtain ⟨⟨b, hb, hexit⟩, hall⟩ := passes_cons.mp hall
        simp only [hb, hexit]
        exact (firstExit_none (k + 1) days).mpr (.inl hall)
      · cases j with
        | zero =>
          cases hday
          simp only [hnone]
        | succ j =>
          obtain ⟨⟨b, hb, hexit⟩, hpass⟩ := passes_cons.mp hpass
          simp only [hb, hexit]
          exact (firstExit_none (k + 1) days).mpr (.inr ⟨j, day, hpass, hday, hnone⟩)

variable {days : List Date}

theorem Dated.passes_iff (hs : Dated bars) {j : ℕ} :
    Passes item bars 1 days j ↔ OpenUntil item bars days j := by
  refine forall_congr' fun i => imp_congr_right fun _ => exists_congr fun d =>
    exists_congr fun b => and_congr_right fun _ => ?_
  rw [hs.barOn_iff, exitOn_none (by omega), add_comm]

/-- **The search is the rule**: it finds the first session that decides. -/
theorem Dated.firstExit_iff (hs : Dated bars) {day : Date} {e : Exit} :
    firstExit item bars 1 days = some (day, e) ↔ Decided item bars days day e := by
  rw [firstExit_from]
  constructor
  · rintro ⟨j, b, hpass, hday, hb, he⟩
    rw [exitOn_iff (by omega), add_comm] at he
    exact ⟨j, b, hs.passes_iff.mp hpass, hday, hs.barOn_iff.mp hb, he⟩
  · rintro ⟨j, b, hopen, hday, hb, he⟩
    refine ⟨j, b, hs.passes_iff.mpr hopen, hday, hs.barOn_iff.mpr hb, ?_⟩
    rw [exitOn_iff (by omega), add_comm]
    exact he

/-- It finds none where the window runs out, or a bar is missing first. -/
theorem Dated.firstExit_none_iff (hs : Dated bars) :
    firstExit item bars 1 days = none ↔ OpenUntil item bars days days.length ∨
      ∃ (j : ℕ) (day : Date), OpenUntil item bars days j ∧ days[j]? = some day ∧
        ¬ HasBar bars day := by
  rw [firstExit_none, hs.passes_iff]
  refine or_congr_right (exists_congr fun j => exists_congr fun day => ?_)
  rw [hs.passes_iff, barOn_none]

end

/-! ## The resolution -/

section

variable {item : Item} {bars spy bench : List DailyBar} {start : Reference}

/-- A call stored with a reference price of zero. -/
def Item.ZeroRef (item : Item) : Prop :=
  ∃ ref spyRef benchRef, item.refs = some (ref, spyRef, benchRef) ∧
    (ref = 0 ∨ spyRef = 0 ∨ benchRef = 0)

/-- What `resolve` divides by. -/
def Reference.Zero (start : Reference) : Prop := start.ref = 0 ∨ start.spy = 0 ∨ start.bench = 0

theorem move_zero (upto : ℚ) : move 0 upto = .error .divisionByZero := if_pos rfl

theorem move_ok {frm upto : ℚ} (h : frm ≠ 0) : move frm upto = .ok (movePct frm upto) := if_neg h

/-- Without the benchmark's bar there is no resolution yet. -/
theorem done_noBench {day : Date} {how : How} {price : ℚ} {atOpen : Bool}
    (h : barOn bench day = none) : done item start spy bench day how price atOpen = .ok none := by
  unfold done
  rw [h]
  cases barOn spy day <;> rfl

/-- With both bars it is the row of the exit. -/
theorem done_ok {day : Date} {e : Exit} {s bb : DailyBar} (hs : barOn spy day = some s)
    (hb : barOn bench day = some bb) (hz : ¬ start.Zero) :
    done item start spy bench day e.how e.price e.atOpen =
      .ok (some (resolutionOf item start day e s bb)) := by
  unfold Reference.Zero at hz
  push Not at hz
  unfold done
  simp only [hs, hb, move_ok hz.1, move_ok hz.2.1, move_ok hz.2.2]
  rfl

/-- A zero reference price is divided by. -/
theorem done_error {day : Date} {e : Exit} {s bb : DailyBar} (hs : barOn spy day = some s)
    (hb : barOn bench day = some bb) (hz : start.Zero) :
    done item start spy bench day e.how e.price e.atOpen = .error .divisionByZero := by
  unfold done
  simp only [hs, hb]
  by_cases href : start.ref = 0
  · rw [href, move_zero]
    rfl
  · rw [move_ok href]
    by_cases hbench : start.bench = 0
    · rw [hbench, move_zero]
      rfl
    · rw [move_ok hbench]
      have hspy : start.spy = 0 := (hz.resolve_left href).resolve_right hbench
      rw [hspy, move_zero]
      rfl

theorem Refers.unique (hbars : Dated bars) (hspy : Dated spy) (hbench : Dated bench)
    {start' : Reference} (h : Refers item bars spy bench start)
    (h' : Refers item bars spy bench start') : start' = start := by
  have hdate : start'.date = start.date := Option.some.inj (h'.session.symm.trans h.session)
  obtain ⟨b, s, bb, hb, hs, hbb, hrefs⟩ := h.opens
  obtain ⟨b', s', bb', hb', hs', hbb', hrefs'⟩ := h'.opens
  rw [hdate] at hb' hs' hbb'
  obtain rfl := Option.some.inj ((hbars.barOn_iff.mpr hb').symm.trans (hbars.barOn_iff.mpr hb))
  obtain rfl := Option.some.inj ((hspy.barOn_iff.mpr hs').symm.trans (hspy.barOn_iff.mpr hs))
  obtain rfl := Option.some.inj ((hbench.barOn_iff.mpr hbb').symm.trans (hbench.barOn_iff.mpr hbb))
  obtain ⟨date, ref, spyRef, benchRef⟩ := start
  obtain ⟨date', ref', spyRef', benchRef'⟩ := start'
  cases hitem : item.refs with
  | none =>
    simp only [hitem] at hrefs hrefs' hdate
    rw [hdate, hrefs.1, hrefs.2.1, hrefs.2.2, hrefs'.1, hrefs'.2.1, hrefs'.2.2]
  | some refs =>
    simp only [hitem] at hrefs hrefs' hdate
    rw [hdate, hrefs.1, hrefs.2.1, hrefs.2.2, hrefs'.1, hrefs'.2.1, hrefs'.2.2]

/-- Opening prices are positive, so only a call's own prices can be zero. -/
theorem Refers.zero_iff (hbars : Series bars) (hspy : Series spy) (hbench : Series bench)
    (h : Refers item bars spy bench start) : start.Zero ↔ item.ZeroRef := by
  obtain ⟨b, s, bb, hb, hs, hbb, hrefs⟩ := h.opens
  unfold Reference.Zero Item.ZeroRef
  cases hitem : item.refs with
  | none =>
    simp only [hitem] at hrefs
    have h₁ := ne_of_gt (hbars.positive b hb.1).1
    have h₂ := ne_of_gt (hspy.positive s hs.1).1
    have h₃ := ne_of_gt (hbench.positive bb hbb.1).1
    rw [hrefs.1, hrefs.2.1, hrefs.2.2]
    simp [h₁, h₂, h₃]
  | some refs =>
    obtain ⟨ref, spyRef, benchRef⟩ := refs
    simp only [hitem] at hrefs
    rw [hrefs.1, hrefs.2.1, hrefs.2.2]
    constructor
    · intro hz
      exact ⟨ref, spyRef, benchRef, rfl, hz⟩
    · rintro ⟨_, _, _, heq, hz⟩
      cases heq
      exact hz

/-- The first session is one the benchmark index traded on. -/
theorem hasBar_of_session {d : Date} (h : d ∈ sessionsOf item spy) : HasBar spy d := by
  obtain ⟨b, hb, rfl⟩ := List.mem_map.mp (List.mem_filter.mp h).1
  exact ⟨b, hb, rfl⟩

theorem mem_window {d : Date} (h : d ∈ window item spy) : d ∈ sessionsOf item spy :=
  List.mem_of_mem_take h

/-- Where a resolution comes from: the first session and its bars, and the
session that decides, with its number, its bar and the way it is left. -/
structure Finding where
  start : Date
  first : DailyBar
  spyFirst : DailyBar
  benchFirst : DailyBar
  index : ℕ
  day : Date
  bar : DailyBar
  exit : Exit

/-- The reference of an item whose first session has these bars. -/
def Finding.reference (f : Finding) (item : Item) : Reference :=
  match item.refs with
  | none => ⟨f.start, f.first.open, f.spyFirst.open, f.benchFirst.open⟩
  | some (ref, spyRef, benchRef) => ⟨f.start, ref, spyRef, benchRef⟩

structure Found (item : Item) (bars spy bench : List DailyBar) (f : Finding) : Prop where
  session : (sessionsOf item spy).head? = some f.start
  first : barOn bars f.start = some f.first
  spyFirst : barOn spy f.start = some f.spyFirst
  benchFirst : barOn bench f.start = some f.benchFirst
  passes : Passes item bars 1 (window item spy) f.index
  day : (window item spy)[f.index]? = some f.day
  bar : barOn bars f.day = some f.bar
  exit : exitOn item (1 + f.index) f.bar = some f.exit

private theorem firstDays_sessions {days : List Date} (h : sessionsOf item spy = days) :
    firstDays days item.horizonDays = window item spy := by
  rw [← h]
  rfl

theorem resolve_eq (item : Item) (bars spy bench : List DailyBar) : resolve item bars spy bench =
    match (sessionsOf item spy).head? with
    | none => .ok none
    | some d => match barOn bars d, barOn spy d, barOn bench d with
      | some first, some spyFirst, some benchFirst =>
        match firstExit item bars 1 (window item spy) with
        | none => .ok none
        | some (day, e) =>
          done item (Finding.reference ⟨d, first, spyFirst, benchFirst, 0, d, first, e⟩ item) spy
            bench day e.how e.price e.atOpen
      | _, _, _ => .ok none := by
  unfold resolve
  rw [← sessionsOf]
  dsimp only
  cases hdays : sessionsOf item spy with
  | nil => rfl
  | cons d rest =>
    dsimp only [List.head?_cons]
    cases barOn bars d with
    | none => rfl
    | some first =>
      cases barOn spy d with
      | none => rfl
      | some spyFirst =>
        cases barOn bench d with
        | none => rfl
        | some benchFirst =>
          dsimp only
          rw [walk_eq, firstDays_sessions hdays]
          cases firstExit item bars 1 (window item spy) with
          | none => rfl
          | some found =>
            unfold Finding.reference
            cases item.refs <;> rfl

/-- A resolution is what was found, whatever the series. -/
theorem resolve_found {r : Resolution} : resolve item bars spy bench = .ok (some r) ↔
    ∃ f, Found item bars spy bench f ∧
      done item (f.reference item) spy bench f.day f.exit.how f.exit.price f.exit.atOpen =
        .ok (some r) := by
  rw [resolve_eq]
  constructor
  · intro h
    cases hhead : (sessionsOf item spy).head? with
    | none =>
      rw [hhead] at h
      cases h
    | some d =>
      rw [hhead] at h
      dsimp only at h
      split at h
      next first spyFirst benchFirst hb hs hbb =>
        cases hexit : firstExit item bars 1 (window item spy) with
        | none =>
          rw [hexit] at h
          cases h
        | some found =>
          obtain ⟨day, e⟩ := found
          rw [hexit] at h
          obtain ⟨j, b, hpass, hday, hbar, he⟩ := (firstExit_from 1 _).mp hexit
          exact ⟨⟨d, first, spyFirst, benchFirst, j, day, b, e⟩,
            ⟨hhead, hb, hs, hbb, hpass, hday, hbar, he⟩, h⟩
      · cases h
  · rintro ⟨f, hf, hdone⟩
    have hexit := (firstExit_from 1 _).mpr ⟨f.index, f.bar, hf.passes, hf.day, hf.bar, hf.exit⟩
    rw [hf.session]
    dsimp only
    rw [hf.first, hf.spyFirst, hf.benchFirst]
    dsimp only
    rw [hexit]
    exact hdone

/-- The row of an exit has the exit's day, way and prices. -/
theorem done_some {d : Reference} {day : Date} {e : Exit} {r : Resolution}
    (h : done item d spy bench day e.how e.price e.atOpen = .ok (some r)) :
    ¬ d.Zero ∧ ∃ s bb, barOn spy day = some s ∧ barOn bench day = some bb ∧
      r = resolutionOf item d day e s bb := by
  have hzero : ¬ d.Zero := by
    intro hz
    cases hs : barOn spy day with
    | none =>
      unfold done at h
      rw [hs] at h
      cases h
    | some s =>
      cases hb : barOn bench day with
      | none =>
        rw [done_noBench hb] at h
        cases h
      | some bb =>
        rw [done_error hs hb hz] at h
        cases h
  refine ⟨hzero, ?_⟩
  cases hs : barOn spy day with
  | none =>
    unfold done at h
    rw [hs] at h
    cases h
  | some s =>
    cases hb : barOn bench day with
    | none =>
      rw [done_noBench hb] at h
      cases h
    | some bb =>
      rw [done_ok hs hb hzero] at h
      cases h
      exact ⟨s, bb, rfl, rfl, rfl⟩

/-- Where the first session has its bars, `resolve` searches the window. -/
theorem resolve_from (hbars : Dated bars) (hspy : Dated spy) (hbench : Dated bench)
    (h : Refers item bars spy bench start) : resolve item bars spy bench =
      match firstExit item bars 1 (window item spy) with
      | none => .ok none
      | some (day, e) => done item start spy bench day e.how e.price e.atOpen := by
  rw [← walk_eq]
  obtain ⟨b, s, bb, hb, hs, hbb, hrefs⟩ := h.opens
  have hhead := h.session
  unfold resolve
  rw [← sessionsOf]
  dsimp only
  obtain ⟨date, ref, spyRef, benchRef⟩ := start
  cases hdays : sessionsOf item spy with
  | nil =>
    rw [hdays] at hhead
    cases hhead
  | cons d rest =>
    rw [hdays] at hhead
    cases hhead
    simp only [hbars.barOn_iff.mpr hb, hspy.barOn_iff.mpr hs, hbench.barOn_iff.mpr hbb]
    rw [firstDays_sessions hdays]
    cases hitem : item.refs with
    | none =>
      simp only [hitem] at hrefs
      rw [hrefs.1, hrefs.2.1, hrefs.2.2]
    | some refs =>
      simp only [hitem] at hrefs
      rw [hrefs.1, hrefs.2.1, hrefs.2.2]

/-- Where it lacks one, or there is none yet, it answers `None`. -/
theorem resolve_unreferred (hbars : Dated bars) (hspy : Dated spy) (hbench : Dated bench)
    (h : ∀ start, ¬ Refers item bars spy bench start) : resolve item bars spy bench = .ok none := by
  unfold resolve
  rw [← sessionsOf]
  dsimp only
  cases hdays : sessionsOf item spy with
  | nil => rfl
  | cons d rest =>
    dsimp only
    split
    next first spyFirst benchFirst hb hs hbb =>
      exfalso
      have hhead : (sessionsOf item spy).head? = some d := by rw [hdays, List.head?_cons]
      cases hitem : item.refs with
      | none =>
        refine h ⟨d, first.open, spyFirst.open, benchFirst.open⟩ ⟨hhead, first, spyFirst,
          benchFirst, hbars.barOn_iff.mp hb, hspy.barOn_iff.mp hs, hbench.barOn_iff.mp hbb, ?_⟩
        rw [hitem]
        exact ⟨rfl, rfl, rfl⟩
      | some refs =>
        refine h ⟨d, refs.1, refs.2.1, refs.2.2⟩ ⟨hhead, first, spyFirst, benchFirst,
          hbars.barOn_iff.mp hb, hspy.barOn_iff.mp hs, hbench.barOn_iff.mp hbb, ?_⟩
        rw [hitem]
        exact ⟨rfl, rfl, rfl⟩
    · rfl

end

/-! ## The rule is what is computed -/

section

variable {item : Item} {bars spy bench : List DailyBar}

theorem Undecided.of_unreferred (h : ∀ start, ¬ Refers item bars spy bench start) :
    Undecided item bars spy bench := by
  cases hhead : (sessionsOf item spy).head? with
  | none =>
    have hnil : window item spy = [] := by
      unfold window firstDays
      rw [List.head?_eq_none_iff.mp hhead]
      exact List.take_nil
    refine .waiting (fun start hstart => ?_) ?_
    · cases hhead.symm.trans hstart
    · rw [hnil]
      intro j hj
      cases hj
  | some start =>
    by_cases hbars : HasBar bars start
    · by_cases hbench : HasBar bench start
      · exfalso
        obtain ⟨b, hb⟩ := hbars
        obtain ⟨bb, hbb⟩ := hbench
        obtain ⟨s, hs⟩ := hasBar_of_session (List.mem_of_head? hhead)
        cases hitem : item.refs with
        | none => exact h ⟨start, b.open, s.open, bb.open⟩ ⟨hhead, b, s, bb, hb, hs, hbb, by
            rw [hitem]
            exact ⟨rfl, rfl, rfl⟩⟩
        | some refs => exact h ⟨start, refs.1, refs.2.1, refs.2.2⟩ ⟨hhead, b, s, bb, hb, hs, hbb, by
            rw [hitem]
            exact ⟨rfl, rfl, rfl⟩⟩
      · exact .noFirst start hhead (.inr hbench)
    · exact .noFirst start hhead (.inl hbars)

/-- Where the first session has its bars, only the search is left undecided. -/
theorem undecided_iff (hbars : Dated bars) {start : Reference}
    (h : Refers item bars spy bench start) : Undecided item bars spy bench ↔
      firstExit item bars 1 (window item spy) = none ∨
        ∃ day e, firstExit item bars 1 (window item spy) = some (day, e) ∧ ¬ HasBar bench day := by
  obtain ⟨b, s, bb, hb, hs, hbb, -⟩ := h.opens
  rw [hbars.firstExit_none_iff]
  constructor
  · intro hu
    cases hu with
    | waiting _ hall => exact .inl (.inl hall)
    | noFirst d hhead hmissing =>
      obtain rfl : d = start.date := Option.some.inj (hhead.symm.trans h.session)
      rcases hmissing with hno | hno
      · exact absurd ⟨b, hb⟩ hno
      · exact absurd ⟨bb, hbb⟩ hno
    | hole k day hopen hday hno => exact .inl (.inr ⟨k, day, hopen, hday, hno⟩)
    | noBench day e hdecided hno => exact .inr ⟨day, e, hbars.firstExit_iff.mpr hdecided, hno⟩
  · rintro ((hall | ⟨k, day, hopen, hday, hno⟩) | ⟨day, e, hexit, hno⟩)
    · refine .waiting (fun d hhead => ?_) hall
      obtain rfl : d = start.date := Option.some.inj (hhead.symm.trans h.session)
      exact ⟨⟨b, hb⟩, ⟨bb, hbb⟩⟩
    · exact .hole k day hopen hday hno
    · exact .noBench day e (hbars.firstExit_iff.mp hexit) hno

/-- The day found is one of the window's. -/
theorem Decided.mem {days : List Date} {day : Date} {e : Exit} (h : Decided item bars days day e) :
    day ∈ days := by
  obtain ⟨k, b, -, hday, -⟩ := h.first
  exact List.mem_of_getElem? hday

/-- **What `resolve` answers**: `None` where the rule is undecided, the one
outcome it has otherwise, and an exception where it divides by zero. -/
theorem resolve_cases (item : Item) (hbars : Dated bars) (hspy : Dated spy) (hbench : Dated bench) :
    (resolve item bars spy bench = .ok none ∧ Undecided item bars spy bench ∧
        ∀ r, ¬ OutcomeOf item bars spy bench r) ∨
      ∃ start r, Refers item bars spy bench start ∧
        (∀ r', OutcomeOf item bars spy bench r' ↔ r' = r) ∧ ¬ Undecided item bars spy bench ∧
        (start.Zero → resolve item bars spy bench = .error .divisionByZero) ∧
        (¬ start.Zero → resolve item bars spy bench = .ok (some r)) := by
  by_cases hrefers : ∃ start, Refers item bars spy bench start
  · obtain ⟨start, hstart⟩ := hrefers
    rw [undecided_iff hbars hstart, resolve_from hbars hspy hbench hstart]
    cases hexit : firstExit item bars 1 (window item spy) with
    | none =>
      refine .inl ⟨rfl, .inl rfl, ?_⟩
      rintro r ⟨_, day, e, s, bb, -, hdecided, -⟩
      cases hexit.symm.trans (hbars.firstExit_iff.mpr hdecided)
    | some found =>
      obtain ⟨day, e⟩ := found
      have hdecided := hbars.firstExit_iff.mp hexit
      obtain ⟨s, hs⟩ := hasBar_of_session (mem_window hdecided.mem)
      by_cases hbb : HasBar bench day
      · obtain ⟨bb, hbb⟩ := hbb
        refine .inr ⟨start, resolutionOf item start day e s bb, hstart, fun r' => ⟨?_, ?_⟩, ?_,
          fun hz => ?_, fun hz => ?_⟩
        · rintro ⟨start', day', e', s', bb', hstart', hdecided', hs', hbb', rfl⟩
          obtain rfl := hstart.unique hbars hspy hbench hstart'
          cases hexit.symm.trans (hbars.firstExit_iff.mpr hdecided')
          cases (hspy.barOn_iff.mpr hs').symm.trans (hspy.barOn_iff.mpr hs)
          cases (hbench.barOn_iff.mpr hbb').symm.trans (hbench.barOn_iff.mpr hbb)
          rfl
        · rintro rfl
          exact ⟨start, day, e, s, bb, hstart, hdecided, hs, hbb, rfl⟩
        · rintro (h | ⟨day', e', h, hno⟩)
          · cases h
          · cases h
            exact hno ⟨bb, hbb⟩
        · exact done_error (hspy.barOn_iff.mpr hs) (hbench.barOn_iff.mpr hbb) hz
        · exact done_ok (hspy.barOn_iff.mpr hs) (hbench.barOn_iff.mpr hbb) hz
      · refine .inl ⟨done_noBench (barOn_none.mpr hbb), .inr ⟨day, e, rfl, hbb⟩, ?_⟩
        rintro r ⟨_, day', e', s', bb', -, hdecided', -, hbb', -⟩
        cases hexit.symm.trans (hbars.firstExit_iff.mpr hdecided')
        exact hbb ⟨bb', hbb'⟩
  · have hno : ∀ start, ¬ Refers item bars spy bench start := fun start h => hrefers ⟨start, h⟩
    refine .inl ⟨resolve_unreferred hbars hspy hbench hno, .of_unreferred hno, ?_⟩
    rintro r ⟨start, day, e, s, bb, hstart, -⟩
    exact hno start hstart

/-- `resolve` computes the first-touch rule of the item on these series. -/
def FirstTouch (item : Item) (bars spy bench : List DailyBar) : Prop :=
  (∀ r, resolve item bars spy bench = .ok (some r) ↔ OutcomeOf item bars spy bench r) ∧
    (resolve item bars spy bench = .ok none ↔ Undecided item bars spy bench)

/-- **The first-touch rule** is computed, for every item and all series,
except where it decides a call stored with a zero reference price: there
the return divides by it. -/
theorem firstTouch_iff (item : Item) (bars spy bench : List DailyBar) (hbars : Series bars)
    (hspy : Series spy) (hbench : Series bench) : FirstTouch item bars spy bench ↔
      ¬ ((∃ r, OutcomeOf item bars spy bench r) ∧ item.ZeroRef) := by
  unfold FirstTouch
  rcases resolve_cases item hbars.toDated hspy.toDated hbench.toDated with
    ⟨hres, hundecided, hno⟩ | ⟨start, r, hstart, hr, hdecided, herror, hok⟩
  · rw [hres]
    refine iff_of_true ⟨fun r => iff_of_false (fun h => by cases h) (hno r),
      iff_of_true rfl hundecided⟩ ?_
    rintro ⟨⟨r, h⟩, -⟩
    exact hno r h
  · rw [← hstart.zero_iff hbars hspy hbench]
    by_cases hz : start.Zero
    · rw [herror hz]
      refine iff_of_false (fun h => ?_) fun h => h ⟨⟨r, (hr r).mpr rfl⟩, hz⟩
      cases (h.1 r).mpr ((hr r).mpr rfl)
    · rw [hok hz]
      refine iff_of_true ⟨fun r' => ?_, iff_of_false (fun h => by cases h) hdecided⟩
        fun h => hz h.2
      rw [hr]
      constructor
      · intro h
        cases h
        rfl
      · rintro rfl
        rfl

end

/-! ## A call stored while SPY's last trade read zero -/

private def oneDay : List DailyBar := [⟨700, 100, 110, 95, 105⟩]

private theorem oneDay_series : Series oneDay :=
  ⟨⟨List.pairwise_singleton _ _⟩, by decide +kernel⟩

private def zeroSpy : Item where
  kind := .call
  itemId := 1
  symbol := "MU"
  direction := .up
  target := 150
  invalidation := 90
  horizonDays := 1
  benchmark := "SPY"
  session := 700
  refs := some (100, 0, 100)

/-- Its horizon has ended and the rule has an outcome, but the division
raises. -/
theorem firstTouch_zeroSpy : ¬ ∀ item bars spy bench, Series bars → Series spy → Series bench →
    FirstTouch item bars spy bench := by
  intro h
  have hfirst := h zeroSpy oneDay oneDay oneDay oneDay_series oneDay_series oneDay_series
  have hraise : resolve zeroSpy oneDay oneDay oneDay = .error .divisionByZero := by decide +kernel
  rcases resolve_cases zeroSpy oneDay_series.toDated oneDay_series.toDated oneDay_series.toDated
    with ⟨hnone, -⟩ | ⟨-, r, -, hr, -⟩
  · rw [hraise] at hnone
    cases hnone
  · have hsome := (hfirst.1 r).mpr ((hr r).mpr rfl)
    rw [hraise] at hsome
    cases hsome

/-- With the prices of the day it resolves by the rule. -/
theorem firstTouch_oneDay : FirstTouch { zeroSpy with refs := some (100, 100, 100) } oneDay oneDay
    oneDay := by
  refine (firstTouch_iff _ oneDay oneDay oneDay oneDay_series oneDay_series oneDay_series).mpr ?_
  rintro ⟨-, _, _, _, heq, hzero⟩
  cases heq
  revert hzero
  decide

end TradeDesk.Desk
