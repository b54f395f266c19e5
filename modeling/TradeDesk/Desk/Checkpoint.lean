import TradeDesk.Desk.Scorecard

/-!
# The checkpoint on exact figures

The means the checkpoint compares are not rounded, but the book's return
and SPY's, and the mean an analyst is flagged on, are those shown. So there
is a second reading of the ledger here, `exactVerdict` and `exactFlags`:
the same comparisons on the means and the returns themselves.

Rounding keeps order but not strict order, and a number is shown as
negative when it is below minus half a cent. The two readings part exactly
where one of these loses a difference (`checkpoint_exact_iff`).
-/

namespace TradeDesk.Desk

open TradeDesk.Async

/-! ## The exact reading -/

/-- The resolutions of the PM's own calls. -/
def resolvedCalls (s : Store) : List Resolution := s.resolutions.filter fun r =>
  r.kind == .call && ((s.callOf r).map (·.origin) == some .pitch ||
    (s.callOf r).map (·.origin) == some .pm)

def resolvedPitches (s : Store) : List Resolution := s.resolutions.filter fun r => r.kind == .pitch

def resolvedOf (s : Store) (a : Analyst) : List Resolution :=
  s.resolutions.filter fun r => (s.pitchOf r).map (·.analyst) == some a

def exactPmExcess (s : Store) : Option ℚ := Scorecard.mean ((resolvedCalls s).map (·.excessSpy))

def exactAllExcess (s : Store) : Option ℚ := Scorecard.mean ((resolvedPitches s).map (·.excessSpy))

def exactBenchExcess (s : Store) (a : Analyst) : Option ℚ :=
  Scorecard.mean ((resolvedOf s a).map (·.excessBench))

/-- The book's return, on its equity at the marks. -/
def exactBookReturn (s : Store) : Option ℚ :=
  s.paperBook.map fun start => (s.bookEquity start - start) / start * 100

/-- SPY's return since the book started. -/
def exactSpyReturn (s : Store) : Option ℚ :=
  s.paperBook.bind fun _ => (spyReturn (s.barsFor "SPY" (some s.bookStartDate) none)).toOption.join

/-- The verdict on the exact means and returns. -/
def exactVerdict (checkpointDate today : Date) (minCalls : ℤ) (s : Store) : Verdict :=
  (checkpointVerdict today checkpointDate minCalls (resolvedCalls s).length (exactPmExcess s)
    (exactAllExcess s) (exactBookReturn s) (exactSpyReturn s)).verdict

/-- The analysts to flag, on their exact means. -/
def exactFlags (reviewMin : ℤ) (s : Store) : List String :=
  (analysts.filter fun a => match exactBenchExcess s a with
    | some m => reviewMin ≤ ((resolvedOf s a).length : ℤ) && m < 0
    | none => false).map (·.name)

/-- The checkpoint is reached, the PM beats SPY, and the book is behind SPY
by so little that both returns show as the same number. -/
def BehindUnseen (checkpointDate today : Date) (minCalls : ℤ) (s : Store) : Prop :=
  checkpointDate ≤ today ∧ minCalls ≤ ((resolvedCalls s).length : ℤ) ∧
    (∃ pm, exactPmExcess s = some pm ∧ 0 < pm) ∧
    ∃ book spy, exactBookReturn s = some book ∧ exactSpyReturn s = some spy ∧
      book < spy ∧ cents book = cents spy

/-- An analyst with enough pitches whose mean is negative, by half a cent at
most. -/
def NegativeUnseen (reviewMin : ℤ) (s : Store) (a : Analyst) : Prop :=
  reviewMin ≤ ((resolvedOf s a).length : ℤ) ∧
    ∃ m, exactBenchExcess s a = some m ∧ -1 / 200 ≤ m ∧ m < 0

/-! ## What the code computes -/

section

variable {cfg : Settings} {draws : Draws} {checkpointDate today : Date} {s : Store}
variable {sc : Scorecard} {reviewMin minCalls : ℤ}

/-- A row of the join is of its resolution. -/
def RowOf (s : Store) (r : Resolution) (row : ResolvedRow) : Prop :=
  row.resolution = r ∧ row.analyst = (s.pitchOf r).map (·.analyst) ∧
    row.origin = (s.callOf r).map (·.origin)

theorem resolvedRows_ok {rows : List ResolvedRow} (h : resolvedRows.eval s = .ok rows) :
    List.Forall₂ (RowOf s) s.resolutions rows := by
  obtain ⟨joined, hjoined, h⟩ := Reads.eval_bind_ok h
  obtain rfl : (s.resolutions.map fun r => (r, s.pitchOf r, s.callOf r)) = joined :=
    Except.ok.inj hjoined
  refine (List.forall₂_map_left_iff.mp (Reads.each_ok h)).imp ?_
  intro r row hrow
  unfold resolvedRow at hrow
  split at hrow
  · cases hrow
    exact ⟨rfl, rfl, rfl⟩
  · cases hrow

/-- Choosing rows is choosing resolutions. -/
theorem filter_rows {R : Resolution → ResolvedRow → Prop} {p : ResolvedRow → Bool}
    {q : Resolution → Bool} (hR : ∀ r row, R r row → row.resolution = r ∧ p row = q r)
    {rs : List Resolution} {rows : List ResolvedRow} (h : List.Forall₂ R rs rows) :
    (rows.filter p).map (·.resolution) = rs.filter q := by
  induction h with
  | nil => rfl
  | @cons r row rs rows hrow _ ih =>
    obtain ⟨hres, hpq⟩ := hR r row hrow
    rw [List.filter_cons, List.filter_cons, hpq]
    split
    · rw [List.map_cons, ih, hres]
    · exact ih

theorem bookStats_ok {b : BookStats} (h : bookStats.eval s = .ok b) :
    b.retPct = quantized (exactBookReturn s) ∧ b.spyRetPct = quantized (exactSpyReturn s) := by
  obtain ⟨row, hrow, h⟩ := Reads.eval_bind_ok h
  have hrow' : (s.paperBook.map fun equity => (s.bookStartDate, equity)) = row :=
    Except.ok.inj hrow
  unfold exactBookReturn exactSpyReturn
  cases hbook : s.paperBook with
  | none =>
    rw [hbook] at hrow'
    subst hrow'
    cases h
    exact ⟨rfl, rfl⟩
  | some start =>
    rw [hbook] at hrow'
    subst hrow'
    obtain ⟨state, hstate, h⟩ := Reads.eval_bind_ok h
    obtain ⟨spy, hspy, h⟩ := Reads.eval_bind_ok h
    obtain ⟨ret, hret, h⟩ := Reads.eval_bind_ok h
    obtain ⟨trades, _, h⟩ := Reads.eval_bind_ok h
    obtain ⟨_, _, h⟩ := Reads.eval_bind_ok h
    cases h
    obtain rfl := Except.ok.inj hspy
    rw [Reads.eval_check] at hret
    obtain ⟨start', hstart, _, _, hequity⟩ := bookState_ok hstate
    obtain rfl : start = start' := Option.some.inj (hbook.symm.trans hstart)
    refine ⟨?_, ?_⟩
    · rw [hequity]
      rfl
    · show quantized ret = quantized (spyReturn _).toOption.join
      rw [hret]
      rfl

theorem groupStats_shown (name : String) (rs : List Resolution) (ciMin : ℤ) :
    (groupStats draws name rs ciMin).name = name ∧ (groupStats draws name rs ciMin).n = rs.length ∧
      (groupStats draws name rs ciMin).meanExcessBenchPct =
        quantized (Scorecard.mean (rs.map (·.excessBench))) := by
  unfold groupStats
  split
  next hnil =>
    rw [hnil]
    exact ⟨rfl, rfl, rfl⟩
  · exact ⟨rfl, rfl, rfl⟩

/-- The names of those flagged are the names of those shown as negative. -/
theorem flags_names {G : Analyst → GroupStats} {shown : Analyst → Bool}
    (hname : ∀ a, (G a).name = a.name)
    (hshown : ∀ a, shown a = match (G a).meanExcessBenchPct with
      | some m => decide (0 < (G a).n ∧ reviewMin ≤ ((G a).n : ℤ) ∧ m < 0)
      | none => false) (as : List Analyst) :
    (((as.map G).filter fun g => 0 < g.n).filterMap fun g => match g.meanExcessBenchPct with
      | some m => if reviewMin ≤ (g.n : ℤ) ∧ m < 0 then some (⟨g.name, g.n, m⟩ : AnalystFlag)
        else none
      | none => none).map (·.name) = (as.filter shown).map (·.name) := by
  induction as with
  | nil => rfl
  | cons a as ih =>
    rw [List.map_cons, List.filter_cons, List.filter_cons, hshown a]
    cases hm : (G a).meanExcessBenchPct with
    | none =>
      by_cases hn : 0 < (G a).n
      · simp only [decide_eq_true hn, if_true, List.filterMap_cons, hm]
        exact ih
      · simp only [decide_eq_false hn, Bool.false_eq_true, if_false]
        exact ih
    | some m =>
      by_cases hn : 0 < (G a).n
      · by_cases hbad : reviewMin ≤ ((G a).n : ℤ) ∧ m < 0
        · simp only [hn, hbad, decide_true, if_true, List.filterMap_cons, hm, and_self,
            List.map_cons, hname, ih]
        · simp only [hn, hbad, true_and, decide_true, decide_false, if_true, if_false,
            List.filterMap_cons, hm, Bool.false_eq_true, ih]
      · simp only [hn, false_and, decide_false, Bool.false_eq_true, if_false, ih]

/-- The analysts whose mean shows as negative. -/
def shownFlags (reviewMin : ℤ) (s : Store) : List String :=
  (analysts.filter fun a => match exactBenchExcess s a with
    | some m => reviewMin ≤ ((resolvedOf s a).length : ℤ) && cents m < 0
    | none => false).map (·.name)

/-- **What the scorecard decides on**: the exact means, and the returns and
the flagged means as they are shown. -/
theorem buildScorecard_ok
    (hreview : cfg.rules.getInt .strategy "analyst_review_min_pitches" = .ok reviewMin)
    (hmin : cfg.rules.getInt .strategy "checkpoint_min_pm_calls" = .ok minCalls)
    (h : (buildScorecard cfg draws checkpointDate today).eval s = .ok sc) :
    sc.checkpoint = checkpointVerdict today checkpointDate minCalls (resolvedCalls s).length
      (exactPmExcess s) (exactAllExcess s) (quantized (exactBookReturn s))
      (quantized (exactSpyReturn s)) ∧
    sc.analystFlags.map (·.name) = shownFlags reviewMin s := by
  obtain ⟨ciMin, _, h⟩ := Reads.eval_bind_ok h
  obtain ⟨rows, hrows, h⟩ := Reads.eval_bind_ok h
  obtain ⟨review, hreview', h⟩ := Reads.eval_bind_ok h
  obtain ⟨book, hbook, h⟩ := Reads.eval_bind_ok h
  obtain ⟨calls, hcalls, h⟩ := Reads.eval_bind_ok h
  rw [Reads.eval_check] at hreview' hcalls
  obtain rfl : reviewMin = review := Except.ok.inj (hreview.symm.trans hreview')
  obtain rfl : minCalls = calls := Except.ok.inj (hmin.symm.trans hcalls)
  have hrow := resolvedRows_ok hrows
  have hpitches : (rows.filter fun r => r.resolution.kind == .pitch).map (·.resolution) =
      resolvedPitches s :=
    filter_rows (fun r row hr => ⟨hr.1, by rw [hr.1]⟩) hrow
  have hpm : (rows.filter fun r => r.resolution.kind == .call &&
      (r.origin == some .pitch || r.origin == some .pm)).map (·.resolution) = resolvedCalls s :=
    filter_rows (fun r row hr => ⟨hr.1, by rw [hr.1, hr.2.2]⟩) hrow
  have hof : ∀ a, (rows.filter fun r => r.analyst == some a).map (·.resolution) = resolvedOf s a :=
    fun a => filter_rows (fun r row hr => ⟨hr.1, by rw [hr.2.1]⟩) hrow
  obtain ⟨hret, hspy⟩ := bookStats_ok hbook
  cases h
  refine ⟨?_, ?_⟩
  · dsimp only
    rw [hpm, hpitches, hret, hspy]
    rfl
  · refine flags_names (fun a => (groupStats_shown _ _ _).1) (fun a => ?_) analysts
    obtain ⟨_, hn, hmean⟩ := @groupStats_shown draws a.name
      ((rows.filter fun r => r.analyst == some a).map (·.resolution)) ciMin
    rw [hn, hmean, hof a]
    show (match exactBenchExcess s a with
      | some m => reviewMin ≤ ((resolvedOf s a).length : ℤ) && cents m < 0
      | none => false) = _
    unfold exactBenchExcess Scorecard.mean
    by_cases hnil : (resolvedOf s a).map (·.excessBench) = []
    · rw [if_pos hnil]
      rfl
    · rw [if_neg hnil]
      have hpos : 0 < (resolvedOf s a).length := by
        rw [List.length_pos_iff]
        exact fun he => hnil (by rw [he]; rfl)
      show (decide _ && decide _) = decide _
      simp [hpos]

/-! ## Where the two readings part -/

/-- The verdict is lost to the roundings exactly where the book's return is
behind SPY's and both show as one number. -/
theorem verdict_quantized {n : ℕ} {pm all book spy : Option ℚ} :
    (checkpointVerdict today checkpointDate minCalls n pm all (quantized book)
        (quantized spy)).verdict =
      (checkpointVerdict today checkpointDate minCalls n pm all book spy).verdict ↔
    ¬ (checkpointDate ≤ today ∧ minCalls ≤ (n : ℤ) ∧ (∃ x, pm = some x ∧ 0 < x) ∧
      ∃ b y, book = some b ∧ spy = some y ∧ b < y ∧ cents b = cents y) := by
  unfold checkpointVerdict
  dsimp only
  by_cases hearly : today < checkpointDate ∨ (n : ℤ) < minCalls
  · rw [if_pos hearly, if_pos hearly]
    refine iff_of_true rfl ?_
    rintro ⟨hdate, hcalls, _⟩
    rcases hearly with hearly | hearly
    · exact absurd hdate (not_le.mpr hearly)
    · exact absurd hcalls (not_le.mpr hearly)
  · rw [if_neg hearly, if_neg hearly]
    obtain ⟨hdate, hcalls⟩ := not_or.mp hearly
    rw [not_lt] at hdate hcalls
    cases pm with
    | none =>
      refine iff_of_true rfl ?_
      rintro ⟨_, _, ⟨x, hx, _⟩, _⟩
      cases hx
    | some x =>
      by_cases hx : 0 < x
      · -- with a positive mean the verdict is keep or rework, by the returns
        have hneg : ¬ x < 0 := not_lt.mpr hx.le
        cases book with
        | none =>
          refine iff_of_true rfl ?_
          rintro ⟨_, _, _, b, y, hb, _⟩
          cases hb
        | some b =>
          cases spy with
          | none =>
            refine iff_of_true rfl ?_
            rintro ⟨_, _, _, b, y, _, hy, _⟩
            cases hy
          | some y =>
            simp only [quantized, Option.map_some, hx, hneg, true_and, false_and, if_false,
              decide_eq_true_eq]
            by_cases hmatch : y ≤ b
            · rw [if_pos (cents_mono hmatch), if_pos hmatch]
              refine iff_of_true rfl ?_
              rintro ⟨_, _, _, b', y', hb, hy, hlt, _⟩
              cases hb
              cases hy
              exact absurd hmatch (not_le.mpr hlt)
            · rw [if_neg hmatch]
              have hlt : b < y := not_le.mp hmatch
              by_cases hshown : cents y ≤ cents b
              · rw [if_pos hshown]
                refine iff_of_false (fun hv => by cases hv) (not_not.mpr ?_)
                exact ⟨hdate, hcalls, ⟨x, rfl, hx⟩, b, y, rfl, rfl, hlt,
                  le_antisymm (cents_mono hlt.le) hshown⟩
              · rw [if_neg hshown]
                refine iff_of_true rfl ?_
                rintro ⟨_, _, _, b', y', hb, hy, _, heq⟩
                cases hb
                cases hy
                exact hshown heq.ge
      · -- otherwise the returns are not looked at
        simp only [hx, false_and, if_false]
        refine iff_of_true trivial ?_
        rintro ⟨_, _, ⟨x', hx', hpos⟩, _⟩
        cases hx'
        exact hx hpos

theorem Analyst.name_injective : Function.Injective Analyst.name := by
  intro a b
  cases a <;> cases b <;> decide

theorem mem_analysts (a : Analyst) : a ∈ analysts := by
  cases a <;> decide

/-- Two choices of analysts have the same names when they are the same. -/
theorem flagged_names_eq {p q : Analyst → Bool} :
    (analysts.filter p).map (·.name) = (analysts.filter q).map (·.name) ↔ ∀ a, p a = q a := by
  rw [(List.map_injective_iff.mpr Analyst.name_injective).eq_iff]
  constructor
  · intro h a
    have hmem : a ∈ analysts.filter p ↔ a ∈ analysts.filter q := by rw [h]
    rw [List.mem_filter, List.mem_filter] at hmem
    have := mem_analysts a
    by_cases hp : p a = true
    · rw [hp, (hmem.mp ⟨this, hp⟩).2]
    · by_cases hq : q a = true
      · exact absurd (hmem.mpr ⟨this, hq⟩).2 hp
      · rw [Bool.not_eq_true] at hp hq
        rw [hp, hq]
  · intro h
    exact List.filter_congr fun a _ => h a

/-- A flag is lost to the rounding exactly where a negative mean shows as
zero. -/
theorem shown_eq_exact (a : Analyst) :
    ((match exactBenchExcess s a with
      | some m => reviewMin ≤ ((resolvedOf s a).length : ℤ) && cents m < 0
      | none => false) = match exactBenchExcess s a with
      | some m => reviewMin ≤ ((resolvedOf s a).length : ℤ) && decide (m < 0)
      | none => false) ↔ ¬ NegativeUnseen reviewMin s a := by
  unfold NegativeUnseen
  cases hm : exactBenchExcess s a with
  | none =>
    refine iff_of_true rfl ?_
    rintro ⟨_, m, hm', _⟩
    cases hm'
  | some m =>
    dsimp only
    by_cases hn : reviewMin ≤ ((resolvedOf s a).length : ℤ)
    · simp only [hn, decide_true, Bool.true_and, true_and, Option.some.injEq, exists_eq_left',
        decide_eq_decide, cents_neg_iff]
      constructor
      · rintro hiff ⟨hle, hneg⟩
        exact absurd (hiff.mpr hneg) (not_lt.mpr hle)
      · intro hnot
        constructor
        · intro hlt
          linarith
        · intro hneg
          by_contra hle
          exact hnot ⟨not_lt.mp hle, hneg⟩
    · refine iff_of_true ?_ fun h => hn h.1
      rw [decide_eq_false hn, Bool.false_and, Bool.false_and]

end

/-! ### A book a hundredth of a hundredth behind -/

/-- Forty calls of the PM, each one above SPY. -/
def fortyCalls : List Resolution := (List.range 40).map fun n =>
  ⟨.call, n + 1, dayNumber 2026 10 1, 50, dayNumber 2026 10 8, .horizon, 51, 2, 1, 1⟩

def pmCall (n : ℕ) : Call :=
  { madeAt := 0, session := dayNumber 2026 10 1, origin := .pm, pitchId := none,
    extendsCallId := none, symbol := "AAA", direction := .up, thesis := "thesis", target := 60,
    invalidation := 47, horizonDays := 5, conviction := 4, benchmark := "SPY", refPrice := 50,
    spyRef := 500, benchRef := 500, funding := .none, id := n + 1 }

/-- The book has not moved, and SPY has gone from 500 to 500.02. -/
def behindStore : Store :=
  { openingStore with
    calls := (List.range 40).map pmCall
    resolutions := fortyCalls
    bars := [("SPY", ⟨dayNumber 2026 9 28, 500, 500, 500, 500⟩),
      ("SPY", ⟨dayNumber 2026 12 31, 500, 501, 500, 50002 / 100⟩)] }

def yearEnd : Date := dayNumber 2026 12 31

theorem behind_scorecard : ∃ sc,
    (buildScorecard deskSettings (fun _ _ => 0) yearEnd yearEnd).eval behindStore = .ok sc ∧
      sc.checkpoint.verdict = .keep := by
  have hmap : ((buildScorecard deskSettings (fun _ _ => 0) yearEnd yearEnd).eval behindStore).map
      (·.checkpoint.verdict) = .ok .keep := by decide +kernel
  cases heval : (buildScorecard deskSettings (fun _ _ => 0) yearEnd yearEnd).eval behindStore with
  | error e =>
    rw [heval] at hmap
    cases hmap
  | ok sc =>
    rw [heval] at hmap
    exact ⟨sc, rfl, Except.ok.inj hmap⟩

end TradeDesk.Desk
