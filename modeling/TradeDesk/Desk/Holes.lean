import TradeDesk.Desk.BarTable
import TradeDesk.Desk.Run
import TradeDesk.Weekdays

/-!
# Holes in the bar history

`refresh_bars` over and over, with sessions in between and fetches that
fail. The broker is assumed to answer a request for `n` bars with the last
`n` sessions, and sessions fall on weekdays.

A symbol's bars stay without a hole if the last `n` sessions reach back to
one that is stored (`Whole.upsert`). A top-up's ten do, since a symbol is
topped up only within eight weekdays of its newest bar, and there are no
more sessions than weekdays. A full history does if no more sessions have
gone by than it has bars. That is a condition on the symbol's own fetches,
not on the runs: a symbol that fails in one run has two gaps to make good in
the next.
-/

namespace TradeDesk.Desk

open TradeDesk.Async

/-! ## Runs -/

/-- The last `n` sessions up to today, in any order. -/
structure LastSessions (isSession : Date → Bool) (today : Date) (n : ℕ) (bars : List DailyBar) :
    Prop where
  recent : ∀ b ∈ bars, isSession b.date = true ∧ b.date ≤ today ∧
    sessionsBetween isSession b.date today < n
  all : ∀ d, d ≤ today → isSession d = true → sessionsBetween isSession d today < n →
    ∃ b ∈ bars, b.date = d

/-- What is asked for of a symbol. -/
def requestedDays (bcfg : BarsConfig) (today : Date) (s : Store) (sym : String) : ℕ :=
  fetchDays bcfg today (s.barCount sym) (s.barLatest sym)

/-- Runs of `refresh_bars` from a table without bars, on days that never go
back, each fetch answered with the last sessions or failed. `G` is what is
known of the days between two runs. -/
inductive RefreshRun (bcfg : BarsConfig) (isSession : Date → Bool)
    (G : Date → Date → Feed → Store → Prop) : Date → Store → Prop
  | start {day : Date} {s : Store} : s.bars = [] → RefreshRun bcfg isSession G day s
  | refresh {day today : Date} {s s' : Store} {feed : Feed} {symbols : List String}
      {r : Except Exc BarsReport} {h : History} : RefreshRun bcfg isSession G day s →
      day ≤ today → G day today feed s →
      (∀ sym n bars, feed sym n = .ok bars → LastSessions isSession today n bars) →
      Runs AnyAnswer (refreshBars bcfg feed symbols today) [] s r h s' →
      RefreshRun bcfg isSession G today s'

/-- The table as anybody may find it: between two runs, or after any fetch
of the last. -/
def HistoryReached (bcfg : BarsConfig) (isSession : Date → Bool)
    (G : Date → Date → Feed → Store → Prop) (s : Store) : Prop :=
  (∃ day, RefreshRun bcfg isSession G day s) ∨
    ∃ day today s₀ feed symbols p h, RefreshRun bcfg isSession G day s₀ ∧ day ≤ today ∧
      G day today feed s₀ ∧
      (∀ sym n bars, feed sym n = .ok bars → LastSessions isSession today n bars) ∧
      Steps AnyAnswer ⟨refreshBars bcfg feed symbols today, [], s₀⟩ ⟨p, h, s⟩

/-- Fewer sessions from run to run than a history has bars. -/
def RunGap (bcfg : BarsConfig) (isSession : Date → Bool) (day today : Date) (_ : Feed) (_ : Store) :
    Prop :=
  sessionsBetween isSession day today < bcfg.barsHistoryDays

/-- No more of them from a symbol's newest bar to its next fetch that
succeeds. -/
def SymbolGap (bcfg : BarsConfig) (isSession : Date → Bool) (_ today : Date) (feed : Feed)
    (s : Store) : Prop :=
  ∀ sym bars newest, feed sym (requestedDays bcfg today s sym) = .ok bars →
    s.barLatest sym = some newest →
    sessionsBetween isSession newest today ≤ bcfg.barsHistoryDays

/-- Every session between two stored bars of a symbol is stored. -/
def Whole (isSession : Date → Bool) (s : Store) (sym : String) : Prop :=
  ∀ a d b, Stored s.bars sym a → Stored s.bars sym b → a ≤ d → d ≤ b → isSession d = true →
    Stored s.bars sym d

/-! ## One fetch -/

section

variable {bcfg : BarsConfig} {isSession : Date → Bool} {G : Date → Date → Feed → Store → Prop}
  {day today : Date} {s : Store} {sym : String} {n : ℕ} {bars : List DailyBar}

/-- The newest bar is one of those stored. -/
theorem barLatest_stored {newest : Date} (h : s.barLatest sym = some newest) :
    Stored s.bars sym newest := by
  obtain ⟨hmem, -⟩ := List.max?_eq_some_iff.mp h
  obtain ⟨row, hrow, hdate⟩ := List.mem_map.mp hmem
  obtain ⟨hin, hsym⟩ := List.mem_filter.mp hrow
  obtain rfl : row.1 = sym := by simpa using hsym
  exact ⟨row.2, hin, hdate⟩

theorem barLatest_none (h : s.barLatest sym = none) (d : Date) : ¬ Stored s.bars sym d := by
  rintro ⟨b, hb, -⟩
  have hnil := List.max?_eq_none_iff.mp h
  have hmem : (sym, b) ∈ s.bars.filter fun row => row.1 == sym :=
    List.mem_filter.mpr ⟨hb, by simp⟩
  rw [List.map_eq_nil_iff.mp hnil] at hmem
  cases hmem

/-- Stored bars are of sessions that were. -/
def Past (isSession : Date → Bool) (today : Date) (s : Store) : Prop :=
  ∀ sym d, Stored s.bars sym d → isSession d = true ∧ d ≤ today

/-- The last `n` sessions reach back to a stored bar, if there is one. -/
def Reaches (isSession : Date → Bool) (today : Date) (n : ℕ) (s : Store) (sym : String) : Prop :=
  (∀ d, ¬ Stored s.bars sym d) ∨
    ∃ d, Stored s.bars sym d ∧ sessionsBetween isSession d today ≤ n

/-- **A fetch that reaches back leaves no hole.** -/
theorem Whole.upsert (hw : Whole isSession s sym) (hr : Reaches isSession today n s sym)
    (hbars : LastSessions isSession today n bars) (hpast : Past isSession today s) :
    Whole isSession (s.upsertBars sym bars) sym := by
  intro a d b ha hb had hdb hd
  rw [Store.stored_upsertBars] at ha hb ⊢
  have hdt : d ≤ today := by
    rcases hb with hold | ⟨-, x, hx, rfl⟩
    · exact le_trans hdb (hpast sym b hold).2
    · exact le_trans hdb (hbars.recent x hx).2.1
  by_cases hnew : sessionsBetween isSession d today < n
  · exact .inr ⟨rfl, hbars.all d hdt hd hnew⟩
  · left
    -- so `a` is not among the new bars, and there were bars before
    have haOld : Stored s.bars sym a := by
      rcases ha with hold | ⟨-, x, hx, rfl⟩
      · exact hold
      · exact absurd (lt_of_le_of_lt (sessionsBetween_anti had) (hbars.recent x hx).2.2) hnew
    rcases hr with hnone | ⟨c, hc, hreach⟩
    · exact absurd haOld (hnone a)
    · have hdc : d ≤ c := by
        by_contra hlt
        have hmore := sessionsBetween_lt (not_le.mp hlt) hdt hd
        omega
      exact hw a d c haOld hc had hdc hd

/-- Other symbols are left alone. -/
theorem Whole.other (hw : Whole isSession s sym) {x : String} (hne : sym ≠ x) :
    Whole isSession (s.upsertBars x bars) sym := by
  have hsame : ∀ d, Stored (s.upsertBars x bars).bars sym d ↔ Stored s.bars sym d := fun d => by
    rw [Store.stored_upsertBars]
    exact ⟨fun h => h.resolve_right fun h => hne h.1, .inl⟩
  intro a d b ha hb had hdb hd
  rw [hsame] at ha hb ⊢
  exact hw a d b ha hb had hdb hd

/-- What has been fetched can be reached again. -/
theorem Reaches.upsert {x : String} (hr : Reaches isSession today n s sym)
    (hbars : x = sym → LastSessions isSession today n bars) :
    Reaches isSession today n (s.upsertBars x bars) sym := by
  rcases hr with hnone | ⟨d, hd, hreach⟩
  · by_cases hx : x = sym
    · cases bars with
      | nil =>
        refine .inl fun d hd => ?_
        rcases Store.stored_upsertBars.mp hd with hold | ⟨-, b, hb, -⟩
        · exact hnone d hold
        · cases hb
      | cons b rest =>
        have hrecent := ((hbars hx).recent b List.mem_cons_self).2.2
        exact .inr ⟨b.date, Store.stored_upsertBars.mpr (.inr ⟨hx.symm, b, List.mem_cons_self, rfl⟩),
          le_of_lt hrecent⟩
    · refine .inl fun d hd => ?_
      rcases Store.stored_upsertBars.mp hd with hold | ⟨heq, -⟩
      · exact hnone d hold
      · exact hx heq.symm
  · exact .inr ⟨d, Store.stored_upsertBars.mpr (.inl hd), hreach⟩

theorem Past.upsert (hp : Past isSession today s) (hbars : LastSessions isSession today n bars) :
    Past isSession today (s.upsertBars sym bars) := by
  intro x d hd
  rcases Store.stored_upsertBars.mp hd with hold | ⟨-, b, hb, rfl⟩
  · exact hp x d hold
  · exact ⟨(hbars.recent b hb).1, (hbars.recent b hb).2.1⟩

theorem Past.later (hp : Past isSession day s) (h : day ≤ today) : Past isSession today s :=
  fun sym d hd => ⟨(hp sym d hd).1, le_trans (hp sym d hd).2 h⟩

/-- **What is asked for reaches back**: a top-up because the newest bar is
at most eight weekdays old, a full history by the gap. -/
theorem requestedDays_reach (hweek : ∀ d, isSession d = true → weekday d < 5)
    (hgap : ∀ newest, s.barLatest sym = some newest →
      sessionsBetween isSession newest today ≤ bcfg.barsHistoryDays) :
    Reaches isSession today (requestedDays bcfg today s sym) s sym := by
  cases hnewest : s.barLatest sym with
  | none => exact .inl (barLatest_none hnewest)
  | some newest =>
    refine .inr ⟨newest, barLatest_stored hnewest, ?_⟩
    have hfull := hgap newest hnewest
    have hweekdays := sessionsBetween_le_weekdays hweek newest today
    unfold requestedDays fetchDays
    rw [hnewest]
    dsimp only
    split
    · exact hfull
    next hfew =>
      have hfresh : tradingDaysBetween newest today ≤ staleAfterSessions := by
        by_contra hstale
        exact hfew (.inr (decide_eq_true (not_le.mp hstale)))
      unfold staleAfterSessions topUpDays at hfresh
      unfold topUpDays
      omega

/-! ## One run -/

/-- The table between two runs. -/
structure HistoryInv (isSession : Date → Bool) (today : Date) (s : Store) : Prop where
  past : Past isSession today s
  whole : ∀ sym, Whole isSession s sym

/-- **One run of the refresh**, whatever fails in it: each write leaves every
symbol whole. -/
theorem always_refreshBars (hi : HistoryInv isSession today s)
    (hweek : ∀ d, isSession d = true → weekday d < 5) {feed : Feed}
    (hgap : SymbolGap bcfg isSession day today feed s)
    (hfeed : ∀ sym n bars, feed sym n = .ok bars → LastSessions isSession today n bars)
    (symbols : List String) {h : History} :
    Always AnyAnswer (fun _ _ b => HistoryInv isSession today b)
      (fun _ _ s' => HistoryInv isSession today s') (refreshBars bcfg feed symbols today) h s := by
  unfold refreshBars
  refine always_scan_bind (fun counts hcounts => ?_) fun e he => by cases he
  refine always_scan_bind (fun latest hlatest => ?_) fun e he => by cases he
  obtain rfl : (fun sym => s.barCount sym) = counts := Except.ok.inj hcounts
  obtain rfl : (fun sym => s.barLatest sym) = latest := Except.ok.inj hlatest
  -- a symbol whose fetch succeeds is one the request reaches back for
  have hreach : ∀ sym bars, feed sym (requestedDays bcfg today s sym) = .ok bars →
      Reaches isSession today (requestedDays bcfg today s sym) s sym := fun sym bars hok =>
    requestedDays_reach hweek fun newest => hgap sym bars newest hok
  refine always_fetchBars (I := fun _ _ s' => HistoryInv isSession today s' ∧
      ∀ sym bars, feed sym (requestedDays bcfg today s sym) = .ok bars →
        Reaches isSession today (requestedDays bcfg today s sym) s' sym)
    (R := fun _ s' => HistoryInv isSession today s') ?_ (fun _ _ hI => hI.1) symbols _ ⟨hi, hreach⟩
  rintro sym rest rep t ⟨ht, hreach⟩
  change FetchTurn _ _ _ _ _ _ _ (feed sym (requestedDays bcfg today s sym))
  cases hanswer : feed sym (requestedDays bcfg today s sym) with
  | error fault =>
    cases fault with
    | unauthorized => exact ht
    | error => exact ⟨ht, hreach⟩
    | crashed => exact ht
  | ok bars =>
    have hbars := hfeed sym _ bars hanswer
    have hnext : HistoryInv isSession today (t.upsertBars sym bars) := by
      refine ⟨ht.past.upsert hbars, fun x => ?_⟩
      by_cases hsym : x = sym
      · rw [hsym]
        exact (ht.whole sym).upsert (hreach sym bars hanswer) hbars ht.past
      · exact (ht.whole x).other hsym
    refine ⟨fun _ => hnext, hnext, fun x xbars hx => (hreach x xbars hx).upsert fun hsym => ?_⟩
    rw [← hsym]
    exact hbars

/-- **Every run.** -/
theorem RefreshRun.inv (hweek : ∀ d, isSession d = true → weekday d < 5)
    (hrun : RefreshRun bcfg isSession (SymbolGap bcfg isSession) day s) :
    HistoryInv isSession day s := by
  induction hrun with
  | @start day s hnone =>
    have hno : ∀ sym d, ¬ Stored s.bars sym d := by
      rintro sym d ⟨b, hb, -⟩
      rw [hnone] at hb
      cases hb
    exact ⟨fun sym d hd => absurd hd (hno sym d), fun sym a _ _ ha => absurd ha (hno sym a)⟩
  | refresh _ hle hgap hfeed hruns ih =>
    exact (always_refreshBars ⟨ih.past.later hle, ih.whole⟩ hweek hgap hfeed _).runs hruns

/-- **The bar history has no holes**, after any fetch of any run, where each
fetch that succeeds comes no more sessions after the symbol's newest bar
than a history has. -/
theorem history_whole {bcfg : BarsConfig} {isSession : Date → Bool} {s : Store}
    (hweek : ∀ d, isSession d = true → weekday d < 5)
    (hr : HistoryReached bcfg isSession (SymbolGap bcfg isSession) s) :
    ∀ sym, Whole isSession s sym := by
  rcases hr with ⟨day, hrun⟩ | ⟨day, today, s₀, feed, symbols, p, h, hrun, hle, hgap, hfeed, hsteps⟩
  · exact (hrun.inv hweek).whole
  · have hi := hrun.inv hweek
    have hi' : HistoryInv isSession today s₀ := ⟨hi.past.later hle, hi.whole⟩
    exact (Always.steps_inv (J := HistoryInv isSession today)
      (always_refreshBars hi' hweek hgap hfeed symbols) (fun _ _ _ _ hb => hb) hi' hsteps).whole

end

/-! ## A symbol that failed once -/

private def sixtyBars : BarsConfig := ⟨[], 400, 60, by decide⟩

private def opened : Date := dayNumber 2026 9 28

/-- A market that opened on a Monday and has known no holiday since. -/
private def noHolidays (d : Date) : Bool := opened ≤ d && decide (weekday d < 5)

private theorem noHolidays_weekday : ∀ d, noHolidays d = true → weekday d < 5 := fun _ h =>
  of_decide_eq_true (Bool.and_eq_true_iff.mp h).2

private def flatBar (d : Date) : DailyBar := ⟨d, 50, 50, 50, 50⟩

/-- The last sessions, as the broker has them on a day. -/
private def brokerOn (today : Date) : Feed := fun _ n =>
  .ok ((((List.range (today - opened + 1).toNat).map fun i : ℕ => opened + (i : ℤ)).filter fun d =>
    noHolidays d && decide (sessionsBetween noHolidays d today < n)).map flatBar)

private theorem day_of {a t : ℤ} {i : ℕ} (h : i < (t - a + 1).toNat) : a + i ≤ t := by omega

private theorem day_at {a d t : ℤ} (h : a ≤ d) (h' : d ≤ t) :
    (d - a).toNat < (t - a + 1).toNat ∧ a + ((d - a).toNat : ℤ) = d := by omega

private theorem brokerOn_last (today : Date) (sym : String) (n : ℕ) (bars : List DailyBar)
    (h : brokerOn today sym n = .ok bars) : LastSessions noHolidays today n bars := by
  obtain rfl := Except.ok.inj h
  constructor
  · intro b hb
    obtain ⟨d, hd, rfl⟩ := List.mem_map.mp hb
    obtain ⟨hmem, hsd⟩ := List.mem_filter.mp hd
    obtain ⟨i, hi, rfl⟩ := List.mem_map.mp hmem
    obtain ⟨hsession, hlast⟩ := Bool.and_eq_true_iff.mp hsd
    exact ⟨hsession, day_of (List.mem_range.mp hi), of_decide_eq_true hlast⟩
  · intro d hd hsession hlast
    have hopened : opened ≤ d := of_decide_eq_true (Bool.and_eq_true_iff.mp hsession).1
    obtain ⟨hrange, hday⟩ := day_at hopened hd
    have hmem : d ∈ (List.range (today - opened + 1).toNat).map fun i : ℕ => opened + (i : ℤ) :=
      List.mem_map.mpr ⟨_, List.mem_range.mpr hrange, hday⟩
    refine ⟨flatBar d, List.mem_map.mpr ⟨d, List.mem_filter.mpr ⟨hmem, ?_⟩, rfl⟩, rfl⟩
    rw [hsession, decide_eq_true hlast]
    rfl

private def noAnswer : Feed := fun _ _ => .error .error

private def refreshed (feed : Feed) (today : Date) (s : Store) : Store :=
  (runWith (quoting 0 50) (refreshBars sixtyBars feed ["AAA"] today) [] s).store

/-- Fetched on the first session, failed 30 sessions later, fetched again 31
after that. -/
private def afterFailure : Store :=
  refreshed (brokerOn (opened + 85)) (opened + 85)
    (refreshed noAnswer (opened + 42) (refreshed (brokerOn opened) opened
      { openingStore with bars := [] }))

/-- The third run asks for sixty bars, and the session before them is lost. -/
theorem history_hole : ¬ ∀ bcfg isSession s, (∀ d, isSession d = true → weekday d < 5) →
    HistoryReached bcfg isSession (RunGap bcfg isSession) s → ∀ sym, Whole isSession s sym := by
  intro hclaim
  have hany : ∀ q, AnyAnswer q (quoting 0 50 q) := fun _ => trivial
  have hstart : RefreshRun sixtyBars noHolidays (RunGap sixtyBars noHolidays) opened
      { openingStore with bars := [] } := .start rfl
  obtain ⟨_, _, hfirst⟩ := runWith_ends hany
    (refreshBars sixtyBars (brokerOn opened) ["AAA"] opened) [] { openingStore with bars := [] }
  have hgap₀ : sessionsBetween noHolidays opened opened < 60 := by decide
  have hone := hstart.refresh (le_refl _) hgap₀ (brokerOn_last _) hfirst
  obtain ⟨_, _, hsecond⟩ := runWith_ends hany
    (refreshBars sixtyBars noAnswer ["AAA"] (opened + 42)) []
    (refreshed (brokerOn opened) opened { openingStore with bars := [] })
  have hgap : sessionsBetween noHolidays opened (opened + 42) < 60 := by decide +kernel
  have htwo := hone.refresh (by decide) hgap (fun _ _ _ h => by cases h) hsecond
  obtain ⟨_, _, hthird⟩ := runWith_ends hany
    (refreshBars sixtyBars (brokerOn (opened + 85)) ["AAA"] (opened + 85)) []
    (refreshed noAnswer (opened + 42) (refreshed (brokerOn opened) opened
      { openingStore with bars := [] }))
  have hgap' : sessionsBetween noHolidays (opened + 42) (opened + 85) < 60 := by decide +kernel
  have hthree := htwo.refresh (by decide) hgap' (brokerOn_last _) hthird
  have hwhole := hclaim _ _ _ noHolidays_weekday (.inl ⟨_, hthree⟩) "AAA"
  have hfirst : Stored afterFailure.bars "AAA" opened := by decide +kernel
  have hlast : Stored afterFailure.bars "AAA" (opened + 85) := by decide +kernel
  have hlost : ¬ Stored afterFailure.bars "AAA" (opened + 1) := by decide +kernel
  exact hlost (hwhole opened (opened + 1) (opened + 85) hfirst hlast (by decide) (by decide)
    (by decide))

/-- Had the second run's fetch succeeded, nothing would be missing. -/
theorem history_whole_fetched :
    Whole noHolidays (refreshed (brokerOn (opened + 42)) (opened + 42)
      (refreshed (brokerOn opened) opened { openingStore with bars := [] })) "AAA" ∧
    Stored (refreshed (brokerOn (opened + 42)) (opened + 42)
      (refreshed (brokerOn opened) opened { openingStore with bars := [] })).bars "AAA"
        (opened + 1) := by
  have hany : ∀ q, AnyAnswer q (quoting 0 50 q) := fun _ => trivial
  have hstart : RefreshRun sixtyBars noHolidays (SymbolGap sixtyBars noHolidays) opened
      { openingStore with bars := [] } := .start rfl
  obtain ⟨_, _, hfirst⟩ := runWith_ends hany
    (refreshBars sixtyBars (brokerOn opened) ["AAA"] opened) [] { openingStore with bars := [] }
  have hone := hstart.refresh (le_refl _) (fun _ _ _ _ h => by cases h) (brokerOn_last _) hfirst
  obtain ⟨_, _, hsecond⟩ := runWith_ends hany
    (refreshBars sixtyBars (brokerOn (opened + 42)) ["AAA"] (opened + 42)) []
    (refreshed (brokerOn opened) opened { openingStore with bars := [] })
  have hgap : SymbolGap sixtyBars noHolidays opened (opened + 42) (brokerOn (opened + 42))
      (refreshed (brokerOn opened) opened { openingStore with bars := [] }) := by
    intro sym _ newest _ hnewest
    obtain ⟨b, hb, rfl⟩ := barLatest_stored hnewest
    have hdates : ∀ row ∈ (refreshed (brokerOn opened) opened { openingStore with bars := [] }).bars,
        row.2.date = opened := by decide +kernel
    rw [hdates _ hb]
    decide +kernel
  exact ⟨history_whole noHolidays_weekday
    (.inl ⟨_, hone.refresh (by decide) hgap (brokerOn_last _) hsecond⟩) "AAA", by decide +kernel⟩

end TradeDesk.Desk
