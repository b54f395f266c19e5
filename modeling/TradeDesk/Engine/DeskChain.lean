import TradeDesk.Engine.Fires

/-!
# The evening chain and the bars it screens on

The evening's analysts run one after another as one job of the engine. Before
the first of them `_bars_stale` looks through the ten newest `bars_refresh`
rows for one of the day and shuts the chain out if that one says `failed` or
`missed`.

A row is written when a run ends, so a refresh that is still going has none;
and a row can say neither that the refresh was done nor that it failed, as
that of a fire which found the lock held. Where there is no row of the day,
or one that settles nothing, the gate is open, and the analysts screen on
whatever bars there are (`analystsFresh_iff`).

What the notifier posts is left out, and so is the count of pitches.
-/

namespace TradeDesk.Engine

/-! ## The chain -/

/-- `DESK_CHAINS`. -/
def deskChain : String → List String
  | "desk_evening" =>
    ["analyst_technical", "analyst_earnings", "analyst_news", "analyst_macro"]
  | "desk_preopen" => ["preopen_news", "preopen_earnings"]
  | _ => []

/-- A row of `bars_refresh` for a date. -/
def JobRun.BarsOf (today : Date) (r : JobRun) : Prop :=
  r.fire.job = "bars_refresh" ∧ r.fire.date = today

instance (today : Date) : DecidablePred (JobRun.BarsOf today) := fun r => by
  unfold JobRun.BarsOf
  infer_instance

/-- The newest row of the date among the ten newest of `bars_refresh`. -/
def newestBars (today : Date) (rows : List JobRun) : Option JobRun :=
  ((rows.filter fun r => r.fire.job = "bars_refresh").reverse.take 10).find? fun r =>
    r.fire.date = today

/-- `_bars_stale`. -/
def barsStale (today : Date) (rows : List JobRun) : Bool :=
  match newestBars today rows with
  | some r => r.verdict = .failed || r.verdict = .missed
  | none => false

/-- One sub-job of a chain: what `_job_claude` returns, or `failed` for what
it raises, the rows that others write before it starts and while it runs, and
its own, unless the store refuses it. -/
structure SubJob where
  before : List JobRun
  during : List JobRun
  verdict : Verdict
  row : Option (ℤ × Instant)

/-- The ledger after a sub-job has run. -/
def SubJob.after (j : SubJob) (job : String) (ledger : List JobRun) : List JobRun :=
  ledger ++ j.before ++ j.during ++
    (j.row.elim [] fun times => [⟨⟨job, times.1⟩, times.2, j.verdict⟩])

/-- The sub-jobs that are started, each with the ledger it finds. -/
def runSubJobs (subJobs : String → SubJob) : List String → List JobRun → List (String × List JobRun)
  | [], _ => []
  | job :: jobs, ledger =>
    (job, ledger ++ (subJobs job).before) ::
      runSubJobs subJobs jobs ((subJobs job).after job ledger)

/-- `FAILED_VERDICTS`. -/
def Verdict.isFailure (v : Verdict) : Bool := v = .contentFailed || v = .failed || v = .timeout

/-- A chain none of whose analysts ran is missed, one all of whose analysts
failed is failed. -/
def chainVerdict (results : List Verdict) : Verdict :=
  let ran := results.filter fun v => !(v = .noop || v = .missed)
  let failed := ran.filter Verdict.isFailure
  if !ran.isEmpty && failed.length = ran.length then .failed
  else if ran.isEmpty then .missed
  else .done

structure ChainRun where
  started : List (String × List JobRun)
  verdict : Verdict

/-- `_job_desk_chain`, for an engine with or without a runner, blind or not,
on a ledger as the gate reads it. -/
def jobDeskChain (hasRunner blind : Bool) (chain : String) (today : Date) (ledger : List JobRun)
    (subJobs : String → SubJob) : ChainRun :=
  if !hasRunner then ⟨[], .noop⟩
  else if blind then ⟨[], .noop⟩
  else if chain = "desk_evening" ∧ barsStale today ledger = true then ⟨[], .noop⟩
  else ⟨runSubJobs subJobs (deskChain chain) ledger,
    chainVerdict ((deskChain chain).map fun job => (subJobs job).verdict)⟩

/-! ## Fresh bars -/

/-- A refresh of the date is recorded as done, and none of the date as failed
or missed after it. -/
def BarsDone (today : Date) (rows : List JobRun) : Prop :=
  ∃ before r after, rows = before ++ r :: after ∧ r.BarsOf today ∧ r.verdict = .done ∧
    ∀ r' ∈ after, r'.BarsOf today → r'.verdict ≠ .failed ∧ r'.verdict ≠ .missed

/-- Each analyst that is started finds fresh bars. -/
def ChainRun.AnalystsFresh (today : Date) (x : ChainRun) : Prop :=
  ∀ s ∈ x.started, BarsDone today s.2

/-- The rows that say whether the refresh of a date was done. -/
def JobRun.Settles (today : Date) (r : JobRun) : Prop :=
  r.BarsOf today ∧ (r.verdict = .done ∨ r.verdict = .failed ∨ r.verdict = .missed)

instance (today : Date) : DecidablePred (JobRun.Settles today) := fun r => by
  unfold JobRun.Settles
  infer_instance

/-- What the newest of them says. -/
def settled (today : Date) (rows : List JobRun) : Option Verdict :=
  (rows.reverse.find? fun r => r.Settles today).map JobRun.verdict

theorem settled_append (today : Date) (rows more : List JobRun) :
    settled today (rows ++ more) = (settled today more).or (settled today rows) := by
  unfold settled
  rw [List.reverse_append, List.find?_append]
  cases more.reverse.find? fun r => decide (r.Settles today) with
  | none => rfl
  | some r => rfl

theorem settled_singleton (today : Date) (r : JobRun) :
    settled today [r] = if r.Settles today then some r.verdict else none := by
  unfold settled
  by_cases h : r.Settles today
  · simp [h]
  · simp [h]

theorem settled_eq_none {today : Date} {rows : List JobRun} :
    settled today rows = none ↔ ∀ r ∈ rows, ¬ r.Settles today := by
  unfold settled
  rw [Option.map_eq_none_iff, List.find?_eq_none]
  simp

/-- A refresh is done exactly if the newest row that settles it says so. -/
theorem barsDone_iff (today : Date) (rows : List JobRun) :
    BarsDone today rows ↔ settled today rows = some .done := by
  constructor
  · rintro ⟨before, r, after, rfl, hbars, hdone, hafter⟩
    induction after using List.reverseRecOn with
    | nil =>
      rw [settled_append, settled_singleton, if_pos ⟨hbars, .inl hdone⟩, hdone, Option.some_or]
    | append_singleton after r' ih =>
      rw [← List.cons_append, ← List.append_assoc, settled_append, settled_singleton]
      have hrest := ih fun q hq => hafter q (List.mem_append_left _ hq)
      split
      next hsettles =>
        have hok := hafter r' (List.mem_append_right _ (List.mem_singleton_self _)) hsettles.1
        rcases hsettles.2 with h | h | h
        · rw [h, Option.some_or]
        · exact absurd h hok.1
        · exact absurd h hok.2
      next => rw [hrest, Option.none_or]
  · intro h
    induction rows using List.reverseRecOn with
    | nil => cases h
    | append_singleton rows r ih =>
      rw [settled_append, settled_singleton] at h
      split at h
      next hsettles =>
        exact ⟨rows, r, [], rfl, hsettles.1, Option.some.inj h, fun _ hr => by cases hr⟩
      next hsettles =>
        obtain ⟨before, q, after, rfl, hbars, hdone, hafter⟩ := ih h
        refine ⟨before, q, after ++ [r], by simp, hbars, hdone, fun q' hq' hbars' => ?_⟩
        rcases List.mem_append.mp hq' with hmem | hmem
        · exact hafter q' hmem hbars'
        · obtain rfl := List.mem_singleton.mp hmem
          exact ⟨fun hv => hsettles ⟨hbars', .inr (.inl hv)⟩,
            fun hv => hsettles ⟨hbars', .inr (.inr hv)⟩⟩

/-! ## The gate -/

/-- The row that the gate goes by settles the refresh, or an older one of the
date does, and says it was done. -/
def GateReads (today : Date) (ledger : List JobRun) : Prop :=
  (∃ r, newestBars today ledger = some r ∧
    (r.verdict = .done ∨ r.verdict = .failed ∨ r.verdict = .missed)) ∨
  settled today ledger = some .done

theorem newestBars_eq_some {today : Date} {rows : List JobRun} {r : JobRun}
    (h : newestBars today rows = some r) :
    rows.reverse.find? (fun r => decide (r.BarsOf today)) = some r := by
  unfold newestBars at h
  have hall : (rows.filter fun r => r.fire.job = "bars_refresh").reverse.find?
      (fun r => r.fire.date = today) = some r := by
    rw [← List.take_append_drop 10 (rows.filter _).reverse, List.find?_append, h, Option.some_or]
  rw [← List.filter_reverse, List.find?_filter] at hall
  rw [← hall]
  congr 1
  funext q
  apply decide_eq_decide.mpr
  rw [decide_eq_true_eq, decide_eq_true_eq]
  rfl

/-- What the gate takes for the verdict of the day is the verdict of the day,
if it is one. -/
theorem settled_of_newest {today : Date} {rows : List JobRun} {r : JobRun}
    (h : newestBars today rows = some r)
    (hverdict : r.verdict = .done ∨ r.verdict = .failed ∨ r.verdict = .missed) :
    settled today rows = some r.verdict := by
  obtain ⟨hbars, newer, older, hrows, hnewer⟩ := List.find?_eq_some_iff_append.mp
    (newestBars_eq_some h)
  have hsettles : rows.reverse.find? (fun r => decide (r.Settles today)) = some r := by
    refine List.find?_eq_some_iff_append.mpr
      ⟨decide_eq_true ⟨of_decide_eq_true hbars, hverdict⟩, newer, older, hrows, fun q hq => ?_⟩
    have hno := hnewer q hq
    rw [Bool.not_eq_true', decide_eq_false_iff_not] at hno ⊢
    exact fun hq => hno hq.1
  unfold settled
  rw [hsettles]
  rfl

/-- Behind an open gate the refresh is done exactly if the gate reads it. -/
theorem gateReads_iff {today : Date} {ledger : List JobRun} (hopen : barsStale today ledger = false) :
    GateReads today ledger ↔ settled today ledger = some .done := by
  constructor
  · rintro (⟨r, hr, hverdict⟩ | h)
    · rw [settled_of_newest hr hverdict]
      unfold barsStale at hopen
      rw [hr] at hopen
      dsimp only at hopen
      rcases hverdict with hv | hv | hv
      · rw [hv]
      · rw [hv] at hopen
        cases hopen
      · rw [hv] at hopen
        cases hopen
    · exact h
  · exact .inr

/-! ## The analysts -/

/-- The rows that others write between the gate and the start of a sub-job. -/
def rowsSince (subJobs : String → SubJob) (earlier : List String) (job : String) : List JobRun :=
  (earlier.flatMap fun j => (subJobs j).before ++ (subJobs j).during) ++ (subJobs job).before

/-- A sub-job's own row says nothing of the refresh. -/
theorem SubJob.settled_after (j : SubJob) {job : String} (hjob : job ≠ "bars_refresh")
    (today : Date) (ledger more : List JobRun) :
    settled today (j.after job ledger ++ more) =
      settled today (ledger ++ (j.before ++ j.during ++ more)) := by
  have hown : settled today (j.row.elim [] fun times => [⟨⟨job, times.1⟩, times.2, j.verdict⟩]) =
      none := by
    rw [settled_eq_none]
    cases j.row with
    | none => exact nofun
    | some times =>
      intro r hr hsettles
      obtain rfl := List.mem_singleton.mp hr
      exact hjob hsettles.1.1
  unfold SubJob.after
  simp only [settled_append, hown, Option.none_or, Option.or_assoc]

/-- Which ledgers the sub-jobs find, as far as the refresh goes. -/
theorem runSubJobs_settled (subJobs : String → SubJob) (today : Date) (p : Option Verdict → Prop)
    (jobs : List String) (hjobs : "bars_refresh" ∉ jobs) (ledger : List JobRun) :
    (∀ s ∈ runSubJobs subJobs jobs ledger, p (settled today s.2)) ↔
      ∀ earlier job later, jobs = earlier ++ job :: later →
        p (settled today (ledger ++ rowsSince subJobs earlier job)) := by
  induction jobs generalizing ledger with
  | nil =>
    refine iff_of_true (fun s hs => by cases hs) fun earlier job later h => ?_
    exact absurd h.symm (by simp)
  | cons job jobs ih =>
    have hne : job ≠ "bars_refresh" := fun h => hjobs (h ▸ List.mem_cons_self)
    have hlater : ∀ earlier j, settled today ((subJobs job).after job ledger ++
        rowsSince subJobs earlier j) =
        settled today (ledger ++ rowsSince subJobs (job :: earlier) j) := by
      intro earlier j
      rw [SubJob.settled_after _ hne]
      simp only [rowsSince, List.flatMap_cons, List.append_assoc]
    unfold runSubJobs
    rw [List.forall_mem_cons, ih (fun h => hjobs (List.mem_cons_of_mem _ h))]
    constructor
    · rintro ⟨hfirst, hrest⟩ earlier j later h
      cases earlier with
      | nil =>
        obtain ⟨rfl, -⟩ := List.cons.inj h
        exact hfirst
      | cons first earlier =>
        obtain ⟨rfl, hjobs'⟩ := List.cons.inj h
        rw [← hlater]
        exact hrest earlier j later hjobs'
    · intro hall
      refine ⟨hall [] job jobs rfl, fun earlier j later h => ?_⟩
      rw [hlater]
      exact hall (job :: earlier) j later (by rw [h]; rfl)

/-- **The evening's analysts screen on fresh bars** exactly if the row that
the gate goes by settles the refresh, or an older one does, and no refresh
fails while they run. -/
theorem analystsFresh_iff (hasRunner blind : Bool) (today : Date) (ledger : List JobRun)
    (subJobs : String → SubJob) :
    (jobDeskChain hasRunner blind "desk_evening" today ledger subJobs).AnalystsFresh today ↔
      (hasRunner = true → blind = false → barsStale today ledger = false →
        ∀ earlier job later, deskChain "desk_evening" = earlier ++ job :: later →
          settled today (rowsSince subJobs earlier job) = some .done ∨
            settled today (rowsSince subJobs earlier job) = none ∧ GateReads today ledger) := by
  unfold jobDeskChain ChainRun.AnalystsFresh
  cases hasRunner with
  | false =>
    refine iff_of_true (fun s hs => by cases hs) fun h => ?_
    cases h
  | true =>
    cases blind with
    | true =>
      refine iff_of_true (fun s hs => by cases hs) fun _ h => ?_
      cases h
    | false =>
      cases hstale : barsStale today ledger with
      | true =>
        refine iff_of_true (fun s hs => by cases hs) fun _ _ h => ?_
        cases h
      | false =>
        simp only [Bool.not_true, Bool.false_eq_true, if_false, and_false, true_imp_iff,
          barsDone_iff]
        rw [runSubJobs_settled subJobs today (· = some .done) _ (by decide) ledger]
        refine forall_congr' fun earlier => forall_congr' fun job => forall_congr' fun later =>
          imp_congr_right fun _ => ?_
        rw [settled_append, gateReads_iff hstale]
        cases settled today (rowsSince subJobs earlier job) with
        | none => simp
        | some v => simp

/-! ## A refresh that takes its time -/

/-- `bars_refresh: at 16:10 weekdays`, `desk_evening: at 16:30 weekdays`. -/
def evenings : Schedule where
  specs := [
    ("bars_refresh", ⟨.weekdays, clockTime 16 10, clockTime 16 10, 0, by decide, by decide,
      by decide⟩),
    ("desk_evening", ⟨.weekdays, clockTime 16 30, clockTime 16 30, 0, by decide, by decide,
      by decide⟩)]
  nodup := by decide

def thursdayBars : Fire := ⟨"bars_refresh", wall thursday (clockTime 16 10)⟩

def thursdayEvening : Fire := ⟨"desk_evening", wall thursday (clockTime 16 30)⟩

/-- The refresh begins at ten past four and is still going when the chain
begins at half past. -/
def slowRefresh : List Act :=
  let now := daylight.combine thursday (clockTime 16 10)
  [.passBegins now fun _ => true, .passEnds fun _ => true, .taskBegins thursdayBars,
    .passBegins (now + 20 * minute) fun _ => true, .passEnds fun _ => true,
    .taskBegins thursdayEvening]

/-- Nobody else writes a row, and each analyst answers. -/
def quietEvening (_ : String) : SubJob := ⟨[], [], .done, none⟩

theorem slowRefresh_played :
    ((State.fresh (some thursday) (daylight.combine thursday (clockTime 16 0))).play evenings
      daylight (fun _ _ => True) slowRefresh).map (fun s => (s.rows, s.tasks)) =
      some ([], [⟨thursdayEvening, .dispatched⟩, ⟨thursdayBars, .dispatched⟩]) := by
  decide +kernel

/-- **Analysts on yesterday's bars**: the chain runs while the refresh does. -/
theorem analystsFresh_slowRefresh :
    ¬ ∀ (sch : Schedule) (et : Zone) (s : State), Run sch et (fun _ _ => True) s →
      ∀ f : Fire, ⟨f, .dispatched⟩ ∈ s.tasks → f.job = "desk_evening" →
      ∀ (hasRunner blind : Bool) (subJobs : String → SubJob),
        (jobDeskChain hasRunner blind f.job f.date s.rows subJobs).AnalystsFresh f.date := by
  intro hclaim
  obtain ⟨s, hs, heq⟩ := Option.map_eq_some_iff.mp slowRefresh_played
  obtain ⟨hrows, htasks⟩ := Prod.mk.inj heq
  have hfresh := hclaim evenings daylight s ((Run.fresh _ _).play hs) thursdayEvening
    (by rw [htasks]; exact List.mem_cons_self) rfl true false quietEvening
    ("analyst_technical", s.rows ++ []) (by rw [hrows]; exact List.mem_cons_self)
  rw [hrows, barsDone_iff] at hfresh
  cases hfresh

end TradeDesk.Engine
