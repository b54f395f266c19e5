import TradeDesk.Jobs.Dispatch

/-!
# What a job's outcome follows from

An attempt asks the runner until it is not busy, at most as often as the
window has room for (`runWithBusyWait_spec`). From this the outcome of an
execution is read off the replies: `missed` if the first attempt met a busy
runner throughout, and otherwise what `classify` makes of the last reply that
was not busy.

One thing does not follow. A retry is let through by its time of day,
`later.time() <= end`, so after a first attempt that goes on until shortly
before midnight the retry starts on the day after, in a window that has long
closed (`follows_iff`).
-/

namespace TradeDesk.Jobs

open TradeDesk.JsonText TradeDesk.Engine

variable {laxInt : Value → Option ℤ} {depth : ℕ} {r : JobRunner} {spec : JobSpec}
  {et clock : Instant} {ignoreWindow : Bool}

/-! ## Attempts -/

/-- The arrival of the reply to the `n`-th try of an attempt, when the first
is asked at `clock` after `call` other calls. -/
def JobRunner.arrival (r : JobRunner) (call : ℕ) (clock : Instant) : ℕ → Instant
  | 0 => clock + (r.replies call).takes
  | n + 1 => r.arrival call clock n + r.busyRetryS + (r.replies (call + (n + 1))).takes

/-- The reply to the `n`-th try. -/
def JobRunner.replyAt (r : JobRunner) (call n : ℕ) : RunnerReply := (r.replies (call + n)).reply

theorem waitOutBusy_spec (call : ℕ) (start : Instant) (tries k : ℕ) :
    ∃ m ≤ tries,
      (r.waitOutBusy tries (call + (k + 1)) (r.arrival call start k)).1 =
        (List.range' (k + 1) m).map (r.replyAt call) ∧
      (∀ i, k < i → i < k + m → (r.replyAt call i).busy = true) ∧
      (m < tries → 0 < m ∧ (r.replyAt call (k + m)).busy = false) ∧
      (r.waitOutBusy tries (call + (k + 1)) (r.arrival call start k)).2 =
        r.arrival call start (k + m) := by
  induction tries generalizing k with
  | zero => exact ⟨0, Nat.le_refl _, rfl, fun i h h' => by omega, fun h => by omega, rfl⟩
  | succ tries ih =>
    have harrival : r.arrival call start k + r.busyRetryS + (r.replies (call + (k + 1))).takes =
        r.arrival call start (k + 1) := rfl
    unfold JobRunner.waitOutBusy
    dsimp only
    rw [harrival]
    by_cases hbusy : (r.replies (call + (k + 1))).reply.busy = true
    · obtain ⟨m, hm, hreplies, hall, hlast, hended⟩ := ih (k + 1)
      rw [if_pos hbusy]
      refine ⟨m + 1, by omega, ?_, fun i hk hi => ?_, fun hlt => ?_, ?_⟩
      · show _ :: (r.waitOutBusy tries (call + (k + 1 + 1)) (r.arrival call start (k + 1))).1 = _
        rw [hreplies]
        rfl
      · by_cases hi' : i = k + 1
        · rw [hi']
          exact hbusy
        · exact hall i (by omega) (by omega)
      · have hm' := hlast (by omega)
        refine ⟨by omega, ?_⟩
        rw [show k + (m + 1) = k + 1 + m by omega]
        exact hm'.2
      · show (r.waitOutBusy tries (call + (k + 1 + 1)) (r.arrival call start (k + 1))).2 = _
        rw [hended, show k + (m + 1) = k + 1 + m by omega]
    · rw [if_neg hbusy]
      refine ⟨1, by omega, rfl, fun i hk hi => by omega, fun _ => ⟨Nat.one_pos, ?_⟩, rfl⟩
      exact Bool.not_eq_true _ ▸ hbusy

/-- What an attempt did: the first `m` replies were busy, and so was the
last only if no try was left. -/
structure Attempted (r : JobRunner) (spec : JobSpec) (et : Instant) (call : ℕ) (clock : Instant)
    (a : Attempt) (m : ℕ) : Prop where
  start : a.start = et
  replies : a.replies = (List.range (m + 1)).map (r.replyAt call)
  ended : a.ended = r.arrival call clock m
  le_tries : m ≤ r.tries spec et
  busy : ∀ i < m, (r.replyAt call i).busy = true
  last : m < r.tries spec et → (r.replyAt call m).busy = false

/-- **An attempt asks until the runner is not busy**, as often as there is
time. -/
theorem runWithBusyWait_spec (spec : JobSpec) (et : Instant) (call : ℕ) (clock : Instant) :
    ∃ m, Attempted r spec et call clock (r.runWithBusyWait spec et call clock) m := by
  unfold JobRunner.runWithBusyWait
  dsimp only
  by_cases hbusy : (r.replies call).reply.busy = true
  · obtain ⟨m, hm, hreplies, hall, hlast, hended⟩ :=
      @waitOutBusy_spec r call clock (r.tries spec et) 0
    rw [if_pos hbusy]
    refine ⟨m, rfl, ?_, ?_, hm, fun i hi => ?_, fun hlt => ?_⟩
    · show _ :: (r.waitOutBusy (r.tries spec et) (call + (0 + 1)) (r.arrival call clock 0)).1 = _
      rw [hreplies, List.range_eq_range', List.range'_succ, List.map_cons]
      rfl
    · show (r.waitOutBusy (r.tries spec et) (call + (0 + 1)) (r.arrival call clock 0)).2 = _
      rw [hended, Nat.zero_add]
    · cases i with
      | zero => exact hbusy
      | succ i => exact hall (i + 1) (by omega) (by omega)
    · rw [← Nat.zero_add m]
      exact (hlast hlt).2
  · rw [if_neg hbusy]
    refine ⟨0, rfl, rfl, rfl, Nat.zero_le _, fun i hi => by omega, fun _ => ?_⟩
    exact Bool.not_eq_true _ ▸ hbusy

theorem Attempted.reply {a : Attempt} {call m : ℕ} (h : Attempted r spec et call clock a m) :
    a.reply = r.replyAt call m := by
  unfold Attempt.reply
  rw [h.replies, List.range_succ, List.map_append, List.map_singleton, List.getLastD_concat]

/-- All of its replies were busy exactly if the last was. -/
theorem Attempted.all_busy {a : Attempt} {call m : ℕ} (h : Attempted r spec et call clock a m) :
    (∀ q ∈ a.replies, q.busy = true) ↔ a.reply.busy = true := by
  rw [h.reply, h.replies]
  constructor
  · intro hall
    exact hall _ (List.mem_map.mpr ⟨m, List.mem_range.mpr (Nat.lt_succ_self m), rfl⟩)
  · intro hlast q hq
    obtain ⟨i, hi, rfl⟩ := List.mem_map.mp hq
    rcases Nat.lt_succ_iff_lt_or_eq.mp (List.mem_range.mp hi) with hlt | rfl
    · exact h.busy i hlt
    · exact hlast

/-! ## Classification -/

/-- A reply that timed out, or says that something went wrong. -/
def Errored (q : RunnerReply) : Prop :=
  q.transportError.isSome = true ∨ q.result.isNone = true ∨
    ∃ res ∈ q.result, res.timedOut = true ∨ res.isError = true

theorem answered_verdict (spec : JobSpec) (v : VerdictInstance) (fromText : Bool) :
    (answered spec v fromText).verdict = .noop ∨ (answered spec v fromText).verdict = .done := by
  unfold answered
  dsimp only
  split
  · exact .inl rfl
  · exact .inr rfl

/-- What the verdict of a reply can be, in the order of the checks. -/
theorem classify_cases {q : RunnerReply} {c : Classified} (hbusy : q.busy = false)
    (h : classify laxInt depth spec q = .ok c) :
    (Errored q ∧ (c.verdict = .failed ∨ c.verdict = .timeout)) ∨
      (¬ Errored q ∧ (c.verdict = .contentFailed ∨ c.verdict = .noop ∨ c.verdict = .done)) := by
  unfold classify at h
  rw [hbusy, if_neg Bool.false_ne_true] at h
  cases herror : q.transportError with
  | some name =>
    rw [herror] at h
    obtain rfl := Except.ok.inj h
    exact .inl ⟨.inl (by rw [herror]; rfl), .inl rfl⟩
  | none =>
    rw [herror] at h
    cases hres : q.result with
    | none =>
      rw [hres] at h
      obtain rfl := Except.ok.inj h
      exact .inl ⟨.inr (.inl (by rw [hres]; rfl)), .inl rfl⟩
    | some res =>
      rw [hres] at h
      dsimp only at h
      split at h
      next htimed =>
        obtain rfl := Except.ok.inj h
        exact .inl ⟨.inr (.inr ⟨res, hres, .inl htimed⟩), .inr rfl⟩
      next htimed =>
        split at h
        next hbad =>
          obtain rfl := Except.ok.inj h
          exact .inl ⟨.inr (.inr ⟨res, hres, .inr hbad⟩), .inl rfl⟩
        next hbad =>
          right
          refine ⟨?_, ?_⟩
          · rintro (h | h | ⟨res', hres', h⟩)
            · rw [herror] at h
              cases h
            · rw [hres] at h
              cases h
            · rw [hres] at hres'
              obtain rfl := Option.some.inj hres'
              exact h.elim htimed hbad
          · split at h
            · split at h
              · cases h
              · obtain rfl := Except.ok.inj h
                exact .inr (answered_verdict _ _ _)
              · obtain rfl := Except.ok.inj h
                exact .inl rfl
            · split at h
              · obtain rfl := Except.ok.inj h
                exact .inl rfl
              · obtain rfl := Except.ok.inj h
                exact .inr (answered_verdict _ _ _)

/-- A reply that timed out, or says that something went wrong, is no
success. -/
theorem classify_errored {q : RunnerReply} (hbusy : q.busy = false) (herrored : Errored q) :
    (classify laxInt depth spec q).map Classified.verdict ≠ .ok .done ∧
      (classify laxInt depth spec q).map Classified.verdict ≠ .ok .noop := by
  cases hc : classify laxInt depth spec q with
  | error f => exact ⟨nofun, nofun⟩
  | ok c =>
    rcases classify_cases hbusy hc with ⟨-, hv | hv⟩ | ⟨hnot, -⟩
    · rw [Except.map, hv]
      exact ⟨nofun, nofun⟩
    · rw [Except.map, hv]
      exact ⟨nofun, nofun⟩
    · exact absurd herrored hnot

theorem classify_ne_missed {q : RunnerReply} {c : Classified} (hbusy : q.busy = false)
    (h : classify laxInt depth spec q = .ok c) : c.verdict ≠ .missed := by
  intro heq
  rcases classify_cases hbusy h with ⟨-, hc | hc⟩ | ⟨-, hc | hc | hc⟩
  all_goals
    rw [heq] at hc
    cases hc

/-! ## Executions -/

def Execution.replies (x : Execution) : List RunnerReply := x.attempts.flatMap Attempt.replies

/-- The last reply that was not busy. -/
def Execution.lastAnswered (x : Execution) : Option RunnerReply :=
  x.replies.reverse.find? fun q => !q.busy

/-- What is returned, or raised. -/
def Execution.verdict (x : Execution) : Except Fault Verdict := x.result.map Prod.fst

/-- What the window's closing time is on the day of an instant. -/
def JobRunner.windowEnd (r : JobRunner) (spec : JobSpec) (et : Instant) : ℤ :=
  wall (r.et.date et) spec.window.2

/-- **The outcome follows the replies.** -/
structure Follows (laxInt : Value → Option ℤ) (depth : ℕ) (r : JobRunner) (spec : JobSpec)
    (et : Instant) (ignoreWindow : Bool) (x : Execution) : Prop where
  missed_iff : x.verdict = .ok .missed ↔ ∀ a ∈ x.attempts.head?, ∀ q ∈ a.replies, q.busy = true
  classified : x.verdict ≠ .ok .missed → ∃ q, x.lastAnswered = some q ∧
    x.verdict = (classify laxInt depth spec q).map Classified.verdict
  once : x.attempts.length ≤ 2
  again : ∀ first second, x.attempts = [first, second] → ∃ c delay,
    classify laxInt depth spec first.reply = .ok c ∧ c.verdict = .failed ∧
      spec.retryFailedAfterS = some delay ∧
      (ignoreWindow = false → easternWall r.et second.start ≤ r.windowEnd spec et) ∧
      ((∀ q ∈ second.replies, q.busy = true) → x.result = .ok (.failed, .retrySkipped c.detail))
  errored : ∀ q ∈ x.lastAnswered, Errored q → x.verdict ≠ .ok .done ∧ x.verdict ≠ .ok .noop
  bounded : ∀ a ∈ x.attempts,
    (a.replies.length : ℚ) ≤ (max 0 (r.timeLeft spec a.start) : ℤ) / r.busyRetryS + 1

theorem Attempted.length_le {a : Attempt} {call m : ℕ} (h : Attempted r spec et call clock a m)
    (hperiod : 0 < r.busyRetryS) :
    (a.replies.length : ℚ) ≤ (max 0 (r.timeLeft spec a.start) : ℤ) / r.busyRetryS + 1 := by
  have hpos : (0 : ℚ) < r.busyRetryS := by exact_mod_cast hperiod
  have hlength : a.replies.length = m + 1 := by
    rw [h.replies, List.length_map, List.length_range]
  have htries : (m : ℤ) * r.busyRetryS ≤ max 0 (r.timeLeft spec a.start) := by
    have hle := h.le_tries
    rw [h.start]
    unfold JobRunner.tries at hle
    rw [Int.fdiv_eq_ediv_of_nonneg _ hperiod.le] at hle
    rcases Int.le_total 0 (r.timeLeft spec et) with hleft | hleft
    · rw [max_eq_right hleft]
      have hdiv : (m : ℤ) ≤ r.timeLeft spec et / r.busyRetryS := by
        have hnonneg := Int.ediv_nonneg hleft hperiod.le
        omega
      exact (Int.le_ediv_iff_mul_le hperiod).mp hdiv
    · have hneg := Int.ediv_nonpos_of_nonpos_of_neg hleft hperiod
      obtain rfl : m = 0 := by omega
      rw [max_eq_left hleft]
      simp
  have hcast : ((m : ℤ) : ℚ) * r.busyRetryS ≤ (max 0 (r.timeLeft spec a.start) : ℤ) := by
    exact_mod_cast htries
  have hdiv := (le_div_iff₀ hpos).mpr hcast
  rw [hlength]
  push_cast at hdiv ⊢
  linarith

/-! ## A retry and midnight -/

/-- The clock on the wall, which is set at two in the morning: from three
until one the next day it moves with time, and it is never set forward by
more than an hour. -/
structure SteadyWall (et : Zone) : Prop where
  time_nonneg : ∀ i, 0 ≤ et.time i
  time_lt : ∀ i, et.time i < dayLength
  steady : ∀ i j, i ≤ j → clockTime 3 0 ≤ et.time i →
    j - i ≤ dayLength - et.time i + clockTime 1 0 → easternWall et j = easternWall et i + (j - i)
  advance_le : ∀ i j, i ≤ j → easternWall et j ≤ easternWall et i + (j - i) + clockTime 1 0

theorem SteadyWall.fixed (offset : ℤ) : SteadyWall (Zone.fixed offset) := by
  have hwall : ∀ i, easternWall (Zone.fixed offset) i = i + offset := by
    intro i
    exact Int.ediv_mul_add_emod _ _
  refine ⟨fun i => Int.emod_nonneg _ (by decide), fun i => Int.emod_lt_of_pos _ (by decide),
    fun i j _ _ _ => ?_, fun i j _ => ?_⟩
  · rw [hwall, hwall]
    omega
  · have hour : (0 : ℤ) ≤ clockTime 1 0 := by decide
    rw [hwall, hwall]
    omega

/-- Only the portfolio manager's run is retried. -/
theorem retried_spec {delay : ℤ} (hspec : spec ∈ jobSpecs)
    (h : spec.retryFailedAfterS = some delay) :
    spec.window.2 = clockTime 10 30 ∧ delay = 900 * second := by
  unfold jobSpecs at hspec
  simp only [List.mem_cons, List.not_mem_nil, or_false] at hspec
  rcases hspec with rfl | rfl | rfl | rfl | rfl | rfl | rfl | rfl
  all_goals first
    | exact ⟨rfl, (Option.some.inj h).symm⟩
    | cases h

theorem window_lt (hspec : spec ∈ jobSpecs) : 0 ≤ spec.window.2 ∧ spec.window.2 < dayLength := by
  unfold jobSpecs at hspec
  simp only [List.mem_cons, List.not_mem_nil, or_false] at hspec
  rcases hspec with rfl | rfl | rfl | rfl | rfl | rfl | rfl | rfl
  all_goals
    constructor
    all_goals decide

/-- The arithmetic of it, on the readings of the clock before and after the
wait of a quarter of an hour. -/
private theorem retry_readings {d t d' t' day : ℤ} (hmono : d ≤ d') (h0 : 0 ≤ t)
    (h1 : t < dayLength) (h0' : 0 ≤ t') (h1' : t' < dayLength)
    (hsteady : clockTime 3 0 ≤ t → wall d' t' = wall d t + (900 * second : ℤ))
    (hadvance : wall d' t' ≤ wall d t + (900 * second : ℤ) + clockTime 1 0)
    (hopen : (t + 900 * second) % dayLength ≤ clockTime 10 30) :
    wall d' t' ≤ wall day (clockTime 10 30) ↔ d' ≤ day := by
  unfold wall dayLength clockTime minute second at *
  constructor
  · intro h
    omega
  · intro h
    -- before three in the morning the clock may be set, but not as far as the window's end
    by_cases hnight : t < (3 * 60 + 0) * (60 * 1000000)
    · omega
    · have hmoved : d' * (24 * 60 * (60 * 1000000)) + t' =
          d * (24 * 60 * (60 * 1000000)) + t + 900 * 1000000 := hsteady (Int.not_lt.mp hnight)
      omega

/-- A retry whose time of day is in the window starts by the window's end
exactly if it does not start on a later day. -/
theorem retry_inWindow_iff {zone : Zone} {failedAt day delay : ℤ} (hzone : SteadyWall zone)
    (hspec : spec ∈ jobSpecs) (hdelay : spec.retryFailedAfterS = some delay)
    (hopen : (zone.time failedAt + delay) % dayLength ≤ spec.window.2) :
    easternWall zone (failedAt + delay) ≤ wall day spec.window.2 ↔
      zone.date (failedAt + delay) ≤ day := by
  obtain ⟨hend, rfl⟩ := retried_spec hspec hdelay
  rw [hend] at hopen ⊢
  have hle : failedAt ≤ failedAt + 900 * second := Int.le_add_of_nonneg_right (by decide)
  have hwait : failedAt + 900 * second - failedAt = 900 * second := add_sub_cancel_left _ _
  refine retry_readings (zone.date_mono hle) (hzone.time_nonneg _) (hzone.time_lt _)
    (hzone.time_nonneg _) (hzone.time_lt _) (fun hday => ?_) ?_ hopen
  · have hshort : (900 * second : ℤ) ≤ clockTime 1 0 := by decide
    have hleft : 0 ≤ (dayLength - zone.time failedAt : ℤ) :=
      Int.sub_nonneg.mpr (hzone.time_lt failedAt).le
    have hmoved := hzone.steady failedAt (failedAt + 900 * second) hle hday
      (by rw [hwait]; exact hshort.trans (Int.le_add_of_nonneg_left hleft))
    rw [hwait] at hmoved
    exact hmoved
  · have hmoved := hzone.advance_le failedAt (failedAt + 900 * second) hle
    rw [hwait] at hmoved
    exact hmoved

/-! ## The outcome -/

theorem Attempted.find_answered {a : Attempt} {call m : ℕ}
    (h : Attempted r spec et call clock a m) :
    a.replies.reverse.find? (fun q => !q.busy) = if a.reply.busy then none else some a.reply := by
  split
  next hbusy =>
    apply List.find?_eq_none.mpr
    intro q hq
    rw [h.all_busy.mpr hbusy q (List.mem_reverse.mp hq)]
    exact Bool.false_ne_true
  next hbusy =>
    rw [Bool.not_eq_true] at hbusy
    have hlast : a.replies.reverse = a.reply :: ((List.range m).map (r.replyAt call)).reverse := by
      rw [h.reply, h.replies, List.range_succ, List.map_append, List.reverse_append]
      rfl
    rw [hlast]
    apply List.find?_cons_of_pos
    rw [hbusy]
    rfl

/-- The retry of a first attempt that failed falls on no later day than the
fire, if its time of day is in the window. -/
def RetriesOnItsDay (laxInt : Value → Option ℤ) (depth : ℕ) (r : JobRunner) (spec : JobSpec)
    (et : Instant) (ignoreWindow : Bool) (clock : Instant) : Prop :=
  ignoreWindow = false → ∀ delay ∈ spec.retryFailedAfterS, ∀ n ≤ r.tries spec et, ∀ c,
    (∀ i < n, (r.replyAt 0 i).busy = true) → (r.replyAt 0 n).busy = false →
    classify laxInt depth spec (r.replyAt 0 n) = .ok c → c.verdict = .failed →
    (r.et.time (r.arrival 0 (clock + r.hookTakes) n) + delay) % dayLength ≤ spec.window.2 →
    r.et.date (r.arrival 0 (clock + r.hookTakes) n + delay) ≤ r.et.date et

theorem Execution.verdict_ok {attempts : List Attempt} {v : Verdict} {d : Detail} :
    (Execution.mk attempts (.ok (v, d))).verdict = .ok v := rfl

/-- An execution of one attempt that was answered. -/
theorem follows_once {first : Attempt} {m : ℕ} {c : Except Fault Classified}
    (hperiod : 0 < r.busyRetryS) (h : Attempted r spec et 0 clock first m)
    (hbusy : first.reply.busy = false) (hc : classify laxInt depth spec first.reply = c) :
    Follows laxInt depth r spec et ignoreWindow
      ⟨[first], c.map fun c => (c.verdict, c.detail)⟩ := by
  have hanswered : (Execution.mk [first] (c.map fun c => (c.verdict, c.detail))).lastAnswered =
      some first.reply := by
    have hfind := h.find_answered
    rw [hbusy, if_neg Bool.false_ne_true] at hfind
    rw [← hfind]
    simp [Execution.lastAnswered, Execution.replies]
  have hverdict : (Execution.mk [first] (c.map fun c => (c.verdict, c.detail))).verdict =
      (classify laxInt depth spec first.reply).map Classified.verdict := by
    rw [hc]
    cases c
    · rfl
    · rfl
  refine ⟨?_, fun _ => ⟨first.reply, hanswered, hverdict⟩, Nat.le_succ _, nofun, ?_, ?_⟩
  · rw [hverdict, hc]
    constructor
    · intro hmissed
      cases c with
      | error f => cases hmissed
      | ok c => exact absurd (Except.ok.inj hmissed) (classify_ne_missed hbusy hc)
    · intro hall
      have hlast := h.all_busy.mp (hall first rfl)
      rw [hbusy] at hlast
      cases hlast
  · intro q hq herrored
    rw [hanswered] at hq
    obtain rfl := Option.some.inj hq
    rw [hverdict]
    exact classify_errored hbusy herrored
  · intro a ha
    obtain rfl := List.mem_singleton.mp ha
    exact h.length_le hperiod

/-- An execution whose first attempt met a busy runner throughout. -/
theorem follows_missed {first : Attempt} {m : ℕ} {d : Detail} (hperiod : 0 < r.busyRetryS)
    (h : Attempted r spec et 0 clock first m) (hbusy : first.reply.busy = true) :
    Follows laxInt depth r spec et ignoreWindow ⟨[first], .ok (.missed, d)⟩ := by
  have hanswered : (Execution.mk [first] (.ok (.missed, d))).lastAnswered = none := by
    have hfind := h.find_answered
    rw [if_pos hbusy] at hfind
    rw [← hfind]
    simp [Execution.lastAnswered, Execution.replies]
  refine ⟨⟨fun _ a ha => ?_, fun _ => rfl⟩, fun hne => absurd rfl hne, Nat.le_succ _, nofun, ?_, ?_⟩
  · obtain rfl := Option.some.inj ha
    exact h.all_busy.mpr hbusy
  · rw [hanswered]
    exact nofun
  · intro a ha
    obtain rfl := List.mem_singleton.mp ha
    exact h.length_le hperiod

/-- What a retry returns or raises is what is made of the last reply that
was not busy. -/
theorem retry_answered {first : Attempt} {m : ℕ} {c : Classified} {delay : ℤ}
    (h : Attempted r spec et 0 clock first m) (hbusy : first.reply.busy = false)
    (hc : classify laxInt depth spec first.reply = .ok c) (hfailed : c.verdict = .failed) :
    ∃ q, (r.retry laxInt depth spec first c.detail delay).lastAnswered = some q ∧ q.busy = false ∧
      (r.retry laxInt depth spec first c.detail delay).verdict =
        (classify laxInt depth spec q).map Classified.verdict := by
  obtain ⟨m', h'⟩ := @runWithBusyWait_spec r spec (first.ended + delay) first.replies.length
    (first.ended + delay)
  have hfind := h.find_answered
  have hfind' := h'.find_answered
  rw [hbusy, if_neg Bool.false_ne_true] at hfind
  have hlast : ∀ x, (Execution.mk [first, r.runWithBusyWait spec (first.ended + delay)
      first.replies.length (first.ended + delay)] x).lastAnswered =
      ((r.runWithBusyWait spec (first.ended + delay) first.replies.length
        (first.ended + delay)).replies.reverse.find? fun q => !q.busy).or (some first.reply) := by
    intro x
    rw [← hfind, ← List.find?_append, ← List.reverse_append]
    simp [Execution.lastAnswered, Execution.replies]
  unfold JobRunner.retry
  dsimp only
  by_cases hsecond : (r.runWithBusyWait spec (first.ended + delay) first.replies.length
    (first.ended + delay)).reply.busy = true
  · rw [if_pos hsecond] at hfind' ⊢
    refine ⟨first.reply, ?_, hbusy, ?_⟩
    · rw [hlast, hfind', Option.none_or]
    · rw [hc, Except.map, hfailed]
      rfl
  · rw [if_neg hsecond] at hfind' ⊢
    refine ⟨_, ?_, Bool.not_eq_true _ ▸ hsecond, ?_⟩
    · split
      · rw [hlast, hfind', Option.some_or]
      · rw [hlast, hfind', Option.some_or]
    · split
      next f herror =>
        rw [herror]
        rfl
      next c' hok =>
        rw [hok]
        rfl

theorem retry_attempts {first : Attempt} {detail : Detail} {delay : ℤ} :
    (r.retry laxInt depth spec first detail delay).attempts = [first,
      r.runWithBusyWait spec (first.ended + delay) first.replies.length (first.ended + delay)] := by
  unfold JobRunner.retry
  dsimp only
  split
  · rfl
  · split
    · rfl
    · rfl

/-- An execution with a retry follows its replies exactly if the retry
starts by the window's end. -/
theorem follows_retry_iff {first : Attempt} {m : ℕ} {c : Classified} {delay : ℤ}
    (hperiod : 0 < r.busyRetryS) (h : Attempted r spec et 0 clock first m)
    (hbusy : first.reply.busy = false) (hc : classify laxInt depth spec first.reply = .ok c)
    (hfailed : c.verdict = .failed) (hdelay : spec.retryFailedAfterS = some delay) :
    Follows laxInt depth r spec et ignoreWindow (r.retry laxInt depth spec first c.detail delay) ↔
      (ignoreWindow = false →
        easternWall r.et (first.ended + delay) ≤ r.windowEnd spec et) := by
  obtain ⟨m', h'⟩ := @runWithBusyWait_spec r spec (first.ended + delay) first.replies.length
    (first.ended + delay)
  obtain ⟨q, hlast, hq, hverdict⟩ := @retry_answered laxInt depth r spec et clock first m c delay
    h hbusy hc hfailed
  have hne : (r.retry laxInt depth spec first c.detail delay).verdict ≠ .ok .missed := by
    rw [hverdict]
    intro hmissed
    cases hcq : classify laxInt depth spec q with
    | error f =>
      rw [hcq] at hmissed
      cases hmissed
    | ok c' =>
      rw [hcq] at hmissed
      exact classify_ne_missed hq hcq (Except.ok.inj hmissed)
  constructor
  · intro hfollows hwindow
    obtain ⟨-, -, -, -, -, hstart, -⟩ := hfollows.again _ _ retry_attempts
    rw [h'.start] at hstart
    exact hstart hwindow
  · intro hstart
    refine ⟨⟨fun hmissed => absurd hmissed hne, fun hall => ?_⟩,
      fun _ => ⟨q, hlast, hverdict⟩, ?_, fun first' second hattempts => ?_, ?_, ?_⟩
    · rw [retry_attempts] at hall
      have hfirst := h.all_busy.mp (hall first rfl)
      rw [hbusy] at hfirst
      cases hfirst
    · rw [retry_attempts]
      exact Nat.le_refl _
    · rw [retry_attempts] at hattempts
      obtain ⟨rfl, hsecond⟩ := List.cons.inj hattempts
      obtain ⟨hsecond, -⟩ := List.cons.inj hsecond
      rw [← hsecond]
      refine ⟨c, delay, hc, hfailed, hdelay, ?_, fun hall => ?_⟩
      · rw [h'.start]
        exact hstart
      · unfold JobRunner.retry
        dsimp only
        rw [if_pos (h'.all_busy.mp hall)]
    · intro q' hq' herrored
      rw [hlast] at hq'
      obtain rfl := Option.some.inj hq'
      rw [hverdict]
      exact classify_errored hq herrored
    · intro a ha
      rw [retry_attempts] at ha
      rcases List.mem_cons.mp ha with rfl | ha
      · exact h.length_le hperiod
      · obtain rfl := List.mem_singleton.mp ha
        exact h'.length_le hperiod

theorem execute_gated {now : Option Instant}
    (h : r.Gated spec (now.getD clock) ignoreWindow) :
    r.execute laxInt depth spec now ignoreWindow clock =
      r.dispatch laxInt depth spec (now.getD clock) ignoreWindow clock := by
  obtain ⟨hconfigured, htoken, hwindow⟩ := h
  obtain ⟨token, htoken⟩ := Option.isSome_iff_exists.mp htoken
  unfold JobRunner.execute
  dsimp only
  rw [hconfigured, htoken, hwindow]
  rfl

/-- **The outcome of a job follows its replies, unless a retry is let past
midnight.** -/
theorem follows_iff (hspec : spec ∈ jobSpecs) (hzone : SteadyWall r.et) (hperiod : 0 < r.busyRetryS)
    {now : Option Instant} (hgated : r.Gated spec (now.getD clock) ignoreWindow) :
    Follows laxInt depth r spec (now.getD clock) ignoreWindow
        (r.execute laxInt depth spec now ignoreWindow clock) ↔
      RetriesOnItsDay laxInt depth r spec (now.getD clock) ignoreWindow clock := by
  rw [execute_gated hgated]
  obtain ⟨m, h⟩ := @runWithBusyWait_spec r spec (now.getD clock) 0 (clock + r.hookTakes)
  unfold JobRunner.dispatch
  dsimp only
  generalize r.runWithBusyWait spec (now.getD clock) 0 (clock + r.hookTakes) = first at h ⊢
  -- the try the condition speaks of is the one the first attempt ended with
  have hsame : ∀ n, n ≤ r.tries spec (now.getD clock) →
      (∀ i < n, (r.replyAt 0 i).busy = true) → (r.replyAt 0 n).busy = false → n = m := by
    intro n hn hall hlast
    rcases lt_trichotomy n m with hlt | heq | hgt
    · rw [h.busy n hlt] at hlast
      cases hlast
    · exact heq
    · have hm := h.last (by omega)
      rw [hall m hgt] at hm
      cases hm
  by_cases hbusy : first.reply.busy = true
  · rw [if_pos hbusy]
    refine iff_of_true (follows_missed hperiod h hbusy) ?_
    intro _ delay _ n hn c hall hlast
    rw [hsame n hn hall hlast, ← h.reply, hbusy] at hlast
    cases hlast
  · rw [if_neg hbusy]
    rw [Bool.not_eq_true] at hbusy
    cases hc : classify laxInt depth spec first.reply with
    | error f =>
      refine iff_of_true (follows_once hperiod h hbusy hc) ?_
      intro _ delay _ n hn c hall hlast hok
      rw [hsame n hn hall hlast, ← h.reply, hc] at hok
      cases hok
    | ok c =>
      dsimp only
      cases hdelay : spec.retryFailedAfterS with
      | none =>
        refine iff_of_true (follows_once hperiod h hbusy hc) ?_
        intro _ delay hsome
        rw [hdelay] at hsome
        cases hsome
      | some delay =>
        dsimp only
        split
        next hretry =>
          obtain ⟨hfailed, hopen⟩ := hretry
          refine (follows_retry_iff hperiod h hbusy hc hfailed hdelay).trans ?_
          unfold JobRunner.retryOpen at hopen
          rw [h.ended] at hopen ⊢
          constructor
          · intro hstart hwindow delay' hsome n hn c' hall hlast hok hfailed' htime
            obtain rfl := Option.some.inj (hdelay.symm.trans hsome)
            obtain rfl := hsame n hn hall hlast
            exact (retry_inWindow_iff hzone hspec hdelay htime).mp (hstart hwindow)
          · intro hday hwindow
            rw [hwindow, Bool.false_or, decide_eq_true_eq] at hopen
            refine (retry_inWindow_iff hzone hspec hdelay hopen).mpr ?_
            exact hday hwindow delay hdelay m h.le_tries c h.busy (h.reply ▸ hbusy)
              (h.reply ▸ hc) hfailed hopen
        next hretry =>
          refine iff_of_true (follows_once hperiod h hbusy hc) ?_
          intro hwindow delay' hsome n hn c' hall hlast hok hfailed htime
          obtain rfl := Option.some.inj (hdelay.symm.trans hsome)
          obtain rfl := hsame n hn hall hlast
          rw [← h.reply, hc] at hok
          obtain rfl := Except.ok.inj hok
          refine absurd ⟨hfailed, ?_⟩ hretry
          unfold JobRunner.retryOpen
          rw [h.ended, decide_eq_true htime, Bool.or_true]

/-- A connection refused. -/
def refused : RunnerReply := ⟨none, some "ConnectError", false⟩

/-- A runner that is busy for some calls, each answered after `takes`, and
then down, in the hours of summer. -/
def busyThenDown (calls : ℕ) (takes : ℤ) : JobRunner where
  et := Zone.fixed (-clockTime 4 0)
  configured := true
  tokenFor _ := some "token"
  busyRetryS := 60 * second
  replies n := if n < calls then ⟨takes, none, none, true⟩ else ⟨0, refused⟩
  hookTakes := 0

/-- A quarter to ten on a Tuesday morning. -/
def pmFire : Instant := wall 20600 (clockTime 13 45)

theorem busyThenDown_gated (calls : ℕ) (takes : ℤ) :
    (busyThenDown calls takes).Gated pmSpec pmFire false :=
  ⟨rfl, rfl, rfl⟩

/-- A runner that is down all morning: the retry is made, and fails too. -/
theorem follows_downAllMorning :
    Follows (fun _ => none) 10 (busyThenDown 0 0) pmSpec pmFire false
      ((busyThenDown 0 0).execute (fun _ => none) 10 pmSpec none false pmFire) := by
  refine (@follows_iff _ 10 (busyThenDown 0 0) pmSpec pmFire false (by simp [jobSpecs])
    (SteadyWall.fixed _) (by decide) none (busyThenDown_gated 0 0)).mpr ?_
  intro _ delay hdelay n _ c hall _ _ _ _
  obtain rfl := Option.some.inj hdelay
  cases n with
  | zero => decide +kernel
  | succ n => cases hall 0 (Nat.succ_pos n)

/-- Forty replies of twenty minutes each, all of them busy, and a refused
connection: the retry starts at midnight. -/
theorem busyThenDown_starts :
    ((busyThenDown 40 (1200 * second)).execute (fun _ => none) 10 pmSpec none false
      pmFire).attempts.map Attempt.start = [pmFire, wall 20601 (clockTime 4 0)] := by
  decide +kernel

/-- Replies that arrive within the job's timeout and a slack do not keep the
retry in its window. -/
theorem execute_retriedNextDay :
    ¬ ∀ (laxInt : Value → Option ℤ) (depth : ℕ) (r : JobRunner) (spec : JobSpec) (slack : ℤ)
      (now : Option Instant) (ignoreWindow : Bool) (clock : Instant), spec ∈ jobSpecs →
      SteadyWall r.et → 0 < r.busyRetryS →
      (∀ n, 0 ≤ (r.replies n).takes ∧ (r.replies n).takes ≤ spec.timeoutS + slack) →
      r.Gated spec (now.getD clock) ignoreWindow →
      Follows laxInt depth r spec (now.getD clock) ignoreWindow
        (r.execute laxInt depth spec now ignoreWindow clock) := by
  intro hclaim
  have hfollows := hclaim (fun _ => none) 10 (busyThenDown 40 (1200 * second)) pmSpec (300 * second)
    none false pmFire (by simp [jobSpecs]) (SteadyWall.fixed _) (by decide)
    (fun n => by
      unfold busyThenDown
      dsimp only
      split
      · decide
      · decide)
    (busyThenDown_gated _ _)
  have hstarts := busyThenDown_starts
  obtain ⟨first, rest, hattempts, -, hrest⟩ := List.map_eq_cons_iff.mp hstarts
  obtain ⟨second, rest, rfl, hsecond, hrest⟩ := List.map_eq_cons_iff.mp hrest
  obtain rfl := List.map_eq_nil_iff.mp hrest
  obtain ⟨-, -, -, -, -, hwindow, -⟩ := hfollows.again first second hattempts
  have hlate := hwindow rfl
  rw [hsecond] at hlate
  exact absurd hlate (by decide +kernel)

end TradeDesk.Jobs
