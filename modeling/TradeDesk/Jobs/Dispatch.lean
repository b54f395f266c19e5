import TradeDesk.Engine.Fires
import TradeDesk.Jobs.Verdicts

/-!
# Dispatching a job

`classify` makes a verdict of a runner's reply. `JobRunner.execute` asks the
runner, waits out a busy one until the job's window closes, and after a
failure asks once more if the job has a retry delay and the window is still
open by the clock.

The runner's replies are a sequence, each with the time it takes to arrive.
The clock moves only while the runner is asked, in a sleep, and in the hook
that is called before the first dispatch. What the notifier posts is left
out, and so are the request's own fields and pydantic's list of errors.
-/

namespace TradeDesk.Jobs

open TradeDesk.JsonText TradeDesk.Engine

/-! ## Job specs -/

inductive Role where
  | research | decide
deriving DecidableEq, Repr

def Role.text : Role → String
  | .research => "research"
  | .decide => "decide"

structure JobSpec where
  name : String
  verdict : VerdictModel
  timeoutS : ℤ
  window : TimeOfDay × TimeOfDay
  role : Role
  noopWhen : Option (VerdictInstance → Bool)
  retryFailedAfterS : Option ℤ

def evening (name : String) : JobSpec :=
  ⟨name, .analyst, 1500 * second, (clockTime 16 25, clockTime 20 0), .research, none, none⟩

def preopen (name : String) : JobSpec :=
  ⟨name, .analyst, 600 * second, (clockTime 7 55, clockTime 9 0), .research, none, none⟩

def pmSpec : JobSpec :=
  ⟨"pm", .pm, 900 * second, (clockTime 9 45, clockTime 10 30), .decide, none, some (900 * second)⟩

def middaySpec : JobSpec :=
  ⟨"pm_midday", .midday, 300 * second, (clockTime 12 25, clockTime 13 30), .decide, none, none⟩

/-- `JOB_SPECS`. -/
def jobSpecs : List JobSpec :=
  [evening "analyst_technical", evening "analyst_earnings", evening "analyst_news",
    evening "analyst_macro", preopen "preopen_news", preopen "preopen_earnings", pmSpec, middaySpec]

/-! ## Replies -/

structure RunResultView where
  verdictRaw : Option (List (List ℕ × Value))
  resultText : Option String
  isError : Bool
  subtype : Option String
  denials : ℕ
  durationS : ℚ
  timedOut : Bool

structure RunnerReply where
  result : Option RunResultView
  transportError : Option String
  busy : Bool

/-- `" ".join((text or "").split())[:MAX_TEXT]`. -/
def oneLine (text : Option String) : String :=
  let words := ((text.getD "").toList.splitOnP isSpace).filter fun word => !word.isEmpty
  String.ofList (([' '].intercalate words).take 200)

/-- The ledger's detail. -/
inductive Detail where
  | skipped (why : String)
  | outsideWindow (window : TimeOfDay × TimeOfDay) (atEt : TimeOfDay)
  | error (name : String)
  | timedOut (durationS : ℚ) (budgetS : ℤ)
  | runFailed (subtype : Option String) (denials : ℕ) (text : String)
  | noStructured (text : String)
  | notValid
  | answer (v : VerdictInstance) (fromText : Bool)
  | retried (d first : Detail)
  | retrySkipped (first : Detail)

structure Classified where
  verdict : Verdict
  model : Option VerdictInstance
  detail : Detail

variable (laxInt : Value → Option ℤ) (depth : ℕ)

/-- An answer is a `noop` if the spec says so. -/
def answered (spec : JobSpec) (v : VerdictInstance) (fromText : Bool) : Classified :=
  ⟨if spec.noopWhen.any fun noopWhen => noopWhen v then .noop else .done, some v, .answer v fromText⟩

/-- `_recover_verdict_from_text(..) if res.result_text else None`. -/
def recovered (spec : JobSpec) (res : RunResultView) : Except Fault (Option VerdictInstance) :=
  match res.resultText with
  | none => .ok none
  | some text => if text = "" then .ok none else recoverVerdictFromText laxInt depth spec.verdict text

def classify (spec : JobSpec) (reply : RunnerReply) : Except Fault Classified :=
  if reply.busy then .ok ⟨.noop, none, .skipped "runner busy"⟩
  else match reply.transportError with
  | some name => .ok ⟨.failed, none, .error name⟩
  | none =>
    match reply.result with
    | none => .ok ⟨.failed, none, .error "no result"⟩
    | some res =>
      if res.timedOut then .ok ⟨.timeout, none, .timedOut res.durationS spec.timeoutS⟩
      else if res.isError then
        .ok ⟨.failed, none, .runFailed res.subtype res.denials (oneLine res.resultText)⟩
      else match res.verdictRaw with
      | none =>
        match recovered laxInt depth spec res with
        | .error f => .error f
        | .ok (some v) => .ok (answered spec v true)
        | .ok none => .ok ⟨.contentFailed, none, .noStructured (oneLine res.resultText)⟩
      | some raw =>
        match spec.verdict.validate laxInt (.obj raw) with
        | none => .ok ⟨.contentFailed, none, .notValid⟩
        | some v => .ok (answered spec v false)

/-! ## The runner -/

/-- A reply, and how long it takes. -/
structure Timed where
  takes : ℤ
  reply : RunnerReply

/-- What an execution depends on. `replies n` answers the call after `n`
others; `hookTakes` is the time `on_dispatch` takes. -/
structure JobRunner where
  et : Zone
  configured : Bool
  tokenFor : Role → Option String
  busyRetryS : ℤ
  replies : ℕ → Timed
  hookTakes : ℤ

/-- What one `_run_with_busy_wait` does: the instant its window is judged by,
the replies in their order, and the clock after it. -/
structure Attempt where
  start : Instant
  replies : List RunnerReply
  ended : Instant

/-- What is returned: the last reply. -/
def Attempt.reply (a : Attempt) : RunnerReply := a.replies.getLastD ⟨none, none, true⟩

namespace JobRunner

variable (r : JobRunner)

/-- `end - et`. -/
def timeLeft (spec : JobSpec) (et : Instant) : ℤ := spec.window.2 - r.et.time et

/-- `max(0, int((end - et).total_seconds() // self._busy_retry_s))`. -/
def tries (spec : JobSpec) (et : Instant) : ℕ := ((r.timeLeft spec et).fdiv r.busyRetryS).toNat

/-- `_wait_out_busy`: the replies it gets, and the clock after them. -/
def waitOutBusy : ℕ → ℕ → Instant → List RunnerReply × Instant
  | 0, _, clock => ([], clock)
  | tries + 1, call, clock =>
    let t := r.replies call
    let clock := clock + r.busyRetryS + t.takes
    if t.reply.busy then
      let rest := waitOutBusy tries (call + 1) clock
      (t.reply :: rest.1, rest.2)
    else ([t.reply], clock)

/-- `_run_with_busy_wait`, after `call` other calls. -/
def runWithBusyWait (spec : JobSpec) (et : Instant) (call : ℕ) (clock : Instant) : Attempt :=
  let t := r.replies call
  let clock := clock + t.takes
  if t.reply.busy then
    let rest := r.waitOutBusy (r.tries spec et) (call + 1) clock
    ⟨et, t.reply :: rest.1, rest.2⟩
  else ⟨et, [t.reply], clock⟩

end JobRunner

/-- An execution: its attempts, and what it returns or raises. -/
structure Execution where
  attempts : List Attempt
  result : Except Fault (Verdict × Detail)

namespace JobRunner

variable (r : JobRunner)

/-- `later.time() <= end`, for a run that failed at an instant. -/
def retryOpen (spec : JobSpec) (ignoreWindow : Bool) (failedAt : Instant) (delay : ℤ) : Bool :=
  ignoreWindow || decide ((r.et.time failedAt + delay) % dayLength ≤ spec.window.2)

/-- The retry, and what is made of it. -/
def retry (spec : JobSpec) (first : Attempt) (detail : Detail) (delay : ℤ) : Execution :=
  let retryEt := first.ended + delay
  let second := r.runWithBusyWait spec retryEt first.replies.length retryEt
  if second.reply.busy then ⟨[first, second], .ok (.failed, .retrySkipped detail)⟩
  else match classify laxInt depth spec second.reply with
  | .error f => ⟨[first, second], .error f⟩
  | .ok c => ⟨[first, second], .ok (c.verdict, .retried c.detail detail)⟩

/-- Everything after the gates. -/
def dispatch (spec : JobSpec) (et : Instant) (ignoreWindow : Bool) (clock : Instant) : Execution :=
  let first := r.runWithBusyWait spec et 0 (clock + r.hookTakes)
  if first.reply.busy then ⟨[first], .ok (.missed, .skipped "runner busy past its window")⟩
  else match classify laxInt depth spec first.reply with
  | .error f => ⟨[first], .error f⟩
  | .ok c =>
    match spec.retryFailedAfterS with
    | none => ⟨[first], .ok (c.verdict, c.detail)⟩
    | some delay =>
      if c.verdict = .failed ∧ r.retryOpen spec ignoreWindow first.ended delay = true then
        r.retry laxInt depth spec first c.detail delay
      else ⟨[first], .ok (c.verdict, c.detail)⟩

/-- `not start <= et.time() <= end`, unless the window is ignored. -/
def inWindow (spec : JobSpec) (et : Instant) (ignoreWindow : Bool) : Bool :=
  ignoreWindow || decide (spec.window.1 ≤ r.et.time et ∧ r.et.time et ≤ spec.window.2)

/-- `execute`, with the clock's reading as it is called. -/
def execute (spec : JobSpec) (now : Option Instant) (ignoreWindow : Bool) (clock : Instant) :
    Execution :=
  let et := now.getD clock
  if !r.configured then ⟨[], .ok (.noop, .skipped "no runner configured")⟩
  else match r.tokenFor spec.role with
  | none => ⟨[], .ok (.noop, .skipped ("no mcp " ++ spec.role.text ++ " token"))⟩
  | some _ =>
    if !r.inWindow spec et ignoreWindow then
      ⟨[], .ok (.noop, .outsideWindow spec.window (r.et.time et))⟩
    else r.dispatch laxInt depth spec et ignoreWindow clock

/-- Its gates pass. -/
def Gated (spec : JobSpec) (et : Instant) (ignoreWindow : Bool) : Prop :=
  r.configured = true ∧ (r.tokenFor spec.role).isSome ∧ r.inWindow spec et ignoreWindow = true

end JobRunner

end TradeDesk.Jobs
