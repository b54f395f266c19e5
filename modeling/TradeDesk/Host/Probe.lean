import TradeDesk.Clock
import TradeDesk.Money
import Mathlib.Data.List.Induction

/-!
# The host probe

`host/healthprobe.py`: every two minutes it reads the engine's `/health`,
makes a text of what is wrong, and posts it unless the same text was posted
in the last half hour. What was posted last is in a state file, as a digest
and a time.

The file is written before the post is sent. So it says that a text was
posted when the post may have failed, and for half an hour the text is kept
back; a run is only safe if whatever the probe writes down it also delivers
(`Safe`).

`sha256`, the format of a decimal and Eastern time are parameters. What the
probe prints for its own log is left out, and a time is in microseconds.
-/

namespace TradeDesk.Host

/-! ## What `/health` answers -/

/-- What Python takes for a number: JSON's `Infinity` and `NaN` are, and so is
a Boolean. -/
inductive Number where
  | finite (q : ℚ)
  | infinity (negative : Bool)
  | nan
deriving DecidableEq

/-- A value under a key, as far as the rules tell values apart. -/
inductive HealthValue where
  | absent
  | bool (b : Bool)
  | number (x : Number)
  | other
deriving DecidableEq

/-- `isinstance(value, (int, float))`, and the number it is. -/
def HealthValue.number? : HealthValue → Option Number
  | .bool b => some (.finite (if b then 1 else 0))
  | .number x => some x
  | .absent => none
  | .other => none

namespace Number

/-- `x <= bound`. -/
def le (x : Number) (bound : ℚ) : Bool :=
  match x with
  | .finite q => q ≤ bound
  | .infinity negative => negative
  | .nan => false

/-- `x > bound`. -/
def gt (x : Number) (bound : ℚ) : Bool :=
  match x with
  | .finite q => bound < q
  | .infinity negative => !negative
  | .nan => false

/-- `f"{int(x)}"`: there is none of an infinity. -/
def intText : Number → Option String
  | .finite q => some (toString (truncInt q))
  | .infinity _ => none
  | .nan => none

/-- `f"{x:.1f}"`: a whole number too large for a float has none. -/
def oneDecimalText (oneDecimal : ℚ → String) : Number → Option String
  | .finite q => if |q| < 2 ^ 1024 - 2 ^ 970 then some (oneDecimal q) else none
  | .infinity negative => some (if negative then "-inf" else "inf")
  | .nan => some "nan"

end Number

/-- The body: a missing key is absent, and the action is as an f-string prints
it. -/
structure Health where
  ok : HealthValue
  action : String
  tokenDaysUntilDead : HealthValue
  lastBrokerReadAgeS : HealthValue
  positionsWithoutStop : HealthValue
  openAlerts : HealthValue
  pendingApprovalAgeS : HealthValue
  runnerOk : HealthValue
  dbOk : HealthValue

/-! ## The rules -/

def tokenDaysCritical : ℚ := 2
def brokerReadStaleS : ℚ := 1200
def approvalPendingS : ℚ := 600

/-- Thirty minutes. -/
def dedupeWindow : ℤ := 30 * minute

/-- The zone, and what Python computes of a text and of a number. -/
structure ProbeTexts where
  et : Zone
  oneDecimal : ℚ → String
  sha256 : String → String

/-- `_in_regular_hours`. -/
def inRegularHours (et : Zone) (now : Instant) : Bool :=
  weekday (et.date now) < 5 && clockTime 9 30 ≤ et.time now && et.time now < clockTime 16 0

/-- A rule on a number: a message of it when it is over a bound. -/
def overBound (value : HealthValue) (bound : ℚ) (message : String → String) :
    Option (List String) :=
  match value.number? with
  | some x => if x.gt bound then x.intText.map fun text => [message text] else some []
  | none => some []

/-- The rule on the token's days. -/
def tokenRule (texts : ProbeTexts) (h : Health) : Option (List String) :=
  match h.tokenDaysUntilDead.number? with
  | some days =>
    if days.le tokenDaysCritical then (days.oneDecimalText texts.oneDecimal).map fun text =>
      ["token dies in " ++ text ++ " days — " ++ h.action]
    else some []
  | none => some []

/-- The rule on the last broker read: no age is no read at all. -/
def brokerReadRule (texts : ProbeTexts) (h : Health) (now : Instant) : Option (List String) :=
  match h.lastBrokerReadAgeS.number? with
  | some age =>
    if age.gt brokerReadStaleS && inRegularHours texts.et now then age.intText.map fun text =>
      ["no broker read for " ++ text ++ "s during regular hours"]
    else some []
  | none =>
    if inRegularHours texts.et now then some ["no successful broker read yet during regular hours"]
    else some []

/-- `evaluate`: nothing where it raises. -/
def evaluate (texts : ProbeTexts) (health : Option Health) (now : Instant) :
    Option (List String) :=
  match health with
  | none => some ["engine unreachable: /health did not answer"]
  | some h => do
    let ok := if h.ok = .bool true then []
      else ["engine reports ok=false (action: " ++ h.action ++ ")"]
    let token ← tokenRule texts h
    let read ← brokerReadRule texts h now
    let naked ← overBound h.positionsWithoutStop 0 fun text =>
      text ++ " position(s) without a stop"
    let alerts ← overBound h.openAlerts 0 fun text => text ++ " open alert(s)"
    let pending ← overBound h.pendingApprovalAgeS approvalPendingS fun text =>
      "approval pending " ++ text ++ "s"
    let runner := if h.runnerOk = .bool false then ["runner not ok"] else []
    let db := if h.dbOk = .bool false then ["db not ok"] else []
    return ok ++ token ++ read ++ naked ++ alerts ++ pending ++ runner ++ db

/-! ## One run -/

/-- What the state file says was posted last. -/
structure ProbeState where
  digest : String
  epoch : Instant
deriving DecidableEq, Repr

/-- How reading the state file goes: it holds what was last written there, if
anything was; it cannot be read, or is not JSON; it holds JSON that is no
object. -/
inductive StateRead where
  | asWritten | trouble | notObject
deriving DecidableEq, Repr

/-- What a run meets. -/
structure ProbeRun where
  now : Instant
  health : Option Health
  read : StateRead
  writes : Bool
  webhook : Option String
  delivers : Bool

/-- How a run ends. -/
inductive ProbeEnd where
  | quiet
  | raised
  | keptBack (joined : String)
  | unset (joined : String)
  | posted (joined : String) (delivered : Bool)
deriving DecidableEq, Repr

variable (texts : ProbeTexts)

/-- `_should_post`, with the state file it leaves: nothing where it raises,
since what is no object has no `get`. -/
def shouldPost (file : Option ProbeState) (run : ProbeRun) (joined : String) :
    Option (Bool × Option ProbeState) :=
  let digest := texts.sha256 joined
  let written := if run.writes then some ⟨digest, run.now⟩ else file
  match run.read, file with
  | .notObject, _ => none
  | .trouble, _ => some (true, written)
  | .asWritten, none => some (true, written)
  | .asWritten, some prior =>
    if prior.digest = digest ∧ run.now - prior.epoch < dedupeWindow then some (false, file)
    else some (true, written)

/-- `_post_webhook`. -/
def postWebhook (run : ProbeRun) (joined : String) : ProbeEnd :=
  match run.webhook with
  | none => .unset joined
  | some webhook => if webhook = "" then .unset joined else .posted joined run.delivers

/-- `main`: whatever raises ends the run and nothing else. -/
def probeMain (file : Option ProbeState) (run : ProbeRun) : Option ProbeState × ProbeEnd :=
  match evaluate texts run.health run.now with
  | none => (file, .raised)
  | some [] => (file, .quiet)
  | some (m :: ms) =>
    let joined := "; ".intercalate (m :: ms)
    match shouldPost texts file run joined with
    | none => (file, .raised)
    | some (false, file) => (file, .keptBack joined)
    | some (true, file) => (file, postWebhook run joined)

/-! ## Runs -/

/-- The state file, and the runs so far with how each ended. -/
structure ProbeLog where
  file : Option ProbeState
  entries : List (ProbeRun × ProbeEnd)

def ProbeLog.step (log : ProbeLog) (run : ProbeRun) : ProbeLog :=
  let r := probeMain texts log.file run
  ⟨r.1, log.entries ++ [(run, r.2)]⟩

/-- Any number of runs on a host without a state file. -/
def probeRuns (runs : List ProbeRun) : ProbeLog := runs.foldl (ProbeLog.step texts) ⟨none, []⟩

/-! ## What is not to be lost -/

variable {texts} {run : ProbeRun} {log : ProbeLog} {entries : List (ProbeRun × ProbeEnd)}
  {e : ProbeRun × ProbeEnd} {joined : String}

/-- The text a run has to report, if it has anything to. -/
def reportOf (texts : ProbeTexts) (run : ProbeRun) : Option String :=
  match evaluate texts run.health run.now with
  | some (m :: ms) => some ("; ".intercalate (m :: ms))
  | _ => none

/-- A run has something to report unless its rules say nothing. -/
def HasProblems (texts : ProbeTexts) (run : ProbeRun) : Prop :=
  evaluate texts run.health run.now ≠ some []

/-- The run sent its post, delivered or not. -/
def ProbeEnd.sent : ProbeEnd → Prop
  | .posted _ _ => True
  | _ => False

/-- A run with problems sent its post, or a run before it delivered the same
text less than half an hour ago. -/
def Heeded (texts : ProbeTexts) (before : List (ProbeRun × ProbeEnd)) (e : ProbeRun × ProbeEnd) :
    Prop :=
  HasProblems texts e.1 → e.2.sent ∨ ∃ joined, reportOf texts e.1 = some joined ∧
    ∃ d ∈ before, d.2 = .posted joined true ∧ d.1.now ≤ e.1.now ∧ e.1.now - d.1.now < dedupeWindow

/-- No run of these lost its alert. -/
def NoneLost (texts : ProbeTexts) (entries : List (ProbeRun × ProbeEnd)) : Prop :=
  ∀ before e after, entries = before ++ e :: after → Heeded texts before e

/-- What a run must meet, after others: the clock was not set back, the rules
can print their figures, the state file is not taken for something else, there
is a webhook, no other text has the digest of this one, and what is written
down is delivered. -/
structure Safe (texts : ProbeTexts) (before : List ProbeRun) (run : ProbeRun) : Prop where
  clock : ∀ r ∈ before, r.now ≤ run.now
  printable : evaluate texts run.health run.now ≠ none
  isObject : run.read ≠ .notObject
  webhook : ∃ url, run.webhook = some url ∧ url ≠ ""
  digest : ∀ r ∈ before, ∀ text, reportOf texts r = some text → ∀ text', reportOf texts run =
    some text' → texts.sha256 text = texts.sha256 text' → text = text'
  delivered : run.writes = true → run.delivers = true

/-- Runs that each meet a condition on the ones before. -/
inductive Probed (ok : List ProbeRun → ProbeRun → Prop) : List ProbeRun → Prop where
  | start : Probed ok []
  | run {runs : List ProbeRun} {run : ProbeRun} : Probed ok runs → ok runs run →
      Probed ok (runs ++ [run])

/-! ## One run more -/

theorem noneLost_append : NoneLost texts (entries ++ [e]) ↔
    NoneLost texts entries ∧ Heeded texts entries e := by
  constructor
  · intro h
    refine ⟨fun before x after heq => h before x (after ++ [e]) ?_, h entries e [] rfl⟩
    rw [heq, List.append_assoc]
    rfl
  · rintro ⟨hold, hlast⟩ before x after heq
    rcases List.eq_nil_or_concat after with rfl | ⟨after', y, rfl⟩
    · obtain ⟨rfl, hx⟩ := List.append_inj' heq rfl
      rw [← List.singleton_inj.mp hx]
      exact hlast
    · have hassoc : before ++ x :: after'.concat y = (before ++ x :: after') ++ [y] := by simp
      exact hold before x after' (List.append_inj' (heq.trans hassoc) rfl).1

/-- **What the state file says was delivered**: its digest is that of a text
that was, when it says. -/
def FileTrue (texts : ProbeTexts) (log : ProbeLog) : Prop :=
  ∀ prior, log.file = some prior → ∃ d ∈ log.entries, ∃ joined, reportOf texts d.1 = some joined ∧
    d.2 = .posted joined true ∧ d.1.now = prior.epoch ∧ texts.sha256 joined = prior.digest

/-- The state file says that the text of this run was posted lately. -/
def SaidLately (texts : ProbeTexts) (file : Option ProbeState) (run : ProbeRun)
    (joined : String) : Prop :=
  run.read = .asWritten ∧ ∃ prior, file = some prior ∧ prior.digest = texts.sha256 joined ∧
    run.now - prior.epoch < dedupeWindow

/-- A run with something to report decides on the state file. -/
theorem probeMain_report {file : Option ProbeState} (hreport : reportOf texts run = some joined) :
    probeMain texts file run = match shouldPost texts file run joined with
      | none => (file, .raised)
      | some (false, file) => (file, .keptBack joined)
      | some (true, file) => (file, postWebhook run joined) := by
  unfold reportOf at hreport
  split at hreport
  next m ms heval =>
    obtain rfl := Option.some.inj hreport
    unfold probeMain
    rw [heval]
  · cases hreport

/-- It keeps the text back if the file says so. -/
theorem probeMain_kept {file : Option ProbeState} (hreport : reportOf texts run = some joined)
    (hsaid : SaidLately texts file run joined) :
    probeMain texts file run = (file, .keptBack joined) := by
  obtain ⟨hread, prior, rfl, hdigest, hwithin⟩ := hsaid
  have hshould : shouldPost texts (some prior) run joined = some (false, some prior) := by
    unfold shouldPost
    rw [hread]
    exact if_pos ⟨hdigest, hwithin⟩
  rw [probeMain_report hreport, hshould]

/-- Otherwise it writes the text down, if it can, and posts it. -/
theorem probeMain_posts {file : Option ProbeState} (hreport : reportOf texts run = some joined)
    (hobject : run.read ≠ .notObject) (hwebhook : ∃ url, run.webhook = some url ∧ url ≠ "")
    (hsaid : ¬ SaidLately texts file run joined) : probeMain texts file run =
      (if run.writes then some ⟨texts.sha256 joined, run.now⟩ else file,
        .posted joined run.delivers) := by
  obtain ⟨url, hurl, hne⟩ := hwebhook
  have hpost : postWebhook run joined = .posted joined run.delivers := by
    unfold postWebhook
    rw [hurl]
    exact if_neg hne
  have hshould : shouldPost texts file run joined =
      some (true, if run.writes then some ⟨texts.sha256 joined, run.now⟩ else file) := by
    unfold shouldPost
    cases hread : run.read with
    | notObject => exact absurd hread hobject
    | trouble => rfl
    | asWritten =>
      cases file with
      | none => rfl
      | some prior => exact if_neg fun h => hsaid ⟨hread, prior, rfl, h.1, h.2⟩
  rw [probeMain_report hreport, hshould, ← hpost]

/-- A run with nothing to report leaves the file. -/
theorem probeMain_quiet {file : Option ProbeState} (h : reportOf texts run = none) :
    (probeMain texts file run).1 = file := by
  unfold reportOf at h
  unfold probeMain
  split at h
  · cases h
  next hnot =>
    cases heval : evaluate texts run.health run.now with
    | none => rfl
    | some msgs => match msgs with
      | [] => rfl
      | m :: ms => exact absurd heval (hnot m ms)

/-- **A safe run** loses nothing, and what it writes down is true. -/
theorem FileTrue.step (hfile : FileTrue texts log) {runs : List ProbeRun}
    (hruns : log.entries.map (·.1) = runs) (hsafe : Safe texts runs run) :
    FileTrue texts (log.step texts run) ∧
      Heeded texts log.entries (run, (probeMain texts log.file run).2) := by
  have hmem : ∀ {d}, d ∈ log.entries → d.1 ∈ runs := fun hd => hruns ▸ List.mem_map_of_mem hd
  have hkeep : (probeMain texts log.file run).1 = log.file → FileTrue texts (log.step texts run) := by
    intro hsame prior hprior
    obtain ⟨d, hd, hspec⟩ := hfile prior (hsame ▸ hprior)
    exact ⟨d, List.mem_append_left _ hd, hspec⟩
  cases hreport : reportOf texts run with
  | none =>
    refine ⟨hkeep (probeMain_quiet hreport), fun hproblems => ?_⟩
    exfalso
    unfold reportOf at hreport
    split at hreport
    · cases hreport
    next hnot =>
      cases heval : evaluate texts run.health run.now with
      | none => exact hsafe.printable heval
      | some msgs => match msgs with
        | [] => exact hproblems heval
        | m :: ms => exact hnot m ms heval
  | some joined =>
    by_cases hsaid : SaidLately texts log.file run joined
    · refine ⟨hkeep (by rw [probeMain_kept hreport hsaid]), fun _ => .inr ⟨joined, hreport, ?_⟩⟩
      obtain ⟨-, prior, hprior, hdigest, hwithin⟩ := hsaid
      obtain ⟨d, hd, text, htext, hend, hnow, hsha⟩ := hfile prior hprior
      have hsame := hsafe.digest d.1 (hmem hd) text htext joined hreport (hsha.trans hdigest)
      refine ⟨d, hd, hsame ▸ hend, hsafe.clock d.1 (hmem hd), ?_⟩
      rw [hnow]
      exact hwithin
    · have hmain := probeMain_posts hreport hsafe.isObject hsafe.webhook hsaid
      refine ⟨?_, fun _ => .inl ?_⟩
      · by_cases hwrites : run.writes = true
        · intro prior hprior
          have hstate : some (ProbeState.mk (texts.sha256 joined) run.now) = some prior := by
            rw [← hprior]
            show _ = (probeMain texts log.file run).1
            rw [hmain]
            exact (if_pos hwrites).symm
          obtain rfl := Option.some.inj hstate
          refine ⟨(run, (probeMain texts log.file run).2),
            List.mem_append_right _ (List.mem_singleton.mpr rfl), joined, hreport, ?_, rfl, rfl⟩
          rw [hmain, hsafe.delivered hwrites]
        · refine hkeep ?_
          rw [hmain]
          exact if_neg hwrites
      · rw [hmain]
        trivial

/-! ## Every run -/

theorem probeRuns_append (runs : List ProbeRun) :
    probeRuns texts (runs ++ [run]) = (probeRuns texts runs).step texts run := by
  unfold probeRuns
  rw [List.foldl_append]
  rfl

theorem probeRuns_runs (runs : List ProbeRun) :
    (probeRuns texts runs).entries.map (·.1) = runs := by
  induction runs using List.reverseRecOn with
  | nil => rfl
  | append_singleton runs run ih =>
    rw [probeRuns_append]
    show List.map (·.1) ((probeRuns texts runs).entries ++
      [(run, (probeMain texts (probeRuns texts runs).file run).2)]) = _
    rw [List.map_append, ih]
    rfl

/-- **No alert is lost** in a run of the probe whose runs are all safe. -/
theorem probe_noneLost (texts : ProbeTexts) (runs : List ProbeRun)
    (h : Probed (Safe texts) runs) : NoneLost texts (probeRuns texts runs).entries := by
  suffices hboth : FileTrue texts (probeRuns texts runs) ∧
      NoneLost texts (probeRuns texts runs).entries from hboth.2
  induction h with
  | start =>
    refine ⟨fun prior hprior => ?_, fun before e after heq => ?_⟩
    · cases hprior
    · exact absurd heq (by simp [probeRuns])
  | @run runs run _ hsafe ih =>
    rw [probeRuns_append]
    obtain ⟨hfile, hheeded⟩ := ih.1.step (probeRuns_runs runs) hsafe
    exact ⟨hfile, noneLost_append.mpr ⟨ih.2, hheeded⟩⟩

/-! ## What is written down and not delivered -/

/-- **What is written down and not delivered is lost** at the next run that has
it to report: the text is kept back, though nobody has seen it. -/
theorem probe_keepsBack {run' : ProbeRun} (hreport : reportOf texts run = some joined)
    (hobject : run.read ≠ .notObject) (hwebhook : ∃ url, run.webhook = some url ∧ url ≠ "")
    (hend : (probeMain texts log.file run).2 = .posted joined false) (hwrites : run.writes = true)
    (hreport' : reportOf texts run' = some joined) (hread : run'.read = .asWritten)
    (hwithin : run'.now - run.now < dedupeWindow)
    (hunseen : ∀ d ∈ log.entries, d.2 = .posted joined true → dedupeWindow ≤ run'.now - d.1.now) :
    ¬ Heeded texts (log.step texts run).entries
      (run', (probeMain texts (log.step texts run).file run').2) := by
  have hfile : (log.step texts run).file = some ⟨texts.sha256 joined, run.now⟩ := by
    show (probeMain texts log.file run).1 = _
    by_cases hsaid : SaidLately texts log.file run joined
    · rw [probeMain_kept hreport hsaid] at hend
      cases hend
    · rw [probeMain_posts hreport hobject hwebhook hsaid]
      exact if_pos hwrites
  have hkept := probeMain_kept hreport' ⟨hread, _, hfile, rfl, hwithin⟩
  have hproblems : HasProblems texts run' := by
    intro hnone
    unfold reportOf at hreport'
    rw [hnone] at hreport'
    cases hreport'
  intro hheeded
  rcases hheeded hproblems with hsent | ⟨text, htext, d, hd, hdelivered, -, hago⟩
  · rw [hkept] at hsent
    exact hsent
  · have hjoined : text = joined := Option.some.inj (htext.symm.trans hreport')
    rw [hjoined] at hdelivered
    rcases List.mem_append.mp hd with hd | hd
    · exact absurd hago (Int.not_lt.mpr (hunseen d hd hdelivered))
    · rw [List.mem_singleton.mp hd, hend] at hdelivered
      cases hdelivered

/-! ## An engine that does not answer -/

/-- The real digest of the one text in play. -/
private def silentTexts : ProbeTexts where
  et := Zone.fixed 0
  oneDecimal _ := "0.0"
  sha256 _ := "11cf0a387bf74316040fb81659dbd10d5971e3605d72e25acee84bdc217cbedc"

private def silentText : String := "engine unreachable: /health did not answer"

/-- The probe finds the engine silent, some seconds in. -/
private def silentEngine (seconds : ℤ) (delivers : Bool) : ProbeRun :=
  ⟨seconds * second, none, .asWritten, true, some "https://discord.test/hook", delivers⟩

/-- Two minutes after a failed post the alert is not sent again. -/
theorem probe_loses : ¬ ∀ texts runs, NoneLost texts (probeRuns texts runs).entries := by
  intro h
  have hheeded := h silentTexts [silentEngine 0 false, silentEngine 120 true]
    [(silentEngine 0 false, .posted silentText false)] _ [] rfl
  have hlost := @probe_keepsBack silentTexts (silentEngine 0 false) ⟨none, []⟩ silentText
    (silentEngine 120 true) rfl (by decide) ⟨_, rfl, by decide⟩ rfl rfl rfl rfl (by decide)
    (fun d hd => by cases hd)
  exact hlost hheeded

private theorem silentEngine_safe {before : List ProbeRun} {seconds : ℤ}
    (h : ∀ r ∈ before, ∃ s ≤ seconds, r = silentEngine s true) :
    Safe silentTexts before (silentEngine seconds true) where
  clock r hr := by
    obtain ⟨s, hs, rfl⟩ := h r hr
    exact Int.mul_le_mul_of_nonneg_right hs (by decide)
  printable hnone := by cases hnone
  isObject h := by cases h
  webhook := ⟨_, rfl, by decide⟩
  digest r hr text htext text' htext' _ := by
    obtain ⟨s, -, rfl⟩ := h r hr
    exact Option.some.inj (htext.symm.trans htext')
  delivered _ := rfl

/-- Two minutes after a delivered one it is kept back, and was seen. -/
theorem probe_noneLost_delivered : NoneLost silentTexts
    (probeRuns silentTexts [silentEngine 0 true, silentEngine 120 true]).entries := by
  refine probe_noneLost _ _ (.run (.run .start ?_) ?_)
  · exact silentEngine_safe fun r hr => by cases hr
  · refine silentEngine_safe fun r hr => ⟨0, by decide, ?_⟩
    exact List.mem_singleton.mp hr

end TradeDesk.Host
