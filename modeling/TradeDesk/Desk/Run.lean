import TradeDesk.Async.Pool
import TradeDesk.Desk.Scoring
import TradeDesk.Desk.Watch

/-!
# Runs of the desk

An `Op` is one operation of the desk with what its caller gives it. A
`Run` is a sequential run: operations one after another, each to its end,
be it a value, a refusal or another exception, with whatever answers the
broker and the notifier give. Between two operations the rest of the
engine may rewrite the tables the desk only reads (`World`).

The log keeps, most recent first, each operation with what it asked and
wrote and the stores around it.
-/

namespace TradeDesk.Desk

open TradeDesk.Async

inductive Op where
  | submitCall (now : Instant) (cin : CallIn)
  | extendCall (now : Instant) (callId : ℕ) (target invalidation : String) (horizonDays : ℤ)
      (thesis : String)
  | tightenCall (now : Instant) (callId : ℕ) (invalidation : String)
  | requestExit (now : Instant) (symbol reason : String)
  | postProposals (now : Instant) (window : Option MarketWindow)
  | expireStale (now : Instant)
  | deskWatch (now : Instant) (window : Option MarketWindow)
  | score
deriving DecidableEq, Repr

namespace Op

/-- When the operation ran; scoring reads no clock. -/
def time? : Op → Option Instant
  | submitCall now _ => some now
  | extendCall now _ _ _ _ _ => some now
  | tightenCall now _ _ => some now
  | requestExit now _ _ => some now
  | postProposals now _ => some now
  | expireStale now => some now
  | deskWatch now _ => some now
  | score => none

def prog (cfg : Settings) : Op → DeskM Unit
  | submitCall now cin => do let _ ← Desk.submitCall cfg now cin
  | extendCall now callId target invalidation horizonDays thesis => do
    let _ ← Desk.extendCall cfg now callId target invalidation horizonDays thesis
  | tightenCall now callId invalidation => do let _ ← Desk.tightenCall now callId invalidation
  | requestExit now symbol reason => do let _ ← requestExitFor cfg now symbol reason
  | postProposals now window => do let _ ← Desk.postProposals cfg now window
  | expireStale now => do let _ ← expireStaleProposals cfg now
  | deskWatch now window => do let _ ← runDeskWatch cfg now window
  | score => do let _ ← Desk.score

end Op

/-- One operation of a run. -/
structure Entry where
  op : Op
  hist : History
  before : Store
  after : Store

def Entry.time? (e : Entry) : Option Instant := e.op.time?

/-- The rest of the engine at work: bars, the universe, account reads and
pitches change, the desk's own ledgers do not. -/
def World (s s' : Store) : Prop :=
  ∃ bars universeRows accountSnapshots pitches pitchWithdrawals,
    s' = { s with bars, universeRows, accountSnapshots, pitches, pitchWithdrawals }

inductive Run (cfg : Settings) (Adm : ∀ q, Answer q → Prop) (init : Store) :
    List Entry → Store → Prop
  | start : Run cfg Adm init [] init
  | op {log : List Entry} {s : Store} (o : Op) {r : Except Exc Unit} {h : History} {s' : Store} :
      Run cfg Adm init log s → Runs Adm (o.prog cfg) [] s r h s' →
      Run cfg Adm init (⟨o, h, s, s'⟩ :: log) s'
  | world {log : List Entry} {s s' : Store} :
      Run cfg Adm init log s → World s s' → Run cfg Adm init log s'

/-- Every statement of the run is one of these. -/
def EveryWrite (C : Store → Store → Prop) (log : List Entry) : Prop :=
  ∀ e ∈ log, ∀ a b, .wrote a b ∈ e.hist → C a b

/-- At the end of the run, and before and after each of its statements. -/
def Throughout (P : Store → Prop) (log : List Entry) (s : Store) : Prop :=
  P s ∧ EveryWrite (fun a b => P a ∧ P b) log

/-- The stores a run went through, most recent first. -/
def visited (log : List Entry) : List Store := log.flatMap fun e => states e.hist

/-- The desk as anybody may find it: in the middle of an operation, or
before its first step. -/
def Reached (cfg : Settings) (Adm : ∀ q, Answer q → Prop) (init s : Store) : Prop :=
  ∃ log s₀ o p h, Run cfg Adm init log s₀ ∧
    Steps Adm ⟨Op.prog cfg o, [], s₀⟩ ⟨p, h, s⟩

/-- Operations in progress together, on one store. -/
abbrev DeskPool := Pool Op Store Query Answer Exc Unit

abbrev DeskAct := Act Op Store Query Answer Exc Unit

/-- A run of the pool: operations start, take turns, end, and are stopped,
as `C` allows. -/
abbrev DeskTrace (cfg : Settings) (Adm : ∀ q, Answer q → Prop)
    (C : DeskAct → DeskPool → Prop) (init : Store) : List DeskAct → DeskPool → Prop :=
  Trace (Op.prog cfg) Adm World C init

/-- An operation starts only when none is in progress. It may be stopped
anywhere. -/
def OneAtATime : DeskAct → DeskPool → Prop
  | .start _, pool => pool.tasks = []
  | _, _ => True

/-- An empty ledger: no call, no proposal, nothing of the book but its
starting equity, if it has started. -/
structure Fresh (s : Store) : Prop where
  calls : s.calls = []
  tightenings : s.callTightenings = []
  resolutions : ∀ r ∈ s.resolutions, r.kind = .pitch
  proposals : s.proposals = []
  outcomes : s.proposalOutcomes = []
  fills : s.paperFills = []
  marks : s.paperMarks = []
  requests : s.exitRequests = []

/-- The operations ran at nondecreasing times. -/
def Chronological (log : List Entry) : Prop :=
  (log.filterMap Entry.time?).Pairwise fun later earlier => earlier ≤ later

/-- No operation of the run was at a later time than this. -/
def NotAfter (now : Instant) (log : List Entry) : Prop :=
  ∀ e ∈ log, ∀ t, e.time? = some t → t ≤ now

/-- Any answer at all. -/
def AnyAnswer : (q : Query) → Answer q → Prop := fun _ _ => True

section

variable {cfg : Settings} {Adm : ∀ q, Answer q → Prop} {init : Store}

/-- The times before an operation are not after it. -/
theorem Chronological.notAfter {e : Entry} {log : List Entry} (h : Chronological (e :: log))
    {now : Instant} (ht : e.time? = some now) : NotAfter now log := by
  unfold Chronological at h
  rw [List.filterMap_cons_some ht] at h
  intro e' he' t ht'
  exact (List.pairwise_cons.mp h).1 t (List.mem_filterMap.mpr ⟨e', he', ht'⟩)

theorem Chronological.tail {e : Entry} {log : List Entry} (h : Chronological (e :: log)) :
    Chronological log := by
  unfold Chronological at h ⊢
  cases ht : e.time? with
  | none => rwa [List.filterMap_cons_none ht] at h
  | some t =>
    rw [List.filterMap_cons_some ht] at h
    exact (List.pairwise_cons.mp h).2

/-- The times are those of the operations. -/
theorem chronological_of_ops {log : List Entry}
    (h : ((log.map (·.op)).filterMap Op.time?).Pairwise fun later earlier => earlier ≤ later) :
    Chronological log := by
  rw [List.filterMap_map] at h
  exact h

/-- **Induction over runs.** What an empty ledger has, every operation
keeps and the rest of the engine does not touch, holds after every run. -/
theorem Run.induct {I : List Entry → Store → Prop} {log : List Entry} {s : Store}
    (hrun : Run cfg Adm init log s) (hinit : I [] init)
    (hop : ∀ log s o r h s', Run cfg Adm init log s → I log s →
      Runs Adm (o.prog cfg) [] s r h s' → I (⟨o, h, s, s'⟩ :: log) s')
    (hworld : ∀ log s s', I log s → World s s' → I log s') : I log s := by
  induction hrun with
  | start => exact hinit
  | op o hr hruns ih => exact hop _ _ o _ _ _ hr ih hruns
  | world _ hw ih => exact hworld _ _ _ ih hw

end

/-! ## Runs that can be computed -/

section

variable {cfg : Settings} {Adm : ∀ q, Answer q → Prop} {init s : Store} {log : List Entry}

/-- An operation and who answers its questions. -/
abbrev Script := List (Op × ((q : Query) → Answer q))

/-- The store after a script. -/
def Script.play (cfg : Settings) (script : Script) (s : Store) : Store :=
  script.foldl (fun s x => (runWith x.2 (x.1.prog cfg) [] s).store) s

theorem Script.play_run : ∀ {script : Script} {s : Store} {log : List Entry},
    (∀ x ∈ script, ∀ q, Adm q (x.2 q)) → Run cfg Adm init log s →
    ∃ log', Run cfg Adm init log' (script.play cfg s) ∧
      log'.map (·.op) = (script.map Prod.fst).reverse ++ log.map (·.op)
  | [], s, log, _, hrun => ⟨log, hrun, rfl⟩
  | x :: script, s, log, hadm, hrun => by
    obtain ⟨r, h, hruns⟩ := runWith_ends (hadm x List.mem_cons_self) (x.1.prog cfg) [] s
    obtain ⟨log', hrun', hops⟩ := Script.play_run (fun y hy => hadm y (List.mem_cons_of_mem x hy))
      (.op x.1 hrun hruns)
    refine ⟨log', hrun', hops.trans ?_⟩
    simp

/-- One more operation of a run, with the history it leaves. -/
theorem Run.play (hrun : Run cfg Adm init log s) (x : Op × ((q : Query) → Answer q))
    (hx : ∀ q, Adm q (x.2 q)) :
    Run cfg Adm init
      (⟨x.1, (runWith x.2 (x.1.prog cfg) [] s).hist, s, (runWith x.2 (x.1.prog cfg) [] s).store⟩ ::
        log) (runWith x.2 (x.1.prog cfg) [] s).store := by
  obtain ⟨r, hr⟩ := runWith_ended x.2 (x.1.prog cfg) [] s
  have hsteps := runWith_steps hx (x.1.prog cfg) [] s
  refine .op (r := r) x.1 hrun ?_
  unfold Runs
  rwa [← Prog.ended?_some hr]

/-- The end of a run is a state of the desk. -/
theorem Run.reached (hrun : Run cfg Adm init log s) : Reached cfg Adm init s :=
  ⟨log, s, .score, _, _, hrun, .refl⟩

end

/-! ### A desk to run -/

/-- The desk on summer time, under the rules as they are. -/
def deskSettings : Settings where
  rules := rulesYml
  reserve := 900
  etfList := []
  entryWindowStart := clockTime 10 0
  entryWindowEnd := clockTime 15 0
  reactions := .discord none
  et := .fixed (-4 * 60 * minute)
  upper := id
  ln := id
  sqrt := id

/-- An Eastern wall clock from a Monday of September on. -/
def fromMonday (h m : ℤ) : Instant := dayNumber 2026 9 28 * dayLength + clockTime (h + 4) m

/-- A day on which AAA goes nowhere. -/
def quietBar (m d : ℤ) : DailyBar := ⟨dayNumber 2026 m d, 50, 51, 49, 50⟩

/-- A ledger with a book, a universe, fifteen quiet days, and no call. -/
def openingStore : Store where
  calls := []
  callTightenings := []
  resolutions := []
  pitches := []
  pitchWithdrawals := []
  paperBook := some 10000
  bookStartDate := dayNumber 2026 9 28
  proposals := []
  proposalOutcomes := []
  paperFills := []
  paperMarks := []
  exitRequests := []
  bars := (List.range 15).map fun n => ("AAA", quietBar 9 (10 + n))
  universeRows := [⟨dayNumber 2026 9 26, "AAA", 10000000, true⟩]
  accountSnapshots := []

theorem openingStore_fresh : Fresh openingStore :=
  ⟨rfl, rfl, fun _ hr => (by cases hr), rfl, rfl, rfl, rfl, rfl⟩

/-- AAA trades at this price and SPY at 500, nobody reacts, every post goes
through. -/
def quoting (now : Instant) (price : ℚ) : (q : Query) → Answer q
  | .quotes _ => .ok
    [("AAA", ⟨"AAA", price, price, price, now⟩), ("SPY", ⟨"SPY", 500, 500, 500, now⟩)]
  | .optionChain _ _ _ _ => .ok []
  | .reactionUsers _ _ => .reply 200 (.users [])
  | .post _ => true
  | .postMessage _ => some "m1"

theorem quoting_nonNeg {now : Instant} {price : ℚ} (h : 0 ≤ price) :
    ∀ q, NonNegQuotes q (quoting now price q) := by
  intro q
  cases q with
  | quotes symbols =>
    intro e he
    rcases List.mem_cons.mp he with rfl | he
    · exact ⟨h, h, h⟩
    · obtain rfl := List.mem_singleton.mp he
      have hspy : (0 : ℚ) ≤ 500 := by decide +kernel
      exact ⟨hspy, hspy, hspy⟩
  | optionChain | reactionUsers | post | postMessage => trivial

/-- A call on AAA, up from 50. -/
def callUp (invalidation : String) (horizonDays : ℤ) (funding : Funding) : CallIn :=
  ⟨none, "AAA", .up, "thesis", "60", invalidation, horizonDays, 4, "SPY", funding,
    if funding = .none then none else some "50", none, false⟩

/-- An operation at that hour, with AAA at this price. -/
def lineAt (h m : ℤ) (price : ℚ) (op : Instant → Op) : Op × ((q : Query) → Answer q) :=
  (op (fromMonday h m), quoting (fromMonday h m) price)

def submitAt (h m : ℤ) (invalidation : String) (horizonDays : ℤ) (funding : Funding) :
    Op × ((q : Query) → Answer q) :=
  lineAt h m 50 fun now => .submitCall now (callUp invalidation horizonDays funding)

def postAt (h m : ℤ) : Op × ((q : Query) → Answer q) :=
  lineAt h m 50 fun now => .postProposals now none

def watchAt (h m : ℤ) (price : ℚ) : Op × ((q : Query) → Answer q) :=
  lineAt h m price fun now => .deskWatch now none

def tightenAt (h m : ℤ) (callId : ℕ) (invalidation : String) : Op × ((q : Query) → Answer q) :=
  lineAt h m 50 fun now => .tightenCall now callId invalidation

def extendAt (h m : ℤ) (callId : ℕ) (invalidation : String) : Op × ((q : Query) → Answer q) :=
  lineAt h m 50 fun now => .extendCall now callId "60" invalidation 4 "thesis"

def scoreAt (h m : ℤ) : Op × ((q : Query) → Answer q) := lineAt h m 50 fun _ => .score

/-- A call of two sessions on AAA, posted, and filled at 50. -/
def buying : Script := [submitAt 9 50 "47" 2 .shares, postAt 9 51, watchAt 10 15 50]

/-- Two quiet sessions go by. -/
def twoDaysOn (s : Store) : Store :=
  let spy := fun d => ("SPY", { quietBar 9 d with «open» := 500, high := 500, low := 500, close := 500 })
  { s with bars := s.bars ++ [("AAA", quietBar 9 28), ("AAA", quietBar 9 29), spy 28, spy 29] }

theorem twoDaysOn_world {s : Store} : World s (twoDaysOn s) :=
  ⟨_, s.universeRows, s.accountSnapshots, s.pitches, s.pitchWithdrawals, rfl⟩

theorem opening_run : Run deskSettings AnyAnswer openingStore [] openingStore := .start

/-- A script that starts where a run is goes on as a run. -/
theorem Script.goes_on {cfg : Settings} {init s : Store} {log : List Entry} (script : Script)
    (hrun : Run cfg AnyAnswer init log s) : ∃ log', Run cfg AnyAnswer init log' (script.play cfg s) ∧
      log'.map (·.op) = (script.map Prod.fst).reverse ++ log.map (·.op) :=
  Script.play_run (fun _ _ _ => trivial) hrun

end TradeDesk.Desk
