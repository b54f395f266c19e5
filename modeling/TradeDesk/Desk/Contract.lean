import TradeDesk.Desk.Effects
import TradeDesk.Desk.Funded

/-!
# The premium in one contract

The order gate of the live account adds what an order costs to the premium
already held in its contract (`pre-order-check.sh`). `check_book` compares
the order alone with the cap. What a submission does to the premium in its
contract is to add its own cost to it and to leave the equity alone
(`Left.contractPremium`), so the cap holds afterwards exactly if the
contract had room for that cost before.
-/

namespace TradeDesk

/-- The premium paid on open positions in this contract, and the worst case
of the commitments in it. -/
def Store.contractPremium (cfg : Desk.Settings) (s : Store) (osi : String) : ℚ :=
  ((s.openPositions.filter fun x =>
      x.instrument != .shares && Desk.sameOsi cfg x.symbol osi).map fun x =>
        x.entryPrice * x.quantity * mult x.instrument).sum +
    ((s.committed.filter fun p =>
      p.instrument != .shares && Desk.sameOsi cfg p.symbol osi).map (·.worstCase)).sum

namespace Desk

open TradeDesk.Async

variable {cfg : Settings} {Adm : ∀ q, Answer q → Prop} {h h' : History} {s s' : Store}
variable {now : Instant} {cin : CallIn} {out : CallOut} {p : ProposalOut} {osi : String}

/-- The cap of one option position, of the book's equity. -/
def contractCap (cfg : Settings) (s : Store) : Option ℚ :=
  match s.paperBook, cfg.rules.optionSinglePositionPct with
  | some E, .ok pct => some (capDollars pct (s.bookEquity E))
  | _, _ => none

/-- The premium in a contract is within the cap of one option position. -/
def WithinCap (cfg : Settings) (s : Store) (osi : String) : Prop :=
  ∃ cap, contractCap cfg s = some cap ∧ s.contractPremium cfg osi ≤ cap

/-- What this request's order in a contract costs at its limit: its budget is
of the book's equity, and its limit off the ask last quoted. -/
def orderCost (cfg : Settings) (cin : CallIn) (h : History) (s : Store) (osi : String) :
    Option ℚ :=
  match s.paperBook, lastAsk h osi with
  | some E, some ask => (optionCost cfg.rules cin (s.bookEquity E) ask).toOption
  | _, _ => none

/-- The contract has room for the order: with what is in it already, the
order is within the cap. -/
def RoomFor (cfg : Settings) (cin : CallIn) (h : History) (s : Store) (osi : String) : Prop :=
  ∃ cap cost, contractCap cfg s = some cap ∧ orderCost cfg cin h s osi = some cost ∧
    s.contractPremium cfg osi + cost ≤ cap

/-! ## What a submission does to it -/

theorem sameOsi_self (cfg : Settings) (osi : String) : sameOsi cfg osi osi = true :=
  beq_self_eq_true _

/-- The cap is of the equity, and of nothing else in the store. -/
theorem contractCap_of_equity (hbook : s'.paperBook = s.paperBook)
    (heq : ∀ E, s'.bookEquity E = s.bookEquity E) : contractCap cfg s' = contractCap cfg s := by
  have heq : s'.bookEquity = s.bookEquity := funext heq
  unfold contractCap
  rw [hbook, heq]

/-- A new commitment in a contract adds its worst case to the premium there. -/
theorem contractPremium_addProposal {callId : ℕ} {t : Instant} {i : Instrument} {und : String}
    {n : ℤ} {mx : ℚ} {atr : Option ℚ} (hw : WF s) (hi : i ≠ .shares) :
    (s.addProposal callId t i osi und n mx atr).contractPremium cfg osi =
      s.contractPremium cfg osi + mx * n * mult i := by
  have hnew : (i != .shares && sameOsi cfg osi osi) = true := by
    rw [sameOsi_self]
    simpa using hi
  unfold Store.contractPremium
  rw [openPositions_addProposal hw, committed_addProposal hw, List.filter_append,
    List.filter_cons_of_pos (by exact hnew), List.filter_nil, List.map_append, List.sum_append,
    List.map_singleton, List.sum_singleton, ← add_assoc]
  rfl

/-- What a submission funded with an option was, and did to the premium. -/
theorem Left.option (hl : Left cfg now cin s (.ok out) h s') (hw : WF s)
    (hp : out.proposal = some p) (hopt : p.instrument ≠ .shares) :
    ∃ cost, orderCost cfg cin h s p.symbol = some cost ∧
      s'.contractPremium cfg p.symbol = s.contractPremium cfg p.symbol + cost ∧
      contractCap cfg s' = contractCap cfg s ∧
      ∃ cap, contractCap cfg s = some cap ∧ cost ≤ cap := by
  cases hl with
  | unfunded _ c _ hnone =>
    rw [hnone] at hp
    cases hp
  | funded _ c plan book correlated hnew _ _ hfunded hsome =>
    rw [hsome] at hp
    obtain rfl := Option.some.inj hp
    have hwc : WF (s.addCall c) := hw.addCall fun i hi => by rw [hnew] at hi; cases hi
    obtain ⟨E, hE, _, _, hequity⟩ := bookState_ok hfunded.state
    obtain ⟨ask, hask, hcost⟩ := hfunded.option hopt
    have hbang : (plan.instrument != .shares) = true := by simpa using hopt
    obtain ⟨pct, hpct, hle⟩ := (checkBook_caps hfunded.check).2 hbang
    rw [hequity] at hcost hle
    refine ⟨plan.cost, ?_, ?_, ?_, capDollars pct (s.bookEquity E), ?_, hle⟩
    · unfold orderCost
      rw [hE, hask]
      show (optionCost cfg.rules cin (s.bookEquity E) ask).toOption = _
      rw [hcost]
      rfl
    · exact contractPremium_addProposal hwc hopt
    · exact contractCap_of_equity rfl fun E => bookEquity_addProposal hwc
    · unfold contractCap
      rw [hE, hpct]

/-- The first order in a contract is within the cap. -/
theorem withinCap_of_none (hw : WF s)
    (hruns : Runs Adm (submitCall cfg now cin) [] s (.ok out) h s')
    (hp : out.proposal = some p) (hopt : p.instrument ≠ .shares)
    (hnone : s.contractPremium cfg p.symbol = 0) : WithinCap cfg s' p.symbol := by
  obtain ⟨cost, _, hadd, hcap, cap, hsome, hle⟩ :=
    (submitCall_left.runs hruns).option hw hp hopt
  refine ⟨cap, hcap.trans hsome, ?_⟩
  rw [hadd, hnone, zero_add]
  exact hle

/-! ## The same contract twice -/

def sampleOsi : String := "AAA   261120C00050000"

/-- A chain of one contract, asked two dollars for. -/
def quotingOption (now : Instant) : (q : Query) → Answer q
  | .quotes _ => .ok
    [("AAA", ⟨"AAA", 50, 50, 50, now⟩), ("SPY", ⟨"SPY", 500, 500, 500, now⟩),
      (sampleOsi, ⟨sampleOsi, 2, 2, 2, now⟩)]
  | .optionChain _ _ _ _ => .ok [⟨sampleOsi, .call, 2, 2, some (3 / 5), 1000, 40⟩]
  | .reactionUsers _ _ => .reply 200 (.users [])
  | .post _ => true
  | .postMessage _ => some "m1"

/-- The most convinced call on AAA, by that contract. -/
def callByOption : CallIn :=
  ⟨none, "AAA", .up, "thesis", "60", "47", 2, 5, "SPY", .call, none, some sampleOsi, false⟩

def optionAt (h m : ℤ) (op : Instant → Op) : Op × ((q : Query) → Answer q) :=
  (op (fromMonday h m), quotingOption (fromMonday h m))

/-- The contract is bought on Monday, and held when its call has come to its
horizon. -/
def heldToHorizon : Store :=
  Script.play deskSettings [optionAt 18 0 fun _ => .score] (twoDaysOn
    (Script.play deskSettings [optionAt 9 50 fun now => .submitCall now callByOption,
      optionAt 9 51 fun now => .postProposals now none,
      optionAt 10 15 fun now => .deskWatch now none] openingStore))

theorem heldToHorizon_wf : WF heldToHorizon := by
  obtain ⟨_, hbought, _⟩ := Script.goes_on _ opening_run
  obtain ⟨_, hrun, _⟩ := Script.goes_on _ (hbought.world twoDaysOn_world)
  exact (hrun.sound openingStore_fresh.sound).wf

/-- The order of Wednesday morning. -/
def ordering (s : Store) : Config Store Query Answer Exc CallOut :=
  runWith (quotingOption (fromMonday 57 50)) (submitCall deskSettings (fromMonday 57 50) callByOption)
    [] s

def orderedOut (callId id : ℕ) : CallOut :=
  ⟨callId, .pm, 50, some ⟨id, .call, sampleOsi, 4, 21 / 10⟩⟩

theorem ordering_runs (s : Store) (out : CallOut)
    (hout : (ordering s).prog.ended? = some (.ok out)) :
    Runs AnyAnswer (submitCall deskSettings (fromMonday 57 50) callByOption) [] s (.ok out)
      (ordering s).hist (ordering s).store := by
  have hsteps : Steps AnyAnswer _ (ordering s) := runWith_steps (fun _ => trivial) _ [] s
  unfold Runs
  rw [← Prog.ended?_some hout]
  exact hsteps

end Desk

end TradeDesk
