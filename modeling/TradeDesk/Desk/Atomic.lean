import TradeDesk.Desk.Effects

/-!
# A call and its proposal are two transactions

A submission checks everything before it writes anything, so where it is
refused or raises nothing is written. Then it writes its call, and in a
second transaction the proposal of a funded one. Stopped in between, it
leaves a funded call that will never have a proposal, and that counts
against the day's cap and keeps its name and direction taken.

So what a stopped submission leaves is what it found exactly when it had
written nothing yet; and if that is so of whatever is stopped, every
funded call has its one proposal (`submitCall_atomic`).
-/

namespace TradeDesk.Desk

open TradeDesk.Async

variable {cfg : Settings} {op : Op} {Adm : ∀ q, Answer q → Prop} {h : History} {a b s t : Store}
variable {now : Instant} {cin : CallIn} {α : Type}

/-- The calls and the proposals are the same rows. -/
def SameRows (s t : Store) : Prop := t.calls = s.calls ∧ t.proposals = s.proposals

/-- Every funded call but an extension has exactly one proposal. -/
def FundedOnce (s : Store) : Prop :=
  ∀ c ∈ s.calls, c.extendsCallId = none → c.funding ≠ .none →
    (s.proposals.filter fun p => p.callId == c.id).length = 1

/-- One operation at a time, and none is stopped once it has written. -/
def StopsUnwritten : DeskAct → DeskPool → Prop
  | .start _, pool => pool.tasks = []
  | .stop t, _ => ¬ Wrote t.hist
  | _, _ => True

/-! ## One submission -/

/-- The rows a submission adds to. -/
def rows (s : Store) : ℕ := s.calls.length + s.proposals.length

theorem DeskWrite.rows_lt (hdw : DeskWrite cfg (.submitCall now cin) h a b) :
    rows a < rows b := by
  cases hdw with
  | call c _ =>
    unfold rows Store.addCall
    simp only [List.length_append, List.length_singleton]
    omega
  | proposal c plan _ _ _ =>
    unfold rows Store.addProposal
    simp only [List.length_append, List.length_singleton]
    omega
  | dropped p o hmay => cases hmay

/-- A submission has changed the rows exactly if it has written. -/
theorem submitCall_sameRows (hs : Sound s) {prog : DeskM Unit}
    (hsteps : Steps Adm ⟨(Op.submitCall now cin).prog cfg, [], s⟩ ⟨prog, h, t⟩) :
    SameRows s t ↔ ¬ Wrote h := by
  constructor
  · intro hsame hw
    have hspec : Always Adm (DeskWrite cfg (.submitCall now cin)) (fun _ _ s' => Sound s')
        ((Op.submitCall now cin).prog cfg) [] s := (Op.submitCall now cin).spec hs
    have hlt : rows s < rows t := hspec.grows (fun _ _ _ => DeskWrite.rows_lt) hsteps hw
    unfold rows at hlt
    rw [hsame.1, hsame.2] at hlt
    exact lt_irrefl _ hlt
  · intro hw
    obtain rfl : t = s := hsteps.unwritten hw
    exact ⟨rfl, rfl⟩

/-- A submission that ends says what it left. -/
theorem submitCall_ends (hs : Sound s) : Always Adm (DeskWrite cfg (.submitCall now cin))
    (SubmitEnd s) ((Op.submitCall now cin).prog cfg) [] s := by
  refine (submitCall_spec hs).bind (fun x _ s' hr => ?_) fun e _ s' hr => ?_
  · obtain ⟨hsound, hsub⟩ := hr
    refine ⟨hsound, ?_⟩
    cases hsub with
    | unfunded x c hext hfund => exact .unfunded () c hext hfund
    | funded x c t plan hext hfund => exact .funded () c t plan hext hfund
  · obtain ⟨hsound, hsub⟩ := hr
    cases hsub
    exact ⟨hsound, .refused e⟩

/-! ## Runs -/

/-- A new call has no proposal. -/
theorem WF.proposals_new (hs : WF s) :
    s.proposals.filter (fun p => p.callId == nextId (s.calls.map (·.id))) = [] := by
  rw [List.filter_eq_nil_iff]
  intro p hp hid
  obtain ⟨c, hc, hcid, _⟩ := hs.proposalCall p hp
  exact nextId_not_mem _ (List.mem_map.mpr ⟨c, hc, hcid.trans (beq_iff_eq.mp hid)⟩)

theorem callId_ne_new {c : Call} (hc : c ∈ s.calls) :
    nextId (s.calls.map (·.id)) ≠ c.id := fun he =>
  nextId_not_mem _ (List.mem_map.mpr ⟨c, hc, he.symm⟩)

/-- A whole submission leaves one proposal a funded call. -/
theorem Submitted.fundedOnce {r : Except Exc α} (hsub : Submitted s r t) (hs : WF s)
    (hf : FundedOnce s) : FundedOnce t := by
  cases hsub with
  | refused e => exact hf
  | unfunded x c hext hfund =>
    intro d hd hnone hne
    rcases List.mem_append.mp hd with hd | hd
    · exact hf d hd hnone hne
    · rw [List.mem_singleton.mp hd] at hne
      exact absurd hfund hne
  | funded x c now plan hext hfund =>
    intro d hd hnone hne
    rw [addProposal_proposals, List.filter_append, List.length_append]
    rcases List.mem_append.mp hd with hd | hd
    · rw [List.filter_cons_of_neg (by simpa [insertedProposal] using callId_ne_new hd),
        List.filter_nil]
      exact hf d hd hnone hne
    · rw [List.mem_singleton.mp hd, List.filter_cons_of_pos (by simp [insertedProposal]),
        List.filter_nil]
      exact congrArg (fun l => List.length l + 1) hs.proposals_new

/-- No other operation touches which call a proposal is of. -/
theorem DeskWrite.fundedOnce (hdw : DeskWrite cfg op h a b)
    (hop : ∀ now cin, op ≠ .submitCall now cin) (hf : FundedOnce a) : FundedOnce b := by
  cases hdw with
  | call | proposal => exact absurd rfl (hop _ _)
  | extension old t i last spy bench =>
    intro d hd hnone hne
    rcases List.mem_append.mp hd with hd | hd
    · exact hf d hd hnone hne
    · rw [List.mem_singleton.mp hd] at hnone
      cases hnone
  | posted p veto mid _ _ _ _ =>
    intro d hd hnone hne
    rw [stampPosted_proposals, List.filter_map, List.length_map]
    have hsame : ∀ t e, (fun p : Proposal => p.callId == d.id) ∘ stamp p.id t e (some mid) =
        fun p => p.callId == d.id := fun t e =>
      funext fun q => congrArg (· == d.id) (stamp_same (·.callId) (fun _ _ _ _ => rfl) q)
    rw [hsame]
    exact hf d hd hnone hne
  | tighten | exitRequest | dropped | buy | filled | mark | sell | exitDone | resolve => exact hf

/-- Every operation run to its end keeps one proposal a funded call. -/
theorem Op.fundedOnce {o : Op} (hs : Sound s) (hf : FundedOnce s) {r : Except Exc Unit}
    (hruns : Runs Adm (o.prog cfg) [] s r h t) : Sound t ∧ FundedOnce t := by
  by_cases hsubmit : ∃ now cin, o = .submitCall now cin
  · obtain ⟨now, cin, rfl⟩ := hsubmit
    obtain ⟨hsound, hsub⟩ := (submitCall_ends hs).runs hruns
    exact ⟨hsound, hsub.fundedOnce hs.wf hf⟩
  · have hother : ∀ now cin, o ≠ .submitCall now cin := fun now cin he =>
      hsubmit ⟨now, cin, he⟩
    exact (Op.keeping hs hf fun _ _ _ _ _ ha hdw => hdw.fundedOnce hother ha).runs hruns

/-- Where a funded submission is after `n` steps. -/
def submittingFor (n : ℕ) : Config Store Query Answer Exc Unit :=
  advance (submitAt 9 50 "47" 2 .shares).2 n
    ⟨(submitAt 9 50 "47" 2 .shares).1.prog deskSettings, [], openingStore⟩

theorem submittingFor_steps (n : ℕ) : Steps AnyAnswer
    ⟨(submitAt 9 50 "47" 2 .shares).1.prog deskSettings, [], openingStore⟩ (submittingFor n) :=
  advance_steps (fun _ => trivial) n _

end TradeDesk.Desk
