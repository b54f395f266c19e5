import TradeDesk.Desk.Run
import Mathlib.Data.List.Nodup

/-!
# The ledger's invariant

What the desk's tables are between any two of its statements. Calls have
distinct ids, and a chain of extensions is one link long: an extension
points at a call that extends nothing, and no call is extended twice. A
proposal is at one place of its `Life`,

    pending ──▶ dropped
       │
       └──▶ filling ──▶ held ──▶ closed

with at most one purchase, of the whole quantity, and at most one sale, of
all that was bought. `filling` is the gap between a fill and the outcome
that closes its proposal; `Sound` adds that no proposal is in it, which is
how every operation finds the ledger and leaves it.

One lemma for each statement of the store says how it moves `WF`.
-/

namespace TradeDesk

namespace Store

variable (s : Store)

def outcome? (proposalId : ℕ) : Option Outcome :=
  (s.proposalOutcomes.find? fun o => o.proposalId == proposalId).map (·.outcome)

theorem hasOutcome_eq (i : ℕ) : s.hasOutcome i = (s.outcome? i).isSome := by
  unfold hasOutcome outcome?
  rw [Option.isSome_map, List.isSome_find?]

/-- The call a chain of extensions is at. -/
def currentCall (callId : ℕ) : ℕ :=
  match s.extension? callId with
  | none => callId
  | some c => c.id

/-! ### The queries after a statement -/

@[simp] theorem buys_addFill (f : PaperFill) (i : ℕ) :
    (s.addFill f).buys i = s.buys i ++ if f.proposalId = i ∧ f.side = .buy then [f] else [] := by
  unfold buys addFill
  rw [List.filter_append]
  congr 1
  by_cases h : f.proposalId = i ∧ f.side = .buy
  · rw [if_pos h, List.filter_cons_of_pos (by simp [h])]
    rfl
  · rw [if_neg h, List.filter_cons_of_neg (by simpa using h)]
    rfl

@[simp] theorem sells_addFill (f : PaperFill) (i : ℕ) :
    (s.addFill f).sells i =
      s.sells i ++ if f.proposalId = i ∧ f.side = .sell then [f] else [] := by
  unfold sells addFill
  rw [List.filter_append]
  congr 1
  by_cases h : f.proposalId = i ∧ f.side = .sell
  · rw [if_pos h, List.filter_cons_of_pos (by simp [h])]
    rfl
  · rw [if_neg h, List.filter_cons_of_neg (by simpa using h)]
    rfl

@[simp] theorem outcome?_addFill (f : PaperFill) (i : ℕ) :
    (s.addFill f).outcome? i = s.outcome? i := rfl

variable {s}

theorem addOutcome_ok {o : ProposalOutcome} {s' : Store} (h : s.addOutcome o = .ok s') :
    s.hasOutcome o.proposalId = false ∧ s' = s.withOutcome o := by
  unfold addOutcome at h
  split at h
  · cases h
  next hno => exact ⟨Bool.eq_false_iff.mpr hno, (Except.ok.inj h).symm⟩

theorem addOutcome_of {o : ProposalOutcome} (h : s.hasOutcome o.proposalId = false) :
    s.addOutcome o = .ok (s.withOutcome o) := by
  unfold addOutcome
  rw [if_neg (by rw [h]; decide)]

theorem outcome?_withOutcome {o : ProposalOutcome} (h : s.hasOutcome o.proposalId = false) (i : ℕ) :
    (s.withOutcome o).outcome? i =
      if o.proposalId = i then some o.outcome else s.outcome? i := by
  unfold outcome? withOutcome
  dsimp only
  rw [List.find?_append]
  by_cases hi : o.proposalId = i
  · subst hi
    have hnone : s.proposalOutcomes.find? (fun x => x.proposalId == o.proposalId) = none := by
      rw [List.find?_eq_none]
      intro x hx
      have := List.any_eq_false.mp h x hx
      simpa using this
    rw [hnone, if_pos rfl]
    simp
  · rw [if_neg hi]
    simp [hi]

theorem mem_stampPosted {pid : ℕ} {t d : Instant} {m : Option String} {p : Proposal} :
    p ∈ (s.stampPosted pid t d m).proposals ↔ ∃ q ∈ s.proposals,
      p = if q.id = pid ∧ q.postedAt = none then
        { q with postedAt := some t, vetoDeadline := some d, messageId := m } else q := by
  unfold stampPosted
  rw [List.mem_map]
  exact exists_congr fun q => and_congr Iff.rfl eq_comm

end Store

namespace Desk

open TradeDesk.Async

/-! ## The life of a proposal -/

inductive Life where
  | pending
  | dropped (o : Outcome)
  | filling (b : PaperFill)
  | held (b : PaperFill)
  | closed (b x : PaperFill)

namespace Life

def buys : Life → List PaperFill
  | pending | dropped _ => []
  | filling b | held b | closed b _ => [b]

def sells : Life → List PaperFill
  | closed _ x => [x]
  | _ => []

def outcome : Life → Option Outcome
  | pending | filling _ => none
  | dropped o => some o
  | held _ | closed _ _ => some .filled

/-- What was bought is what was proposed, what was sold what was bought. -/
def Fits (p : Proposal) : Life → Prop
  | pending => True
  | dropped o => o ≠ .filled
  | filling b | held b => b.quantity = p.quantity
  | closed b x => b.quantity = p.quantity ∧ x.quantity = p.quantity

end Life

/-- The proposal is at this place of its life. -/
structure HasLife (s : Store) (p : Proposal) (l : Life) : Prop where
  buys : s.buys p.id = l.buys
  sells : s.sells p.id = l.sells
  outcome : s.outcome? p.id = l.outcome
  fits : l.Fits p

/-! ## The invariant -/

structure WF (s : Store) : Prop where
  callIds : (s.calls.map (·.id)).Nodup
  /-- An extension continues an original call, on its name and direction. -/
  extensions : ∀ c ∈ s.calls, ∀ i, c.extendsCallId = some i → ∃ old ∈ s.calls,
    old.id = i ∧ old.extendsCallId = none ∧ c.symbol = old.symbol ∧ c.direction = old.direction
  oneExtension : ∀ c ∈ s.calls, ∀ d ∈ s.calls, c.extendsCallId ≠ none →
    c.extendsCallId = d.extendsCallId → c = d
  proposalIds : (s.proposals.map (·.id)).Nodup
  /-- A proposal belongs to an original call; only a down call buys puts. -/
  proposalCall : ∀ p ∈ s.proposals, ∃ c ∈ s.calls, c.id = p.callId ∧ c.extendsCallId = none ∧
    c.symbol = p.underlying ∧ (c.direction = .down ↔ p.instrument = .put)
  outcomeOwner : ∀ o ∈ s.proposalOutcomes, ∃ p ∈ s.proposals, p.id = o.proposalId
  fillOwner : ∀ f ∈ s.paperFills, ∃ p ∈ s.proposals, p.id = f.proposalId
  quantity : ∀ p ∈ s.proposals, 0 < p.quantity
  lives : ∀ p ∈ s.proposals, ∃ l, HasLife s p l

/-- No proposal stands between its fill and its outcome. -/
def Clean (s : Store) : Prop := ∀ p ∈ s.proposals, ∀ b, ¬ HasLife s p (.filling b)

structure Sound (s : Store) : Prop where
  wf : WF s
  clean : Clean s

section

variable {s s' : Store} {p q : Proposal} {l : Life}

theorem WF.proposal_unique (hs : WF s) (hp : p ∈ s.proposals) (hq : q ∈ s.proposals)
    (h : p.id = q.id) : p = q :=
  List.inj_on_of_nodup_map hs.proposalIds hp hq h

theorem WF.call_unique (hs : WF s) {c d : Call} (hc : c ∈ s.calls) (hd : d ∈ s.calls)
    (h : c.id = d.id) : c = d :=
  List.inj_on_of_nodup_map hs.callIds hc hd h

theorem WF.call?_mem (hs : WF s) {c : Call} (hc : c ∈ s.calls) : s.call? c.id = some c := by
  unfold Store.call?
  cases hf : s.calls.find? (fun d => d.id == c.id) with
  | none => exact absurd (List.find?_eq_none.mp hf c hc) (by simp)
  | some d =>
    have hd := List.find?_some hf
    rw [hs.call_unique (List.mem_of_find?_eq_some hf) hc (by simpa using hd)]

theorem call?_some {i : ℕ} {c : Call} (h : s.call? i = some c) : c ∈ s.calls ∧ c.id = i :=
  ⟨List.mem_of_find?_eq_some h, by simpa using List.find?_some h⟩

theorem extension?_some {i : ℕ} {c : Call} (h : s.extension? i = some c) :
    c ∈ s.calls ∧ c.extendsCallId = some i :=
  ⟨List.mem_of_find?_eq_some h, by simpa using List.find?_some h⟩

theorem extension?_none {i : ℕ} (h : s.extension? i = none) {c : Call} (hc : c ∈ s.calls) :
    c.extendsCallId ≠ some i := by
  have := List.find?_eq_none.mp h c hc
  simpa using this

/-- A call that extends another is extended by none. -/
theorem WF.extension?_extension (hs : WF s) {c : Call} {i : ℕ} (hc : c ∈ s.calls)
    (hi : c.extendsCallId = some i) : s.extension? c.id = none := by
  cases hx : s.extension? c.id with
  | none => rfl
  | some d =>
    obtain ⟨hd, hdx⟩ := extension?_some hx
    obtain ⟨old, hold, hid, hnone, _⟩ := hs.extensions d hd c.id hdx
    rw [hs.call_unique hold hc hid, hi] at hnone
    cases hnone

/-- The loop over extensions ends, at the call the chain is at. -/
theorem WF.currentCallId_eval (hs : WF s) (i : ℕ) :
    (currentCallId i).eval s = .ok (s.currentCall i) := by
  unfold currentCallId Store.currentCall
  rw [Reads.eval_read]
  cases hx : s.extension? i with
  | none => rfl
  | some c =>
    obtain ⟨hc, hci⟩ := extension?_some hx
    obtain ⟨n, hn⟩ : ∃ n, s.calls.length = n + 1 :=
      ⟨s.calls.length - 1, by have := List.length_pos_of_mem hc; omega⟩
    dsimp only
    rw [hn, followExtensions, Reads.eval_read, hs.extension?_extension hc hci]
    rfl

/-- The chain of a call that is in the table ends in one that is. -/
theorem WF.currentCall_mem (hs : WF s) {c : Call} (hc : c ∈ s.calls) :
    ∃ d ∈ s.calls, d.id = s.currentCall c.id ∧ d.symbol = c.symbol ∧
      d.direction = c.direction := by
  unfold Store.currentCall
  cases hx : s.extension? c.id with
  | none => exact ⟨c, hc, rfl, rfl, rfl⟩
  | some d =>
    obtain ⟨hd, hdx⟩ := extension?_some hx
    obtain ⟨old, hold, hid, _, hsym, hdir⟩ := hs.extensions d hd c.id hdx
    rw [hs.call_unique hold hc hid] at hsym hdir
    exact ⟨d, hd, rfl, hsym, hdir⟩

/-! ## Reading a life -/

theorem HasLife.of_noOutcome (hs : Sound s) (hp : p ∈ s.proposals)
    (h : s.hasOutcome p.id = false) : HasLife s p .pending := by
  obtain ⟨l, hl⟩ := hs.wf.lives p hp
  rw [s.hasOutcome_eq, hl.outcome] at h
  cases l with
  | pending => exact hl
  | filling b => exact absurd hl (hs.clean p hp b)
  | dropped o => cases h
  | held b => cases h
  | closed b x => cases h

theorem HasLife.hasOutcome (h : HasLife s p l) : s.hasOutcome p.id = l.outcome.isSome := by
  rw [s.hasOutcome_eq, h.outcome]

/-! ## What a statement does to the invariant -/

/-- A row of another proposal leaves a life alone. -/
theorem HasLife.addFill_ne {f : PaperFill} (h : HasLife s q l) (hf : f.proposalId ≠ q.id) :
    HasLife (s.addFill f) q l := by
  refine ⟨?_, ?_, h.outcome, h.fits⟩
  · rw [s.buys_addFill, if_neg (fun hc => hf hc.1), List.append_nil, h.buys]
  · rw [s.sells_addFill, if_neg (fun hc => hf hc.1), List.append_nil, h.sells]

/-- A proposal whose life records no outcome takes one. -/
theorem HasLife.noOutcome {o : ProposalOutcome} (h : HasLife s p l) (hl : l.outcome = none)
    (hp : o.proposalId = p.id) : s.hasOutcome o.proposalId = false := by
  rw [hp, h.hasOutcome, hl]
  rfl

theorem HasLife.withOutcome_ne {o : ProposalOutcome} (h : HasLife s q l)
    (hno : s.hasOutcome o.proposalId = false) (hne : o.proposalId ≠ q.id) :
    HasLife (s.withOutcome o) q l := by
  refine ⟨h.buys, h.sells, ?_, h.fits⟩
  rw [Store.outcome?_withOutcome hno, if_neg hne, h.outcome]

theorem HasLife.fill {f : PaperFill} (h : HasLife s p .pending) (hf : f.proposalId = p.id)
    (hside : f.side = .buy) (hq : f.quantity = p.quantity) :
    HasLife (s.addFill f) p (.filling f) := by
  refine ⟨?_, ?_, h.outcome, hq⟩
  · rw [s.buys_addFill, if_pos ⟨hf, hside⟩, h.buys]
    rfl
  · rw [s.sells_addFill, if_neg (by simp [hside]), List.append_nil, h.sells]
    rfl

theorem HasLife.sell {f b : PaperFill} (h : HasLife s p (.held b)) (hf : f.proposalId = p.id)
    (hside : f.side = .sell) (hq : f.quantity = p.quantity) :
    HasLife (s.addFill f) p (.closed b f) := by
  refine ⟨?_, ?_, h.outcome, h.fits, hq⟩
  · rw [s.buys_addFill, if_neg (by simp [hside]), List.append_nil, h.buys]
    rfl
  · rw [s.sells_addFill, if_pos ⟨hf, hside⟩, h.sells]
    rfl

theorem HasLife.settle {o : ProposalOutcome} {b : PaperFill} (h : HasLife s p (.filling b))
    (hp : o.proposalId = p.id) (hfilled : o.outcome = .filled) :
    HasLife (s.withOutcome o) p (.held b) := by
  refine ⟨h.buys, h.sells, ?_, h.fits⟩
  rw [Store.outcome?_withOutcome (h.noOutcome rfl hp), if_pos hp, hfilled]
  rfl

theorem HasLife.drop {o : ProposalOutcome} (h : HasLife s p .pending) (hp : o.proposalId = p.id)
    (hne : o.outcome ≠ .filled) : HasLife (s.withOutcome o) p (.dropped o.outcome) := by
  refine ⟨h.buys, h.sells, ?_, hne⟩
  rw [Store.outcome?_withOutcome (h.noOutcome rfl hp), if_pos hp]
  rfl

theorem WF.addFill {f : PaperFill} (hs : WF s) (hp : p ∈ s.proposals)
    (hf : f.proposalId = p.id) (hl : HasLife (s.addFill f) p l) : WF (s.addFill f) where
  callIds := hs.callIds
  extensions := hs.extensions
  oneExtension := hs.oneExtension
  proposalIds := hs.proposalIds
  proposalCall := hs.proposalCall
  outcomeOwner := hs.outcomeOwner
  fillOwner := by
    intro g hg
    rcases List.mem_append.mp hg with hg | hg
    · exact hs.fillOwner g hg
    · rw [List.mem_singleton.mp hg]
      exact ⟨p, hp, hf.symm⟩
  quantity := hs.quantity
  lives := by
    intro q hq
    by_cases h : q.id = p.id
    · rw [hs.proposal_unique hq hp h]
      exact ⟨l, hl⟩
    · obtain ⟨lq, hlq⟩ := hs.lives q hq
      exact ⟨lq, hlq.addFill_ne fun he => h (he.symm.trans hf)⟩

theorem WF.withOutcome {o : ProposalOutcome} (hs : WF s)
    (hno : s.hasOutcome o.proposalId = false) (hp : p ∈ s.proposals) (hop : o.proposalId = p.id)
    (hl : HasLife (s.withOutcome o) p l) : WF (s.withOutcome o) where
  callIds := hs.callIds
  extensions := hs.extensions
  oneExtension := hs.oneExtension
  proposalIds := hs.proposalIds
  proposalCall := hs.proposalCall
  outcomeOwner := by
    intro o' ho'
    rcases List.mem_append.mp ho' with ho' | ho'
    · exact hs.outcomeOwner o' ho'
    · rw [List.mem_singleton.mp ho']
      exact ⟨p, hp, hop.symm⟩
  fillOwner := hs.fillOwner
  quantity := hs.quantity
  lives := by
    intro q hq
    by_cases h : q.id = p.id
    · rw [hs.proposal_unique hq hp h]
      exact ⟨l, hl⟩
    · obtain ⟨lq, hlq⟩ := hs.lives q hq
      exact ⟨lq, hlq.withOutcome_ne hno fun he => h (he.symm.trans hop)⟩

/-- A new call, or the one extension of an original call. -/
theorem WF.addCall {c : NewCall} (hs : WF s)
    (hext : ∀ i, c.extendsCallId = some i → s.extension? i = none ∧ ∃ old ∈ s.calls,
      old.id = i ∧ old.extendsCallId = none ∧ c.symbol = old.symbol ∧
      c.direction = old.direction) : WF (s.addCall c) where
  callIds := by
    unfold Store.addCall
    rw [List.map_append, List.nodup_append]
    refine ⟨hs.callIds, List.nodup_singleton _, ?_⟩
    intro a ha b hb hab
    rw [List.map_singleton, List.mem_singleton] at hb
    rw [hab, hb] at ha
    exact nextId_not_mem _ ha
  extensions := by
    intro d hd i hi
    rcases List.mem_append.mp hd with hd | hd
    · obtain ⟨old, hold, hrest⟩ := hs.extensions d hd i hi
      exact ⟨old, List.mem_append_left _ hold, hrest⟩
    · rw [List.mem_singleton.mp hd] at hi ⊢
      obtain ⟨_, old, hold, hrest⟩ := hext i hi
      exact ⟨old, List.mem_append_left _ hold, hrest⟩
  oneExtension := by
    intro d hd e he hne heq
    rcases List.mem_append.mp hd with hd | hd <;> rcases List.mem_append.mp he with he | he
    · exact hs.oneExtension d hd e he hne heq
    · rw [List.mem_singleton.mp he] at heq
      obtain ⟨i, hi⟩ := Option.ne_none_iff_exists'.mp hne
      exact absurd hi (extension?_none (hext i (heq.symm.trans hi)).1 hd)
    · rw [List.mem_singleton.mp hd] at heq hne
      obtain ⟨i, hi⟩ := Option.ne_none_iff_exists'.mp hne
      exact absurd (heq.symm.trans hi) (extension?_none (hext i hi).1 he)
    · rw [List.mem_singleton.mp hd, List.mem_singleton.mp he]
  proposalIds := hs.proposalIds
  proposalCall := by
    intro p hp
    obtain ⟨d, hd, hrest⟩ := hs.proposalCall p hp
    exact ⟨d, List.mem_append_left _ hd, hrest⟩
  outcomeOwner := hs.outcomeOwner
  fillOwner := hs.fillOwner
  quantity := hs.quantity
  lives := fun p hp => (hs.lives p hp).imp fun _ hl => ⟨hl.buys, hl.sells, hl.outcome, hl.fits⟩

/-- No row of the other tables names an id no proposal has. -/
theorem WF.noRows (hs : WF s) {i : ℕ} (hi : i ∉ s.proposals.map (·.id)) :
    s.buys i = [] ∧ s.sells i = [] ∧ s.outcome? i = none := by
  have hfill : ∀ f ∈ s.paperFills, f.proposalId ≠ i := by
    intro f hf he
    obtain ⟨p, hp, hpf⟩ := hs.fillOwner f hf
    exact hi (List.mem_map.mpr ⟨p, hp, hpf.trans he⟩)
  refine ⟨?_, ?_, ?_⟩
  · exact List.filter_eq_nil_iff.mpr fun f hf => by simp [hfill f hf]
  · exact List.filter_eq_nil_iff.mpr fun f hf => by simp [hfill f hf]
  · unfold Store.outcome?
    rw [Option.map_eq_none_iff, List.find?_eq_none]
    intro o ho he
    obtain ⟨p, hp, hpo⟩ := hs.outcomeOwner o ho
    exact hi (List.mem_map.mpr ⟨p, hp, hpo.trans (by simpa using he)⟩)

theorem mem_addProposal {callId : ℕ} {t : Instant} {instrument : Instrument}
    {symbol underlying : String} {quantity : ℤ} {maxEntry : ℚ} {atr : Option ℚ} :
    p ∈ (s.addProposal callId t instrument symbol underlying quantity maxEntry atr).proposals ↔
      p ∈ s.proposals ∨ p = ⟨nextId (s.proposals.map (·.id)), callId, t, instrument, symbol,
        underlying, quantity, maxEntry, atr, none, none, none⟩ := by
  unfold Store.addProposal
  rw [List.mem_append, List.mem_singleton]

/-- A new proposal of an original call begins its life pending. -/
theorem WF.addProposal {callId : ℕ} {t : Instant} {instrument : Instrument}
    {symbol underlying : String} {quantity : ℤ} {maxEntry : ℚ} {atr : Option ℚ} {c : Call}
    (hs : WF s) (hc : c ∈ s.calls) (hid : c.id = callId) (hnone : c.extendsCallId = none)
    (hsym : c.symbol = underlying) (hdir : c.direction = .down ↔ instrument = .put)
    (hq : 0 < quantity) :
    WF (s.addProposal callId t instrument symbol underlying quantity maxEntry atr) where
  callIds := hs.callIds
  extensions := hs.extensions
  oneExtension := hs.oneExtension
  proposalIds := by
    unfold Store.addProposal
    rw [List.map_append, List.nodup_append]
    refine ⟨hs.proposalIds, List.nodup_singleton _, ?_⟩
    intro a ha b hb hab
    rw [List.map_singleton, List.mem_singleton] at hb
    rw [hab, hb] at ha
    exact nextId_not_mem _ ha
  proposalCall := by
    intro p hp
    rcases mem_addProposal.mp hp with hp | rfl
    · exact hs.proposalCall p hp
    · exact ⟨c, hc, hid, hnone, hsym, hdir⟩
  outcomeOwner := fun o ho => (hs.outcomeOwner o ho).imp fun p hp =>
    ⟨mem_addProposal.mpr (Or.inl hp.1), hp.2⟩
  fillOwner := fun f hf => (hs.fillOwner f hf).imp fun p hp =>
    ⟨mem_addProposal.mpr (Or.inl hp.1), hp.2⟩
  quantity := by
    intro p hp
    rcases mem_addProposal.mp hp with hp | rfl
    · exact hs.quantity p hp
    · exact hq
  lives := by
    intro p hp
    rcases mem_addProposal.mp hp with hp | rfl
    · exact (hs.lives p hp).imp fun _ hl => ⟨hl.buys, hl.sells, hl.outcome, hl.fits⟩
    · obtain ⟨hb, hse, ho⟩ := hs.noRows (nextId_not_mem (s.proposals.map (·.id)))
      exact ⟨.pending, hb, hse, ho, trivial⟩

/-- Posting sets a proposal's stamps and moves no life. -/
theorem WF.stampPosted {pid : ℕ} {t d : Instant} {m : Option String} (hs : WF s) :
    WF (s.stampPosted pid t d m) := by
  have hids : (s.stampPosted pid t d m).proposals.map (·.id) = s.proposals.map (·.id) := by
    unfold Store.stampPosted
    rw [List.map_map]
    refine List.map_congr_left fun q _ => ?_
    show Proposal.id (ite _ _ _) = q.id
    split <;> rfl
  have hkeep : ∀ q : Proposal, ∀ P : Proposal → Prop,
      (∀ a b c, P q → P { q with postedAt := a, vetoDeadline := b, messageId := c }) →
      P q → P (if q.id = pid ∧ q.postedAt = none then
        { q with postedAt := some t, vetoDeadline := some d, messageId := m } else q) := by
    intro q P hP hq
    split
    · exact hP _ _ _ hq
    · exact hq
  have hmem : ∀ i, (∃ q ∈ s.proposals, q.id = i) →
      ∃ q ∈ (s.stampPosted pid t d m).proposals, q.id = i := by
    rintro i ⟨q, hq, rfl⟩
    exact ⟨_, Store.mem_stampPosted.mpr ⟨q, hq, rfl⟩, hkeep q (·.id = q.id) (fun _ _ _ h => h) rfl⟩
  refine ⟨hs.callIds, hs.extensions, hs.oneExtension, by rw [hids]; exact hs.proposalIds, ?_,
    fun o ho => hmem _ (hs.outcomeOwner o ho), fun f hf => hmem _ (hs.fillOwner f hf), ?_, ?_⟩
  · intro p hp
    obtain ⟨q, hq, rfl⟩ := Store.mem_stampPosted.mp hp
    exact hkeep q (fun p => ∃ c ∈ s.calls, c.id = p.callId ∧ c.extendsCallId = none ∧
      c.symbol = p.underlying ∧ (c.direction = .down ↔ p.instrument = .put))
      (fun _ _ _ h => h) (hs.proposalCall q hq)
  · intro p hp
    obtain ⟨q, hq, rfl⟩ := Store.mem_stampPosted.mp hp
    exact hkeep q (fun p => 0 < p.quantity) (fun _ _ _ h => h) (hs.quantity q hq)
  · intro p hp
    obtain ⟨q, hq, rfl⟩ := Store.mem_stampPosted.mp hp
    obtain ⟨l, hl⟩ := hs.lives q hq
    refine ⟨l, hkeep q (fun p => HasLife (s.stampPosted pid t d m) p l) ?_
      ⟨hl.buys, hl.sells, hl.outcome, hl.fits⟩⟩
    intro a b c h
    refine ⟨h.buys, h.sells, h.outcome, ?_⟩
    cases l <;> exact h.fits

/-- A statement on the other tables changes nothing here. -/
theorem WF.of_same (hs : WF s) (hcalls : s'.calls = s.calls) (hprops : s'.proposals = s.proposals)
    (houts : s'.proposalOutcomes = s.proposalOutcomes) (hfills : s'.paperFills = s.paperFills) :
    WF s' := by
  have hlife : ∀ p l, HasLife s p l → HasLife s' p l := by
    intro p l h
    refine ⟨?_, ?_, ?_, h.fits⟩
    · unfold Store.buys
      rw [hfills]
      exact h.buys
    · unfold Store.sells
      rw [hfills]
      exact h.sells
    · unfold Store.outcome?
      rw [houts]
      exact h.outcome
  refine ⟨hcalls ▸ hs.callIds, hcalls ▸ hs.extensions, hcalls ▸ hs.oneExtension,
    hprops ▸ hs.proposalIds, ?_, ?_, ?_, hprops ▸ hs.quantity, ?_⟩
  · rw [hprops, hcalls]
    exact hs.proposalCall
  · rw [hprops, houts]
    exact hs.outcomeOwner
  · rw [hprops, hfills]
    exact hs.fillOwner
  · rw [hprops]
    exact fun p hp => (hs.lives p hp).imp fun l hl => hlife p l hl

end

end Desk

end TradeDesk
