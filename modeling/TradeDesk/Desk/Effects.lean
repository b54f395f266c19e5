import TradeDesk.Desk.LoopSpecs

/-!
# What a statement does to the folds

A statement on the book does one of four things: it touches another table
(`Alike`), it stamps a post, it adds a proposal, or it moves one proposal
on in its life (`Touch`). Here is what each does to cash, to what is
promised, to the slots and to the open positions. The first two change
none of them; the last changes each by the terms of one proposal.
-/

namespace TradeDesk.Desk

open TradeDesk.Async

variable {cfg : Settings} {op : Op} {h : History} {a b : Store} {p q : Proposal} {l l' : Life}
variable {E : ℚ}

/-! ## Statements on other tables -/

/-- The same rows wherever the book's folds look. -/
structure Alike (a b : Store) : Prop where
  proposals : b.proposals = a.proposals
  outcomes : b.proposalOutcomes = a.proposalOutcomes
  fills : b.paperFills = a.paperFills

theorem Alike.cash (hab : Alike a b) : b.cash E = a.cash E := by
  unfold Store.cash Store.joinedFills
  rw [hab.proposals, hab.fills]

theorem Alike.committed (hab : Alike a b) : b.committed = a.committed := by
  unfold Store.committed Store.hasOutcome Store.buys
  rw [hab.proposals, hab.outcomes, hab.fills]

/-- Only proposals and fills open positions. -/
theorem openPositions_congr (hprops : b.proposals = a.proposals)
    (hfills : b.paperFills = a.paperFills) : b.openPositions = a.openPositions := by
  unfold Store.openPositions Store.positionOf Store.sold Store.buys Store.sells
  rw [hprops, hfills]

theorem Alike.openPositions (hab : Alike a b) : b.openPositions = a.openPositions :=
  openPositions_congr hab.proposals hab.fills

theorem Alike.committedCost (hab : Alike a b) : b.committedCost = a.committedCost := by
  unfold Store.committedCost
  rw [hab.committed]

theorem Alike.slots (hab : Alike a b) : b.slots = a.slots := by
  unfold Store.slots
  rw [hab.committed, hab.openPositions]

theorem Alike.bookEquity (hab : Alike a b) (hmarks : b.paperMarks = a.paperMarks) :
    b.bookEquity E = a.bookEquity E := by
  unfold Store.bookEquity Store.markedValue
  rw [hab.cash, hab.openPositions, hmarks]

/-! ## A post is stamped -/

/-- The stamps a post sets, if the proposal has none yet. -/
def stamp (pid : ℕ) (t d : Instant) (m : Option String) (p : Proposal) : Proposal :=
  if p.id = pid ∧ p.postedAt = none then
    { p with postedAt := some t, vetoDeadline := some d, messageId := m } else p

section

variable {pid : ℕ} {t d : Instant} {m : Option String}

theorem stampPosted_proposals (s : Store) :
    (s.stampPosted pid t d m).proposals = s.proposals.map (stamp pid t d m) := rfl

/-- A field the stamps are not. -/
theorem stamp_same {α : Type} (φ : Proposal → α)
    (hφ : ∀ (p : Proposal) t d m, φ { p with postedAt := t, vetoDeadline := d, messageId := m } =
      φ p) (p : Proposal) : φ (stamp pid t d m p) = φ p := by
  unfold stamp
  split
  · exact hφ _ _ _ _
  · rfl

theorem cash_stampPosted (s : Store) : (s.stampPosted pid t d m).cash E = s.cash E := by
  rw [Store.cash_eq, Store.cash_eq, stampPosted_proposals, List.map_map]
  refine congrArg (E + ·) (congrArg List.sum (List.map_congr_left fun p _ => ?_))
  exact stamp_same (fun p => s.netFlow p) (fun _ _ _ _ => rfl) p

theorem committedCost_stampPosted (s : Store) :
    (s.stampPosted pid t d m).committedCost = s.committedCost := by
  rw [Store.committedCost_eq, Store.committedCost_eq, stampPosted_proposals, List.map_map]
  refine congrArg List.sum (List.map_congr_left fun p _ => ?_)
  exact stamp_same (fun p => s.promised p) (fun _ _ _ _ => rfl) p

theorem openPositions_stampPosted (s : Store) :
    (s.stampPosted pid t d m).openPositions = s.openPositions := by
  rw [Store.openPositions_eq, Store.openPositions_eq, stampPosted_proposals, List.flatMap_map]
  refine List.flatMap_congr fun p _ => ?_
  exact stamp_same (fun p => s.positionsOf p) (fun _ _ _ _ => rfl) p

theorem slots_stampPosted (s : Store) : (s.stampPosted pid t d m).slots = s.slots := by
  rw [Store.slots_eq, Store.slots_eq, stampPosted_proposals, List.map_map]
  refine congrArg List.sum (List.map_congr_left fun p _ => ?_)
  exact stamp_same (fun p => s.slotsOf p) (fun _ _ _ _ => rfl) p

theorem bookEquity_stampPosted (s : Store) :
    (s.stampPosted pid t d m).bookEquity E = s.bookEquity E := by
  unfold Store.bookEquity
  rw [cash_stampPosted, openPositions_stampPosted]
  rfl

end

/-! ## A proposal is added -/

section

variable {callId : ℕ} {t : Instant} {i : Instrument} {sym und : String} {n : ℤ} {mx : ℚ}
  {atr : Option ℚ}

theorem addProposal_proposals (s : Store) :
    (s.addProposal callId t i sym und n mx atr).proposals =
      s.proposals ++ [insertedProposal s callId t i sym und n mx atr] := rfl

/-- A new proposal has no rows yet, so it is pending. -/
theorem WF.pending_insertedProposal (hs : WF a) :
    HasLife (a.addProposal callId t i sym und n mx atr)
      (insertedProposal a callId t i sym und n mx atr) .pending := by
  obtain ⟨hb, hse, ho⟩ := hs.noRows (nextId_not_mem _)
  exact ⟨hb, hse, ho, trivial⟩

variable (hs : WF a)

include hs

theorem cash_addProposal : (a.addProposal callId t i sym und n mx atr).cash E = a.cash E := by
  rw [Store.cash_eq, Store.cash_eq, addProposal_proposals, List.map_append, List.sum_append,
    List.map_singleton, List.sum_singleton, hs.pending_insertedProposal.netFlow]
  exact congrArg (E + ·) (add_zero _)

theorem committedCost_addProposal :
    (a.addProposal callId t i sym und n mx atr).committedCost =
      a.committedCost + mx * n * mult i := by
  rw [Store.committedCost_eq, Store.committedCost_eq, addProposal_proposals, List.map_append,
    List.sum_append, List.map_singleton, List.sum_singleton, hs.pending_insertedProposal.promised]
  rfl

theorem slots_addProposal (hn : 0 < n) :
    (a.addProposal callId t i sym und n mx atr).slots = a.slots + 1 := by
  rw [Store.slots_eq, Store.slots_eq, addProposal_proposals, List.map_append, List.sum_append,
    List.map_singleton, List.sum_singleton, hs.pending_insertedProposal.slotsOf hn]
  rfl

theorem committed_addProposal :
    (a.addProposal callId t i sym und n mx atr).committed =
      a.committed ++ [insertedProposal a callId t i sym und n mx atr] := by
  rw [Store.committed_eq, addProposal_proposals, List.filter_append,
    List.filter_cons_of_pos hs.pending_insertedProposal.isCommitted]
  rfl

/-- A proposal without fills opens nothing. -/
theorem openPositions_addProposal :
    (a.addProposal callId t i sym und n mx atr).openPositions = a.openPositions := by
  rw [Store.openPositions_eq, Store.openPositions_eq, addProposal_proposals, List.flatMap_append,
    List.flatMap_singleton]
  unfold Store.positionsOf
  rw [hs.pending_insertedProposal.buys]
  exact List.append_nil _

theorem bookEquity_addProposal :
    (a.addProposal callId t i sym und n mx atr).bookEquity E = a.bookEquity E := by
  unfold Store.bookEquity
  rw [cash_addProposal hs, openPositions_addProposal hs]
  rfl

end

/-! ## One proposal moves on -/

/-- One proposal is somewhere else in its life, the others are where they
were. -/
structure Touch (a b : Store) (p : Proposal) (l l' : Life) : Prop where
  mem : p ∈ a.proposals
  proposals : b.proposals = a.proposals
  before : HasLife a p l
  after : HasLife b p l'
  others : ∀ q l, q.id ≠ p.id → HasLife a q l → HasLife b q l

theorem Touch.drop {o : ProposalOutcome} (hp : p ∈ a.proposals) (hl : HasLife a p .pending)
    (hop : o.proposalId = p.id) (hne : o.outcome ≠ .filled) :
    Touch a (a.withOutcome o) p .pending (.dropped o.outcome) where
  mem := hp
  proposals := rfl
  before := hl
  after := hl.drop hop hne
  others := fun _ _ hq hlq =>
    hlq.withOutcome_ne (hl.noOutcome rfl hop) fun he => hq (he.symm.trans hop)

theorem Touch.settle {o : ProposalOutcome} {e : PaperFill} (hp : p ∈ a.proposals)
    (hl : HasLife a p (.filling e)) (hop : o.proposalId = p.id) (hfilled : o.outcome = .filled) :
    Touch a (a.withOutcome o) p (.filling e) (.held e) where
  mem := hp
  proposals := rfl
  before := hl
  after := hl.settle hop hfilled
  others := fun _ _ hq hlq =>
    hlq.withOutcome_ne (hl.noOutcome rfl hop) fun he => hq (he.symm.trans hop)

theorem Touch.fill {f : PaperFill} (hp : p ∈ a.proposals) (hl : HasLife a p .pending)
    (hf : f.proposalId = p.id) (hside : f.side = .buy) (hq : f.quantity = p.quantity) :
    Touch a (a.addFill f) p .pending (.filling f) where
  mem := hp
  proposals := rfl
  before := hl
  after := hl.fill hf hside hq
  others := fun _ _ hq hlq => hlq.addFill_ne fun he => hq (he.symm.trans hf)

theorem Touch.sell {f e : PaperFill} (hp : p ∈ a.proposals) (hl : HasLife a p (.held e))
    (hf : f.proposalId = p.id) (hside : f.side = .sell) (hq : f.quantity = p.quantity) :
    Touch a (a.addFill f) p (.held e) (.closed e f) where
  mem := hp
  proposals := rfl
  before := hl
  after := hl.sell hf hside hq
  others := fun _ _ hq hlq => hlq.addFill_ne fun he => hq (he.symm.trans hf)

/-- What a place of a life promises, and the slots it takes. -/
def Life.promised (p : Proposal) : Life → ℚ
  | pending => p.worstCase
  | _ => 0

def Life.slots : Life → ℕ
  | pending | filling _ | held _ => 1
  | _ => 0

section

variable (hs : WF a) (ht : Touch a b p l l')

include hs ht

/-- A sum of terms read off the lives changes by the terms of the one
proposal that moved. -/
theorem Touch.sum_change {M : Type} [AddCommMonoid M] {φ ψ : Proposal → M}
    {τ : Proposal → Life → M} (hφ : ∀ q ∈ a.proposals, ∀ l, HasLife a q l → φ q = τ q l)
    (hψ : ∀ q ∈ a.proposals, ∀ l, HasLife b q l → ψ q = τ q l) :
    (b.proposals.map ψ).sum + τ p l = (a.proposals.map φ).sum + τ p l' := by
  rw [ht.proposals, ← hφ p ht.mem l ht.before, ← hψ p ht.mem l' ht.after]
  refine Table.sum_map_change hs.proposalIds ht.mem fun q hq hne => ?_
  obtain ⟨lq, hlq⟩ := hs.lives q hq
  rw [hφ q hq lq hlq, hψ q hq lq (ht.others q lq hne hlq)]

theorem Touch.cash : b.cash E + l.flow (mult p.instrument) =
    a.cash E + l'.flow (mult p.instrument) := by
  rw [Store.cash_eq, Store.cash_eq]
  have := ht.sum_change hs (φ := a.netFlow) (ψ := b.netFlow)
    (τ := fun q l => l.flow (mult q.instrument)) (fun _ _ _ h => h.netFlow) fun _ _ _ h => h.netFlow
  linarith

theorem Touch.committedCost :
    b.committedCost + l.promised p = a.committedCost + l'.promised p := by
  rw [Store.committedCost_eq, Store.committedCost_eq]
  refine ht.sum_change hs (τ := fun q l => l.promised q) ?_ ?_ <;> intro q _ l h <;>
    rw [h.promised] <;> cases l <;> rfl

theorem Touch.slots : b.slots + l.slots = a.slots + l'.slots := by
  rw [Store.slots_eq, Store.slots_eq]
  refine ht.sum_change hs (τ := fun _ l => l.slots) ?_ ?_ <;> intro q hq l h <;>
    rw [h.slotsOf (hs.quantity q hq)] <;> cases l <;> rfl

/-- Nothing opens or closes unless the moved proposal does. -/
theorem Touch.openPositions (he : l.entry? = l'.entry?) : b.openPositions = a.openPositions := by
  rw [Store.openPositions_eq, Store.openPositions_eq, ht.proposals]
  refine List.flatMap_congr fun q hq => ?_
  by_cases hqp : q.id = p.id
  · obtain rfl := hs.proposal_unique hq ht.mem hqp
    rw [ht.after.positionsOf (hs.quantity q hq), ht.before.positionsOf (hs.quantity q hq), he]
  · obtain ⟨lq, hlq⟩ := hs.lives q hq
    rw [hlq.positionsOf (hs.quantity q hq),
      (ht.others q lq hqp hlq).positionsOf (hs.quantity q hq)]

/-- An open position was open before, or it is the moved proposal's. -/
theorem Touch.mem_openPositions {x : PaperPosition} (hx : x ∈ b.openPositions) :
    x ∈ a.openPositions ∨ ∃ e, l'.entry? = some e ∧ x = p.position e := by
  rw [Store.openPositions_eq, List.mem_flatMap] at hx ⊢
  obtain ⟨q, hq, hx⟩ := hx
  rw [ht.proposals] at hq
  by_cases hqp : q.id = p.id
  · obtain rfl := hs.proposal_unique hq ht.mem hqp
    rw [ht.after.positionsOf (hs.quantity q hq)] at hx
    obtain ⟨e, he, rfl⟩ := List.mem_map.mp hx
    exact Or.inr ⟨e, Option.mem_toList.mp he, rfl⟩
  · obtain ⟨lq, hlq⟩ := hs.lives q hq
    rw [(ht.others q lq hqp hlq).positionsOf (hs.quantity q hq),
      ← hlq.positionsOf (hs.quantity q hq)] at hx
    exact Or.inl ⟨q, hq, hx⟩

/-- What the open positions are worth changes by the moved proposal's. -/
theorem Touch.marketValue (hmarks : b.paperMarks = a.paperMarks) :
    (b.openPositions.map b.markedValue).sum +
        (l.entry?.toList.map fun e => a.markedValue (p.position e)).sum =
      (a.openPositions.map a.markedValue).sum +
        (l'.entry?.toList.map fun e => a.markedValue (p.position e)).sum := by
  have hsame : b.markedValue = a.markedValue := by
    unfold Store.markedValue
    rw [hmarks]
  rw [hsame, Store.openPositions_eq, Store.openPositions_eq, Table.sum_map_flatMap,
    Table.sum_map_flatMap]
  refine ht.sum_change hs (τ := fun q l =>
    (l.entry?.toList.map fun e => a.markedValue (q.position e)).sum) ?_ ?_ <;> intro q hq l h <;>
    rw [h.positionsOf (hs.quantity q hq), List.map_map] <;> rfl

end

/-- The book's starting equity is written once, before the desk trades. -/
theorem DeskWrite.paperBook (hdw : DeskWrite cfg op h a b) : b.paperBook = a.paperBook := by
  cases hdw <;> rfl

/-- **An entry fill** is a watch's purchase of a pending proposal, whole, at
the watch's own time and with all an entry rests on. -/
theorem DeskWrite.entry (hdw : DeskWrite cfg op h a b) {f : PaperFill} (hside : f.side = .buy)
    (hb : b = a.addFill f) : ∃ now window p, op = .deskWatch now window ∧ p ∈ a.proposals ∧
      HasLife a p .pending ∧ f.at_ = now ∧ f.proposalId = p.id ∧ f.quantity = p.quantity ∧
      ∃ stop, EntryOk cfg now window h a p f.price stop := by
  have hlen : b.paperFills = a.paperFills ++ [f] := by
    rw [hb]
    rfl
  have hnot : b.paperFills = a.paperFills → False := fun hsame => by
    rw [hsame] at hlen
    simpa using congrArg List.length hlen
  cases hdw with
  | buy p ask stop hp hl hok =>
    obtain rfl := List.singleton_injective (List.append_cancel_left hlen)
    exact ⟨_, _, p, rfl, hp, hl, rfl, rfl, rfl, stop, hok⟩
  | sell p e price reason _ _ _ =>
    obtain rfl := List.singleton_injective (List.append_cancel_left hlen)
    cases hside
  | call | proposal | extension | tighten | exitRequest | posted | dropped | filled | mark |
    exitDone | resolve => exact (hnot rfl).elim

/-- **An extension's row** continues an original call that is there and
that nothing has extended. -/
theorem DeskWrite.extended (hdw : DeskWrite cfg op h a b) {c : NewCall} {i : ℕ}
    (hext : c.extendsCallId = some i) (hb : b = a.addCall c) : ∃ old ∈ a.calls, old.id = i ∧
      old.extendsCallId = none ∧ a.extension? i = none ∧ c.origin = .pm := by
  have hlen : b.calls = a.calls ++ [insertedCall a c] := by
    rw [hb]
    rfl
  have hnot : b.calls = a.calls → False := fun hsame => by
    rw [hsame] at hlen
    simpa using congrArg List.length hlen
  cases hdw with
  | call c' hnew =>
    have hrow := congrArg Call.toNewCall (List.singleton_injective (List.append_cancel_left hlen))
    obtain rfl : c' = c := hrow
    rw [hnew.original] at hext
    cases hext
  | extension old t j last spy bench hold hid _ hnone hnoext _ _ _ _ _ =>
    have hrow := congrArg Call.toNewCall (List.singleton_injective (List.append_cancel_left hlen))
    obtain rfl : extensionOf cfg _ old _ t j last spy bench _ = c := hrow
    obtain rfl : old.id = i := Option.some.inj hext
    exact ⟨old, hold, rfl, hnone, hid ▸ hnoext, rfl⟩
  | proposal | tighten | exitRequest | posted | dropped | buy | filled | mark | sell | exitDone |
    resolve => exact (hnot rfl).elim

end TradeDesk.Desk
