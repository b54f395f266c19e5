import TradeDesk.Desk.Ledger
import TradeDesk.Table

/-!
# The book in closed form

`cash`, `open_positions`, `committed_proposals` and `book_state` are four
folds over the same rows. Each is a sum over the proposals of a term that
depends only on the proposal's own rows (`cash_eq`, `openPositions_eq`,
`committedCost_eq`, `slots_eq`), and in a well-formed ledger the term is
read off the proposal's life (`HasLife.netFlow`, `HasLife.positionsOf`,
`HasLife.promised`). `bookState_ok` then says what `book_state` returns,
whichever proposal it leaves out: its equity is cash and the positions at
their marks, commitments cancelled.
-/

namespace TradeDesk

/-- The position an entry fill opened. -/
def Proposal.position (p : Proposal) (b : PaperFill) : PaperPosition :=
  ⟨p.id, p.callId, p.instrument, p.symbol, p.underlying, b.quantity, b.price, b.at_,
    b.stopTrigger, b.stopLimit⟩

namespace Store

variable (s : Store)

/-! ## Sums over the proposals -/

/-- What is open of one proposal. -/
def positionsOf (p : Proposal) : List PaperPosition :=
  ((s.buys p.id).map (s.positionOf p)).filter fun x => 0 < x.quantity

/-- What a proposal's fills brought in, less what they cost. -/
def netFlow (p : Proposal) : ℚ :=
  spentOn (mult p.instrument) (s.sells p.id) - spentOn (mult p.instrument) (s.buys p.id)

def isCommitted (p : Proposal) : Bool := !s.hasOutcome p.id && (s.buys p.id).isEmpty

/-- What the book has promised to one proposal. -/
def promised (p : Proposal) : ℚ := if s.isCommitted p then p.worstCase else 0

/-- What the book has promised and not yet spent. -/
def committedCost : ℚ := (s.committed.map (·.worstCase)).sum

/-- Open positions and pending proposals: the names the book carries. -/
def slots : ℕ := s.openPositions.length + s.committed.length

def slotsOf (p : Proposal) : ℕ := (s.positionsOf p).length + if s.isCommitted p then 1 else 0

/-- An open position at its mark. -/
def markedValue (x : PaperPosition) : ℚ :=
  Desk.markedAt s.paperMarks x.symbol x.entryPrice * x.quantity * mult x.instrument

/-- Cash and the open positions at their marks. -/
def bookEquity (startEquity : ℚ) : ℚ :=
  s.cash startEquity + (s.openPositions.map s.markedValue).sum

theorem openPositions_eq : s.openPositions = s.proposals.flatMap s.positionsOf := by
  unfold openPositions positionsOf
  rw [List.filter_flatMap]

theorem committed_eq : s.committed = s.proposals.filter s.isCommitted := rfl

theorem committedCost_eq : s.committedCost = (s.proposals.map s.promised).sum := by
  unfold committedCost promised
  rw [s.committed_eq, Table.sum_map_filter]

theorem slots_eq : s.slots = (s.proposals.map s.slotsOf).sum := by
  unfold slots slotsOf
  rw [s.openPositions_eq, s.committed_eq, Table.length_filter_eq_sum, List.length_flatMap,
    ← List.sum_map_add]

/-- A proposal's fills, sales and purchases apart. -/
theorem flow_split (p : Proposal) (fills : List PaperFill) :
    ((fills.filter fun f => p.id == f.proposalId).map (cashFlow p)).sum =
      spentOn (mult p.instrument)
          (fills.filter fun f => f.proposalId == p.id && f.side == .sell) -
        spentOn (mult p.instrument)
          (fills.filter fun f => f.proposalId == p.id && f.side == .buy) := by
  unfold spentOn
  induction fills with
  | nil => simp
  | cons f fills ih =>
    by_cases hid : f.proposalId = p.id
    · cases hside : f.side <;>
        simp only [List.filter_cons, hid, hside, cashFlow, BEq.rfl, Bool.true_and, if_true,
          List.map_cons, List.sum_cons, ih, reduceCtorEq, if_false, beq_iff_eq] <;> ring
    · have hid' : (p.id == f.proposalId) = false := by simpa using fun h => hid h.symm
      have hid'' : (f.proposalId == p.id) = false := by simpa using hid
      simp only [List.filter_cons, hid', hid'', Bool.false_and, Bool.false_eq_true, if_false, ih]

/-- **Cash is the start and every proposal's net flow.** -/
theorem cash_eq (startEquity : ℚ) :
    s.cash startEquity = startEquity + (s.proposals.map s.netFlow).sum := by
  unfold cash joinedFills
  rw [Table.sum_map_flatMap]
  congr 1
  have hswap := Table.sum_join_comm (fun (f : PaperFill) (p : Proposal) => p.id == f.proposalId)
    (fun f p => cashFlow p f) s.paperFills s.proposals
  simp only [List.map_map]
  refine hswap.trans (congrArg List.sum (List.map_congr_left fun p _ => ?_))
  exact flow_split p s.paperFills

end Store

namespace Desk

open TradeDesk.Async

variable {s : Store} {p : Proposal} {l : Life}

/-! ## The terms of a life -/

/-- The entry fill of a life that holds something. -/
def Life.entry? : Life → Option PaperFill
  | filling b | held b => some b
  | _ => none

theorem HasLife.positionsOf (h : HasLife s p l) (hq : 0 < p.quantity) :
    s.positionsOf p = l.entry?.toList.map p.position := by
  have hfits := h.fits
  unfold Store.positionsOf Store.positionOf Store.sold Store.quantitySum
  rw [h.buys, h.sells]
  cases l with
  | pending => rfl
  | dropped o => rfl
  | filling b =>
    have hb : b.quantity = p.quantity := hfits
    simp [Life.buys, Life.sells, Life.entry?, Proposal.position, hb, hq]
  | held b =>
    have hb : b.quantity = p.quantity := hfits
    simp [Life.buys, Life.sells, Life.entry?, Proposal.position, hb, hq]
  | closed b x =>
    obtain ⟨hb, hx⟩ : b.quantity = p.quantity ∧ x.quantity = p.quantity := hfits
    simp [Life.buys, Life.sells, Life.entry?, hb, hx]

/-- What a life's fills brought in, less what they cost. -/
def Life.flow (m : ℚ) : Life → ℚ
  | pending | dropped _ => 0
  | filling b | held b => -(b.price * b.quantity * m)
  | closed b x => x.price * x.quantity * m - b.price * b.quantity * m

theorem HasLife.netFlow (h : HasLife s p l) : s.netFlow p = l.flow (mult p.instrument) := by
  unfold Store.netFlow Store.spentOn
  rw [h.buys, h.sells]
  cases l <;> simp [Life.buys, Life.sells, Life.flow]

theorem HasLife.isCommitted (h : HasLife s p l) :
    s.isCommitted p = match l with
      | .pending => true
      | _ => false := by
  unfold Store.isCommitted
  rw [h.hasOutcome, h.buys]
  cases l <;> rfl

theorem HasLife.promised (h : HasLife s p l) :
    s.promised p = match l with
      | .pending => p.worstCase
      | _ => 0 := by
  unfold Store.promised
  rw [h.isCommitted]
  cases l <;> rfl

theorem HasLife.slotsOf (h : HasLife s p l) (hq : 0 < p.quantity) :
    s.slotsOf p = match l with
      | .pending | .filling _ | .held _ => 1
      | _ => 0 := by
  unfold Store.slotsOf
  rw [h.isCommitted, h.positionsOf hq]
  cases l <;> rfl

/-! ## Open positions -/

/-- **An open position is a proposal that holds its purchase.** -/
theorem WF.mem_openPositions (hs : WF s) {x : PaperPosition} :
    x ∈ s.openPositions ↔ ∃ p ∈ s.proposals, ∃ l b, HasLife s p l ∧ l.entry? = some b ∧
      x = p.position b := by
  rw [s.openPositions_eq, List.mem_flatMap]
  refine exists_congr fun p => and_congr_right fun hp => ?_
  obtain ⟨l, hl⟩ := hs.lives p hp
  rw [hl.positionsOf (hs.quantity p hp), List.mem_map]
  constructor
  · rintro ⟨b, hb, rfl⟩
    exact ⟨l, b, hl, Option.mem_toList.mp hb, rfl⟩
  · rintro ⟨l', b, hl', hb, rfl⟩
    refine ⟨b, Option.mem_toList.mpr ?_, rfl⟩
    -- both lives read the same rows, so they hold the same purchase
    have hbuys : l.buys = l'.buys := hl.buys.symm.trans hl'.buys
    have hsells : l.sells = l'.sells := hl.sells.symm.trans hl'.sells
    cases l' <;> simp only [Life.entry?, reduceCtorEq, Option.some.injEq] at hb <;> subst hb <;>
      cases l <;> simp_all [Life.buys, Life.sells, Life.entry?]

theorem Sound.mem_openPositions (hs : Sound s) {x : PaperPosition} :
    x ∈ s.openPositions ↔ ∃ p ∈ s.proposals, ∃ b, HasLife s p (.held b) ∧ x = p.position b := by
  rw [hs.wf.mem_openPositions]
  refine exists_congr fun p => and_congr_right fun hp => ?_
  constructor
  · rintro ⟨l, b, hl, hb, rfl⟩
    cases l with
    | filling e => exact absurd hl (hs.clean p hp e)
    | held e =>
      cases hb
      exact ⟨_, hl, rfl⟩
    | pending => cases hb
    | dropped o => cases hb
    | closed e x => cases hb
  · rintro ⟨b, hl, rfl⟩
    exact ⟨.held b, b, hl, rfl, rfl⟩

/-- Each proposal has one position at most. -/
theorem WF.openPositions_nodup (hs : WF s) : (s.openPositions.map (·.proposalId)).Nodup := by
  rw [s.openPositions_eq, List.map_flatMap]
  have hpos : ∀ p ∈ s.proposals, (s.positionsOf p).map (·.proposalId) = [] ∨
      (s.positionsOf p).map (·.proposalId) = [p.id] := by
    intro p hp
    obtain ⟨l, hl⟩ := hs.lives p hp
    rw [hl.positionsOf (hs.quantity p hp)]
    cases l.entry? with
    | none => exact Or.inl rfl
    | some b => exact Or.inr rfl
  have hids := hs.proposalIds
  generalize s.proposals = ps at hpos hids
  induction ps with
  | nil => exact List.nodup_nil
  | cons p ps ih =>
    rw [List.flatMap_cons]
    rw [List.map_cons, List.nodup_cons] at hids
    have hrest := ih (fun q hq => hpos q (List.mem_cons_of_mem _ hq)) hids.2
    rcases hpos p List.mem_cons_self with hp | hp
    · rw [hp]
      exact hrest
    · rw [hp, List.singleton_append, List.nodup_cons]
      refine ⟨?_, hrest⟩
      intro hmem
      obtain ⟨q, hq, hin⟩ := List.mem_flatMap.mp hmem
      rcases hpos q (List.mem_cons_of_mem _ hq) with hq' | hq' <;> rw [hq'] at hin
      · cases hin
      · rw [List.mem_singleton] at hin
        exact hids.1 (List.mem_map.mpr ⟨q, hq, hin.symm⟩)

/-! ## What `bookState` returns -/

theorem positionHolding_ok {mk : List PaperMark} {x : PaperPosition} {h : Holding}
    (he : (positionHolding mk x).eval s = .ok h) :
    h.marketValue = markedAt mk x.symbol x.entryPrice * x.quantity * mult x.instrument := by
  obtain ⟨_, _, he⟩ := Reads.eval_bind_ok he
  obtain ⟨_, _, he⟩ := Reads.eval_bind_ok he
  cases he
  rfl

theorem pendingHolding_ok {q : Proposal} {h : Holding}
    (he : (pendingHolding q).eval s = .ok h) : h.marketValue = q.worstCase := by
  obtain ⟨_, _, he⟩ := Reads.eval_bind_ok he
  cases he
  rfl

private theorem forall₂_map_eq {α β : Type} {R : α → β → Prop} {φ : α → ℚ} {ψ : β → ℚ}
    (hR : ∀ a b, R a b → ψ b = φ a) {as : List α} {bs : List β} (h : List.Forall₂ R as bs) :
    bs.map ψ = as.map φ := by
  induction h with
  | nil => rfl
  | cons hab _ ih => rw [List.map_cons, List.map_cons, ih, hR _ _ hab]

/-- What the commitments left in come to. -/
def committedBut (s : Store) (exclude : Option ℕ) : List Proposal :=
  s.committed.filter fun q => some q.id != exclude

/-- **The book as sizing sees it.** Cash is net of the commitments left in,
there is a holding for each position and each of them, and equity is what
it would be without any. -/
theorem bookState_ok {exclude : Option ℕ} {b : BookState}
    (h : (bookState exclude).eval s = .ok b) : ∃ startEquity, s.paperBook = some startEquity ∧
      b.cash = s.cash startEquity - ((committedBut s exclude).map (·.worstCase)).sum ∧
      b.holdings.length = s.openPositions.length + (committedBut s exclude).length ∧
      b.equity = s.bookEquity startEquity := by
  obtain ⟨row, hrow, h⟩ := Reads.eval_bind_ok h
  cases row with
  | none => cases h
  | some startEquity =>
    obtain ⟨mk, hmk, h⟩ := Reads.eval_bind_ok h
    obtain ⟨xs, hxs, h⟩ := Reads.eval_bind_ok h
    obtain ⟨held, hheld, h⟩ := Reads.eval_bind_ok h
    obtain ⟨qs, hqs, h⟩ := Reads.eval_bind_ok h
    obtain ⟨promised, hpromised, h⟩ := Reads.eval_bind_ok h
    obtain ⟨c, hc, h⟩ := Reads.eval_bind_ok h
    cases h
    obtain rfl : s.paperMarks = mk := Except.ok.inj hmk
    obtain rfl : s.openPositions = xs := Except.ok.inj hxs
    obtain rfl : s.committed = qs := Except.ok.inj hqs
    obtain rfl : s.cash startEquity = c := Except.ok.inj hc
    have hh := Reads.each_ok hheld
    have hp := Reads.each_ok hpromised
    refine ⟨startEquity, Except.ok.inj hrow, rfl, ?_, ?_⟩
    · rw [List.length_append, ← hh.length_eq, ← hp.length_eq]
      rfl
    · have hmh := forall₂_map_eq (fun _ _ h => positionHolding_ok h) hh
      have hmp := forall₂_map_eq (fun _ _ h => pendingHolding_ok h) hp
      unfold Store.bookEquity marketValueOf
      rw [List.map_append, List.sum_append, hmh, hmp]
      unfold Store.markedValue
      ring

end Desk

end TradeDesk
