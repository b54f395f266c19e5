import TradeDesk.Desk.Prices

/-!
# The book's accounts

Cash, open positions and closed trades are three folds over the fills, and
they agree: cash is the starting equity, plus what the closed trades made,
less what the open positions cost (`cash_identity`). Each side is a sum
over the proposals of a term of the proposal's life, and the terms agree
place by place.

The statements that make, post and end a proposal unfilled touch no fill
and no mark, so they leave cash alone, and they leave the equity of
`book_state` alone because it cancels what it promises
(`ProposalStatement.equity`).
-/

namespace TradeDesk.Desk

open TradeDesk.Async

variable {cfg : Settings} {Adm : ∀ q, Answer q → Prop} {a b s init : Store} {log : List Entry}
variable {p : Proposal} {l : Life} {E : ℚ}

/-! ## Closed trades -/

/-- What a closed life made, and what an open one cost. -/
def Life.pnl (m : ℚ) : Life → ℚ
  | closed b x => x.price * x.quantity * m - b.price * b.quantity * m
  | _ => 0

def Life.cost (m : ℚ) : Life → ℚ
  | filling b | held b => b.price * b.quantity * m
  | _ => 0

theorem Life.flow_eq (m : ℚ) (l : Life) : l.flow m + l.cost m = l.pnl m := by
  cases l <;> simp [flow, cost, pnl]

theorem HasLife.closed_iff (h : HasLife s p l) (hq : 0 < p.quantity) :
    (decide (0 < s.bought p.id) && s.bought p.id == s.sold p.id) = match l with
      | .closed _ _ => true
      | _ => false := by
  have hfits := h.fits
  unfold Store.bought Store.sold Store.quantitySum
  rw [h.buys, h.sells]
  cases l with
  | pending | dropped => rfl
  | filling b =>
    have hb : b.quantity = p.quantity := hfits
    simp [Life.buys, Life.sells, hb, ne_of_gt hq]
  | held b =>
    have hb : b.quantity = p.quantity := hfits
    simp [Life.buys, Life.sells, hb, ne_of_gt hq]
  | closed b x =>
    obtain ⟨hb, hx⟩ : b.quantity = p.quantity ∧ x.quantity = p.quantity := hfits
    simp [Life.buys, Life.sells, hb, hx, hq]

theorem HasLife.pnl (h : HasLife s p l) (hq : 0 < p.quantity) :
    (if decide (0 < s.bought p.id) && s.bought p.id == s.sold p.id then (s.closedTradeOf p).pnl
      else 0) = l.pnl (mult p.instrument) := by
  rw [h.closed_iff hq]
  unfold Store.closedTradeOf Store.spentOn
  rw [h.buys, h.sells]
  cases l <;> simp [Life.pnl, Life.buys, Life.sells]

/-- A closed proposal was bought at a price, so its return is a number. -/
theorem spent_ne_zero (hw : WF s) (hpr : Priced s) (hp : p ∈ s.closedProposals) :
    Store.spentOn (mult p.instrument) (s.buys p.id) ≠ 0 := by
  obtain ⟨hmem, hc⟩ := List.mem_filter.mp hp
  obtain ⟨l, hl⟩ := hw.lives p hmem
  have hclosed := (hl.closed_iff (hw.quantity p hmem)).symm.trans hc
  cases l with
  | pending | dropped | filling | held => cases hclosed
  | closed b x =>
    have hb : b ∈ s.buys p.id := by
      rw [hl.buys]
      exact List.mem_singleton.mpr rfl
    obtain ⟨hfill, hside⟩ := List.mem_filter.mp hb
    have hpos : 0 < b.price := hpr.buys b hfill (by simpa using (Bool.and_eq_true_iff.mp hside).2)
    have hbq : b.quantity = p.quantity := hl.fits.1
    have hq : (0 : ℚ) < b.quantity := by
      rw [hbq]
      exact_mod_cast hw.quantity p hmem
    unfold Store.spentOn
    rw [hl.buys]
    simp only [Life.buys, List.map_singleton, List.sum_singleton]
    exact ne_of_gt (mul_pos (mul_pos hpos hq) (mult_pos _))

/-- `closed_trades` answers, one trade for each closed proposal. -/
theorem closedTrades_ok (hw : WF s) (hpr : Priced s) :
    closedTrades.eval s = .ok (s.closedProposals.map s.closedTradeOf) := by
  unfold closedTrades
  rw [Reads.eval_bind, Reads.eval_get]
  refine Reads.each_eval ?_
  intro p hp
  rw [Reads.eval_read, if_neg (spent_ne_zero hw hpr hp), Reads.eval_ret]

/-! ## The identity -/

/-- What the open positions cost. -/
def openCost (s : Store) : ℚ :=
  (s.openPositions.map fun x => x.entryPrice * x.quantity * mult x.instrument).sum

theorem openCost_eq (hw : WF s) (φ : Proposal → Life)
    (hφ : ∀ p ∈ s.proposals, HasLife s p (φ p)) :
    openCost s = (s.proposals.map fun p => (φ p).cost (mult p.instrument)).sum := by
  unfold openCost
  rw [s.openPositions_eq, Table.sum_map_flatMap]
  refine congrArg List.sum (List.map_congr_left fun p hp => ?_)
  rw [(hφ p hp).positionsOf (hw.quantity p hp)]
  cases φ p <;> simp [Life.entry?, Life.cost, Proposal.position]

/-- **Cash is the starting equity, plus what was made, less what is held
at cost.** -/
theorem cash_identity (hw : WF s) :
    s.cash E = E + ((s.closedProposals.map s.closedTradeOf).map (·.pnl)).sum - openCost s := by
  have : Nonempty Life := ⟨.pending⟩
  choose! φ hφ using hw.lives
  have hpnl : ((s.closedProposals.map s.closedTradeOf).map (·.pnl)).sum =
      (s.proposals.map fun p => (φ p).pnl (mult p.instrument)).sum := by
    unfold Store.closedProposals
    rw [List.map_map, Table.sum_map_filter]
    exact congrArg List.sum (List.map_congr_left fun p hp =>
      (hφ p hp).pnl (hw.quantity p hp))
  have hflow : (s.proposals.map s.netFlow).sum + openCost s =
      (s.proposals.map fun p => (φ p).pnl (mult p.instrument)).sum := by
    rw [openCost_eq hw φ hφ, ← List.sum_map_add]
    refine congrArg List.sum (List.map_congr_left fun p hp => ?_)
    rw [(hφ p hp).netFlow, Life.flow_eq]
  rw [s.cash_eq, hpnl, ← hflow]
  ring

/-! ## One proposal's fills -/

/-- The primary key of `proposal_outcomes`. -/
def OneOutcome (s : Store) : Prop := (s.proposalOutcomes.map (·.proposalId)).Nodup

theorem OneOutcome.withOutcome {o : ProposalOutcome} (ha : OneOutcome a)
    (hno : a.hasOutcome o.proposalId = false) : OneOutcome (a.withOutcome o) := by
  unfold OneOutcome Store.withOutcome
  rw [List.map_append, List.nodup_append]
  refine ⟨ha, List.nodup_singleton _, ?_⟩
  intro i hi j hj hij
  obtain ⟨o', ho', rfl⟩ := List.mem_map.mp hi
  rw [List.map_singleton, List.mem_singleton] at hj
  have := List.any_eq_false.mp hno o' ho'
  simp [hij, hj] at this

theorem DeskWrite.oneOutcome {op : Op} {h : History} (hdw : DeskWrite cfg op h a b)
    (ha : OneOutcome a) : OneOutcome b := by
  cases hdw with
  | dropped p o _ _ _ hl hop _ => exact ha.withOutcome (hl.noOutcome rfl hop)
  | filled p e o _ hl hop _ => exact ha.withOutcome (hl.noOutcome rfl hop)
  | call | proposal | extension | tighten | exitRequest | posted | buy | mark | sell | exitDone |
    resolve => exact ha

/-- The outcome of a proposal is its one row's. -/
theorem OneOutcome.outcome?_iff (hs : OneOutcome s) {i : ℕ} {x : Outcome} :
    s.outcome? i = some x ↔ ∃ o ∈ s.proposalOutcomes, o.proposalId = i ∧ o.outcome = x := by
  unfold Store.outcome?
  constructor
  · intro h
    obtain ⟨o, ho, hx⟩ := Option.map_eq_some_iff.mp h
    exact ⟨o, List.mem_of_find?_eq_some ho, by simpa using List.find?_some ho, hx⟩
  · rintro ⟨o, ho, rfl, rfl⟩
    cases hf : s.proposalOutcomes.find? (fun o' => o'.proposalId == o.proposalId) with
    | none => exact absurd (List.find?_eq_none.mp hf o ho) (by simp)
    | some o' =>
      have hid : o'.proposalId = o.proposalId := by simpa using List.find?_some hf
      rw [List.inj_on_of_nodup_map hs (List.mem_of_find?_eq_some hf) ho hid]
      rfl

/-- A purchase goes with the outcome `filled`, and both sides are whole. -/
structure Balanced (s : Store) (p : Proposal) : Prop where
  filled : (∃ f ∈ s.paperFills, f.proposalId = p.id ∧ f.side = .buy) ↔
    ∃ o ∈ s.proposalOutcomes, o.proposalId = p.id ∧ o.outcome = .filled
  bought : s.bought p.id = 0 ∨ s.bought p.id = p.quantity
  sold : s.sold p.id = 0 ∨ s.sold p.id = s.bought p.id

theorem exists_buy_iff {i : ℕ} :
    (∃ f ∈ s.paperFills, f.proposalId = i ∧ f.side = .buy) ↔ s.buys i ≠ [] := by
  unfold Store.buys
  rw [Ne, List.filter_eq_nil_iff]
  push Not
  simp

theorem Sound.balanced (hs : Sound s) (ho : OneOutcome s) (hp : p ∈ s.proposals) :
    Balanced s p := by
  obtain ⟨l, hl⟩ := hs.wf.lives p hp
  have hfits := hl.fits
  refine ⟨?_, ?_, ?_⟩
  · rw [exists_buy_iff, ← ho.outcome?_iff, hl.buys, hl.outcome]
    cases l with
    | pending => simp [Life.buys, Life.outcome]
    | dropped o => simpa [Life.buys, Life.outcome, Life.Fits] using hfits
    | filling b => exact absurd hl (hs.clean p hp b)
    | held b => simp [Life.buys, Life.outcome]
    | closed b x => simp [Life.buys, Life.outcome]
  · unfold Store.bought Store.quantitySum
    rw [hl.buys]
    cases l with
    | pending | dropped => exact Or.inl rfl
    | filling b | held b => exact Or.inr (by simpa [Life.buys, Life.Fits] using hfits)
    | closed b x => exact Or.inr (by simpa [Life.buys] using hfits.1)
  · unfold Store.sold Store.bought Store.quantitySum
    rw [hl.buys, hl.sells]
    cases l with
    | pending | dropped | filling | held => exact Or.inl rfl
    | closed b x => exact Or.inr (by simp [Life.buys, Life.sells, hfits.1, hfits.2])

/-! ## Statements on proposals -/

/-- The statements that make, post and end a proposal unfilled. -/
inductive ProposalStatement (a : Store) : Store → Prop
  | created (callId : ℕ) (t : Instant) (i : Instrument) (sym und : String) (n : ℤ) (mx : ℚ)
      (atr : Option ℚ) : ProposalStatement a (a.addProposal callId t i sym und n mx atr)
  | posted (pid : ℕ) (t d : Instant) (m : Option String) :
      ProposalStatement a (a.stampPosted pid t d m)
  | ended (o : ProposalOutcome) : o.outcome ≠ .filled → ProposalStatement a (a.withOutcome o)

theorem ProposalStatement.paperBook (hst : ProposalStatement a b) : b.paperBook = a.paperBook := by
  cases hst <;> rfl

theorem ProposalStatement.cash (hst : ProposalStatement a b) (hw : WF a) :
    b.cash E = a.cash E := by
  cases hst with
  | created => exact cash_addProposal hw
  | posted => exact cash_stampPosted a
  | ended => rfl

theorem ProposalStatement.bookEquity (hst : ProposalStatement a b) (hw : WF a) :
    b.bookEquity E = a.bookEquity E := by
  cases hst with
  | created => exact bookEquity_addProposal hw
  | posted => exact bookEquity_stampPosted a
  | ended => rfl

/-- `book_state` answers whenever the book has started. -/
theorem bookState_total (hw : WF s) (hbook : s.paperBook = some E) (exclude : Option ℕ) :
    ∃ x, (bookState exclude).eval s = .ok x ∧ x.equity = s.bookEquity E := by
  have hheld : ∃ hs, (Reads.each (positionHolding s.paperMarks) s.openPositions).eval s = .ok hs :=
    Reads.each_total fun x _ => by
      unfold positionHolding
      rw [Reads.eval_bind, hw.currentCallId_eval]
      exact ⟨_, rfl⟩
  have hprom : ∃ hs, (Reads.each pendingHolding (s.committed.filter fun q => some q.id != exclude)
      ).eval s = .ok hs := Reads.each_total fun q _ => ⟨_, rfl⟩
  obtain ⟨hs, hhs⟩ := hheld
  obtain ⟨ps, hps⟩ := hprom
  have hok : ∃ x, (bookState exclude).eval s = .ok x := by
    unfold bookState
    rw [Reads.eval_bind, bookRow, Reads.eval_get, hbook]
    show ∃ x, Reads.eval (marks >>= _) s = .ok x
    rw [Reads.eval_bind, marks, Reads.eval_get]
    show ∃ x, Reads.eval (openPositions >>= _) s = .ok x
    rw [Reads.eval_bind, openPositions, Reads.eval_get]
    show ∃ x, Reads.eval (Reads.each (positionHolding s.paperMarks) s.openPositions >>= _) s = .ok x
    rw [Reads.eval_bind, hhs]
    show ∃ x, Reads.eval (committedProposals >>= _) s = .ok x
    rw [Reads.eval_bind, committedProposals, Reads.eval_get]
    show ∃ x, Reads.eval (Reads.each pendingHolding _ >>= _) s = .ok x
    rw [Reads.eval_bind, hps]
    exact ⟨_, rfl⟩
  obtain ⟨x, hx⟩ := hok
  obtain ⟨E', hE', _, _, heq⟩ := bookState_ok hx
  obtain rfl : E' = E := Option.some.inj (hE'.symm.trans hbook)
  exact ⟨x, hx, heq⟩

/-- The equity `book_state` reports does not move either. -/
theorem ProposalStatement.equity (hst : ProposalStatement a b) (hw : WF a) (hw' : WF b)
    (hbook : a.paperBook = some E) : ∃ x y, (bookState none).eval a = .ok x ∧
      (bookState none).eval b = .ok y ∧ y.equity = x.equity := by
  obtain ⟨x, hx, hxe⟩ := bookState_total hw hbook none
  obtain ⟨y, hy, hye⟩ := bookState_total hw' (hst.paperBook.trans hbook) none
  exact ⟨x, y, hx, hy, by rw [hye, hst.bookEquity hw, hxe]⟩

/-! ## Runs -/

/-- What the accounts rest on. -/
structure Accounts (E : ℚ) (s : Store) : Prop where
  priced : Priced s
  outcomes : OneOutcome s
  book : s.paperBook = some E

theorem DeskWrite.accounts {op : Op} {h : History} (hdw : DeskWrite cfg op h a b)
    (ha : Accounts E a) : Accounts E b :=
  ⟨hdw.priced ha.priced, hdw.oneOutcome ha.outcomes, hdw.paperBook.trans ha.book⟩

theorem World.accounts (hw : World a b) (ha : Accounts E a) : Accounts E b := by
  obtain ⟨_, _, _, _, _, rfl⟩ := hw
  exact ⟨ha.priced.of_same rfl rfl rfl, ha.outcomes, ha.book⟩

theorem Fresh.accounts (hf : Fresh s) (hbook : s.paperBook = some E) : Accounts E s := by
  refine ⟨hf.priced, ?_, hbook⟩
  unfold OneOutcome
  rw [hf.outcomes]
  exact List.nodup_nil

/-- **The book's accounts balance.** After every run each proposal's fills
and outcome go together, cash is the starting equity plus what the closed
trades made less what the open positions cost, and no statement that made,
posted or ended a proposal unfilled moved cash or the book's equity. -/
theorem book_accounts (hrun : Run cfg Adm init log s) (hf : Fresh init)
    (hbook : init.paperBook = some E) :
    (∀ p ∈ s.proposals, Balanced s p) ∧
      (∃ trades, closedTrades.eval s = .ok trades ∧
        s.cash E = E + (trades.map (·.pnl)).sum -
          (s.openPositions.map fun x => x.entryPrice * x.quantity * mult x.instrument).sum) ∧
      ∀ e ∈ log, ∀ a b, .wrote a b ∈ e.hist → ProposalStatement a b → b.cash E = a.cash E ∧
        ∃ x y, (bookState none).eval a = .ok x ∧ (bookState none).eval b = .ok y ∧
          y.equity = x.equity := by
  have hs := hrun.sound hf.sound
  obtain ⟨ha, hhist⟩ := hrun.throughout hf.sound (hf.accounts hbook)
    (fun _ _ _ _ _ _ ha hdw => hdw.accounts ha) fun _ _ ha hw => hw.accounts ha
  refine ⟨fun p hp => hs.balanced ha.outcomes hp,
    ⟨_, closedTrades_ok hs.wf ha.priced, cash_identity hs.wf⟩, fun e he x y hmem hst => ?_⟩
  obtain ⟨h, _, _, _, hw, hdw⟩ := hrun.wrote hf.sound e he x y hmem
  exact ⟨hst.cash hw, hst.equity hw (hdw.wf hw) (hhist e he x y hmem).1.book⟩

/-- The accounts of a position bought and sold at its stop. -/
theorem book_accounts_sold : ∃ log s,
    Run deskSettings AnyAnswer openingStore log s ∧ s.paperFills.length = 2 ∧
    (∀ p ∈ s.proposals, Balanced s p) ∧
      (∃ trades, closedTrades.eval s = .ok trades ∧
        s.cash 10000 = 10000 + (trades.map (·.pnl)).sum -
          (s.openPositions.map fun x => x.entryPrice * x.quantity * mult x.instrument).sum) ∧
      ∀ e ∈ log, ∀ a b, .wrote a b ∈ e.hist → ProposalStatement a b → b.cash 10000 = a.cash 10000 ∧
        ∃ x y, (bookState none).eval a = .ok x ∧ (bookState none).eval b = .ok y ∧
          y.equity = x.equity := by
  obtain ⟨log, hrun, _⟩ := Script.goes_on (buying ++ [watchAt 10 20 44]) opening_run
  exact ⟨log, _, hrun, by decide +kernel, book_accounts hrun openingStore_fresh rfl⟩

end TradeDesk.Desk
