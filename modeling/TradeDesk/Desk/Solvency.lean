import TradeDesk.Desk.Prices
import TradeDesk.Purse
import Mathlib.Algebra.Order.BigOperators.Group.List

/-!
# The paper book is solvent

The book is a purse (`purse`): cash is on hand, the worst case of every
proposal without an outcome and without an entry fill is promised, and it
carries the open positions and those proposals. Every statement of the
desk is a move of the purse (`DeskWrite.move`): funding promises what
`checkBook` let through, an entry keeps its promise at no more than its
limit, an expiry or a drop lets it go, a sale brings in a price that is
not negative. So the purse's own run lemma is the book's.

The check of a submission is on the book without the call it inserts; the
re-check at the fill price is not needed for any of this.
-/

namespace TradeDesk.Desk

open TradeDesk.Async

variable {cfg : Settings} {op : Op} {h : History} {a b s : Store} {p : Proposal}
variable {E : ℚ} {init : Store}

def purse (E : ℚ) (s : Store) : Purse ℚ := ⟨s.cash E, s.committedCost, s.slots⟩

theorem Alike.purse (hab : Alike a b) : purse E b = purse E a := by
  unfold Desk.purse
  rw [hab.cash, hab.committedCost, hab.slots]

theorem worstCase_nonneg (hw : WF s) (hl : Limits s) (hp : p ∈ s.proposals) : 0 ≤ p.worstCase := by
  have hq : (0 : ℚ) ≤ p.quantity := by exact_mod_cast le_of_lt (hw.quantity p hp)
  exact mul_nonneg (mul_nonneg (hl p hp) hq) (le_of_lt (mult_pos _))

theorem promised_nonneg (hw : WF s) (hl : Limits s) (hp : p ∈ s.proposals) :
    0 ≤ s.promised p := by
  unfold Store.promised
  split
  · exact worstCase_nonneg hw hl hp
  · exact le_refl 0

theorem committedCost_nonneg (hw : WF s) (hl : Limits s) : 0 ≤ s.committedCost := by
  rw [s.committedCost_eq]
  refine List.sum_nonneg fun x hx => ?_
  obtain ⟨p, hp, rfl⟩ := List.mem_map.mp hx
  exact promised_nonneg hw hl hp

/-- One proposal's worst case is part of what is promised. -/
theorem worstCase_le (hw : WF s) (hl : Limits s) (hp : p ∈ s.proposals)
    (hlife : HasLife s p .pending) : p.worstCase ≤ s.committedCost := by
  rw [s.committedCost_eq, ← show s.promised p = p.worstCase from hlife.promised]
  refine List.single_le_sum (fun x hx => ?_) _ (List.mem_map.mpr ⟨p, hp, rfl⟩)
  obtain ⟨q, hq, rfl⟩ := List.mem_map.mp hx
  exact promised_nonneg hw hl hq

/-! ## Statements are moves -/

theorem purse_stampPosted {pid : ℕ} {t d : Instant} {m : Option String} :
    purse E (s.stampPosted pid t d m) = purse E s := by
  unfold purse
  rw [cash_stampPosted, committedCost_stampPosted, slots_stampPosted]

/-- The purse after one proposal moved on: the purse whose fields differ by
that proposal's terms. -/
theorem Touch.purse_eq {l l' : Life} {q : Purse ℚ} (ht : Touch a b p l l') (hw : WF a)
    (hfree : q.free + l.flow (mult p.instrument) = (purse E a).free + l'.flow (mult p.instrument))
    (hpledged : q.pledged + l.promised p = (purse E a).pledged + l'.promised p)
    (hcarried : q.carried + l.slots = (purse E a).carried + l'.slots) : purse E b = q := by
  have hcash := ht.cash (E := E) hw
  have hcost := ht.committedCost hw
  have hslots := ht.slots hw
  exact Purse.ext (add_right_cancel (hcash.trans hfree.symm))
    (add_right_cancel (hcost.trans hpledged.symm))
    (add_right_cancel (b := (l.slots : ℤ)) ((by exact_mod_cast hslots : (b.slots : ℤ) + l.slots =
      a.slots + l'.slots).trans hcarried.symm))

/-- A funded submission promises what the book could take. -/
theorem PlanOk.pledge {cin : CallIn} {symbol bench : String} {plan : Plan}
    (hplan : PlanOk cfg cin h a symbol bench plan) (hbook : a.paperBook = some E) :
    (∃ cap, cfg.rules.getInt .strategy "max_funded_positions" = .ok cap ∧ (a.slots : ℤ) < cap) ∧
      cfg.reserve ≤ a.cash E - a.committedCost -
        plan.maxEntry * plan.quantity * mult plan.instrument := by
  obtain ⟨book, correlated, hstate, hcheck⟩ := hplan.book
  obtain ⟨E', hE', hcash, hlen, _⟩ := bookState_ok hstate
  obtain rfl : E' = E := Option.some.inj (hE'.symm.trans hbook)
  obtain ⟨⟨cap, hcap, hroom⟩, hres⟩ := checkBook_ok hcheck
  have hall : committedBut a none = a.committed := by
    unfold committedBut
    exact List.filter_eq_self.mpr fun _ _ => rfl
  rw [hall] at hcash hlen
  refine ⟨⟨cap, hcap, ?_⟩, ?_⟩
  · rw [hlen] at hroom
    exact hroom
  · rw [hcash] at hres
    exact hres

/-- An entry at or under its limit keeps a promise. -/
theorem pay_move {f : PaperFill} {cap : ℤ} (hw : WF a) (hl : Limits a) (hp : p ∈ a.proposals)
    (hlife : HasLife a p .pending) (hf : f.proposalId = p.id) (hside : f.side = .buy)
    (hq : f.quantity = p.quantity) (hprice : f.price ≤ p.maxEntryPrice) :
    Purse.Move cfg.reserve cap (purse E a) (purse E (a.addFill f)) := by
  have hle : f.price * f.quantity * mult p.instrument ≤ p.worstCase := by
    have hqn : (0 : ℚ) ≤ p.quantity := by exact_mod_cast le_of_lt (hw.quantity p hp)
    rw [hq]
    exact mul_le_mul_of_nonneg_right (mul_le_mul_of_nonneg_right hprice hqn)
      (le_of_lt (mult_pos _))
  rw [(Touch.fill hp hlife hf hside hq).purse_eq hw
    (q := ⟨(purse E a).free - f.price * f.quantity * mult p.instrument,
      (purse E a).pledged - p.worstCase, (purse E a).carried⟩)
    (by simp only [Life.flow]; ring) (by simp only [Life.promised]; ring) rfl]
  exact .pay _ _ _ hle (worstCase_le hw hl hp hlife)

/-- A proposal that ends unfilled lets its promise go. -/
theorem release_move {o : ProposalOutcome} {cap : ℤ} (hw : WF a) (hl : Limits a)
    (hp : p ∈ a.proposals) (hlife : HasLife a p .pending) (hop : o.proposalId = p.id)
    (hne : o.outcome ≠ .filled) :
    Purse.Move cfg.reserve cap (purse E a) (purse E (a.withOutcome o)) := by
  rw [(Touch.drop hp hlife hop hne).purse_eq hw
    (q := ⟨(purse E a).free, (purse E a).pledged - p.worstCase, (purse E a).carried - 1⟩)
    rfl (by simp only [Life.promised]; ring) (by simp [Life.slots])]
  exact .release _ _ (worstCase_nonneg hw hl hp) (worstCase_le hw hl hp hlife)

/-- A sale brings in its price. -/
theorem sell_move {f e : PaperFill} {cap : ℤ} (hw : WF a) (hp : p ∈ a.proposals)
    (hlife : HasLife a p (.held e)) (hf : f.proposalId = p.id) (hside : f.side = .sell)
    (hq : f.quantity = p.quantity) (hprice : 0 ≤ f.price) :
    Purse.Move cfg.reserve cap (purse E a) (purse E (a.addFill f)) := by
  have hqn : (0 : ℚ) ≤ f.quantity := by
    rw [hq]
    exact_mod_cast le_of_lt (hw.quantity p hp)
  rw [(Touch.sell hp hlife hf hside hq).purse_eq hw
    (q := ⟨(purse E a).free + f.price * f.quantity * mult p.instrument, (purse E a).pledged,
      (purse E a).carried - 1⟩)
    (by simp only [Life.flow]; ring) rfl (by simp [Life.slots])]
  exact .sell _ _ (mul_nonneg (mul_nonneg hprice hqn) (le_of_lt (mult_pos _)))

/-- A proposal is added to the promises. -/
theorem pledge_move {plan : Plan} {callId : ℕ} {t : Instant} {sym : String} {cap : ℤ} (hw : WF a)
    (hq : 0 < plan.quantity) (hmax : 0 ≤ plan.maxEntry) (hroom : (a.slots : ℤ) < cap)
    (hres : cfg.reserve ≤ a.cash E - a.committedCost -
      plan.maxEntry * plan.quantity * mult plan.instrument) :
    Purse.Move cfg.reserve cap (purse E a) (purse E (a.addProposal callId t plan.instrument
      plan.symbol sym plan.quantity plan.maxEntry plan.atrPct)) := by
  have hnew : purse E (a.addProposal callId t plan.instrument plan.symbol sym plan.quantity
      plan.maxEntry plan.atrPct) = ⟨(purse E a).free,
        (purse E a).pledged + plan.maxEntry * plan.quantity * mult plan.instrument,
        (purse E a).carried + 1⟩ := by
    unfold purse
    rw [cash_addProposal hw, committedCost_addProposal hw, slots_addProposal hw hq]
    push_cast
    rfl
  rw [hnew]
  exact .pledge _ _ (mul_nonneg (mul_nonneg hmax (by exact_mod_cast le_of_lt hq))
    (le_of_lt (mult_pos _))) hres hroom

/-- **Every statement of the desk is a move of the purse.** -/
theorem DeskWrite.move {cap : ℤ} (hdw : DeskWrite cfg op h a b) (hw : WF a) (hpr : Priced a)
    (hl : Limits a) (hbook : a.paperBook = some E) (ht : Told NonNegQuotes h)
    (hc : ChaseOk cfg.rules)
    (hcap : ∀ c, cfg.rules.getInt .strategy "max_funded_positions" = .ok c → c = cap) :
    Purse.Move cfg.reserve cap (purse E a) (purse E b) := by
  have hidle : purse E b = purse E a → Purse.Move cfg.reserve cap (purse E a) (purse E b) :=
    fun hsame => hsame ▸ .idle _
  cases hdw with
  | call | extension | tighten | exitRequest | mark | exitDone | resolve =>
    exact hidle (Alike.purse ⟨rfl, rfl, rfl⟩)
  | posted p veto mid _ _ _ _ => exact hidle purse_stampPosted
  | @proposal now cin _ a₀ c plan _ _ hplan =>
    -- the book was judged without the call, which changes nothing in it
    have hab : Alike a₀ (a₀.addCall c) := ⟨rfl, rfl, rfl⟩
    obtain ⟨⟨cap', hcap', hroom⟩, hres⟩ := hplan.pledge hbook
    obtain rfl := hcap cap' hcap'
    have hq : 0 < plan.quantity := by have := hplan.quantity; omega
    refine pledge_move hw hq (hplan.limit.nonneg ht hc) ?_ ?_
    · rw [hab.slots]
      exact hroom
    · rw [hab.cash, hab.committedCost]
      exact hres
  | dropped p o _ _ hp hlife hop hne => exact release_move hw hl hp hlife hop hne
  | buy p ask stop hp hlife hok => exact pay_move hw hl hp hlife rfl rfl rfl hok.limit
  | filled p e o hp hlife hop hfilled =>
    exact hidle ((Touch.settle hp hlife hop hfilled).purse_eq hw rfl rfl rfl)
  | sell p e price reason hp hlife hat =>
    exact sell_move hw hp hlife rfl rfl hlife.fits (hat.nonneg ht hpr)

/-! ## Runs -/

/-- What the book is between any two statements. -/
structure Solvent (cfg : Settings) (E : ℚ) (cap : ℤ) (s : Store) : Prop where
  priced : Priced s
  limits : Limits s
  book : s.paperBook = some E
  purse : (purse E s).Solvent cfg.reserve cap

theorem DeskWrite.solvent {cap : ℤ} (hdw : DeskWrite cfg op h a b) (hw : WF a)
    (hs : Solvent cfg E cap a) (ht : Told NonNegQuotes h) (hc : ChaseOk cfg.rules)
    (hcap : ∀ c, cfg.rules.getInt .strategy "max_funded_positions" = .ok c → c = cap) :
    Solvent cfg E cap b where
  priced := hdw.priced hs.priced
  limits := hdw.limits hs.limits ht hc
  book := hdw.paperBook.trans hs.book
  purse := (hdw.move hw hs.priced hs.limits hs.book ht hc hcap).solvent hs.purse

theorem World.solvent {cap : ℤ} (hw : World a b) (hs : Solvent cfg E cap a) :
    Solvent cfg E cap b := by
  obtain ⟨_, _, _, _, _, rfl⟩ := hw
  exact ⟨hs.priced.of_same rfl rfl rfl, hs.limits, hs.book, hs.purse⟩

/-- An empty book with the reserve in it is solvent. -/
theorem Fresh.solvent {cap : ℤ} (hf : Fresh s) (hbook : s.paperBook = some E)
    (hE : cfg.reserve ≤ E) (h0 : 0 ≤ cap) : Solvent cfg E cap s := by
  have hcash : s.cash E = E := by
    rw [s.cash_eq, hf.proposals]
    exact add_zero E
  have hcost : s.committedCost = 0 := by
    rw [s.committedCost_eq, hf.proposals]
    rfl
  have hslots : s.slots = 0 := by
    rw [s.slots_eq, hf.proposals]
    rfl
  refine ⟨hf.priced, fun p hp => ?_, hbook, ?_, ?_, ?_⟩
  · rw [hf.proposals] at hp
    cases hp
  · simp only [Desk.purse, hcash, hcost, sub_zero]
    exact hE
  · simp only [Desk.purse, hcost, le_refl]
  · simp only [Desk.purse, hslots]
    exact_mod_cast h0

theorem Reached.solvent {cap : ℤ} (hr : Reached cfg NonNegQuotes init s) (hf : Fresh init)
    (hbook : init.paperBook = some E) (hE : cfg.reserve ≤ E) (hc : ChaseOk cfg.rules)
    (h0 : 0 ≤ cap)
    (hcap : ∀ c, cfg.rules.getInt .strategy "max_funded_positions" = .ok c → c = cap) :
    WF s ∧ Solvent cfg E cap s :=
  hr.keeps hf.sound (hf.solvent hbook hE h0)
    (fun _ _ _ _ ht hw hs hdw => hdw.solvent hw hs ht hc hcap) fun _ _ hs hw => hw.solvent hs

/-! ## Entry fills in any order -/

/-- Purchases of distinct pending proposals, each whole and at no more than
its limit. -/
structure EntryFills (s : Store) (fills : List PaperFill) : Prop where
  distinct : (fills.map (·.proposalId)).Nodup
  fits : ∀ f ∈ fills, f.side = .buy ∧ ∃ p ∈ s.committed, p.id = f.proposalId ∧
    f.quantity = p.quantity ∧ f.price ≤ p.maxEntryPrice

theorem pending_of_committed (hw : WF s) (hp : p ∈ s.committed) :
    p ∈ s.proposals ∧ HasLife s p .pending := by
  obtain ⟨hmem, hc⟩ := List.mem_filter.mp hp
  obtain ⟨l, hl⟩ := hw.lives p hmem
  have hcom := hl.isCommitted.symm.trans hc
  cases l with
  | pending => exact ⟨hmem, hl⟩
  | dropped | filling | held | closed => cases hcom

theorem committed_of_pending (hp : p ∈ s.proposals) (hl : HasLife s p .pending) :
    p ∈ s.committed :=
  List.mem_filter.mpr ⟨hp, hl.isCommitted⟩

theorem EntryFills.tail {f : PaperFill} {fills : List PaperFill} (hw : WF s)
    (hf : EntryFills s (f :: fills)) : EntryFills (s.addFill f) fills where
  distinct := (List.nodup_cons.mp hf.distinct).2
  fits := fun g hg => by
    obtain ⟨hside, r, hrc, hid, hrest⟩ := hf.fits g (List.mem_cons_of_mem f hg)
    obtain ⟨hr, hrl⟩ := pending_of_committed hw hrc
    refine ⟨hside, r, committed_of_pending hr (hrl.addFill_ne fun he => ?_), hid, hrest⟩
    exact (List.nodup_cons.mp hf.distinct).1 (List.mem_map.mpr ⟨g, hg, (he.trans hid).symm⟩)

/-- Keeping promises one after another, in this order. -/
theorem EntryFills.moves {cap : ℤ} : ∀ {fills : List PaperFill} {s : Store}, WF s → Limits s →
    EntryFills s fills →
    Purse.Moves cfg.reserve cap (purse E s) (purse E (fills.foldl Store.addFill s))
  | [], _, _, _, _ => .refl
  | f :: fills, s, hw, hl, hf => by
    obtain ⟨hside, p, hpc, hid, hq, hprice⟩ := hf.fits f List.mem_cons_self
    obtain ⟨hp, hlife⟩ := pending_of_committed hw hpc
    have hw' := hw.addFill hp hid.symm (hlife.fill hid.symm hside hq)
    rw [List.foldl_cons]
    exact .head (pay_move hw hl hp hlife hid.symm hside hq hprice)
      (EntryFills.moves hw' hl (hf.tail hw))

/-- **The paper book is solvent.** In every state the desk can be found
in, cash less the worst case of every pending proposal is at least the
reserve, the open positions and the pending proposals are no more than
`max_funded_positions`, and filling pending proposals, in whatever order,
leaves at least the reserve in cash. -/
theorem paperBook_solvent (hr : Reached cfg NonNegQuotes init s) (hf : Fresh init)
    (hbook : init.paperBook = some E) (hE : cfg.reserve ≤ E) (hc : ChaseOk cfg.rules)
    (hmax : ∀ c, cfg.rules.getInt .strategy "max_funded_positions" = .ok c → 0 ≤ c) :
    cfg.reserve ≤ s.cash E - (s.committed.map (·.worstCase)).sum ∧
      (∀ c, cfg.rules.getInt .strategy "max_funded_positions" = .ok c →
        ((s.openPositions.length + s.committed.length : ℕ) : ℤ) ≤ c) ∧
      ∀ fills, EntryFills s fills → cfg.reserve ≤ (fills.foldl Store.addFill s).cash E := by
  -- a rule that cannot be read funds nothing, so any cap will do for it
  obtain ⟨cap, h0, hcap⟩ : ∃ cap : ℤ, 0 ≤ cap ∧
      ∀ c, cfg.rules.getInt .strategy "max_funded_positions" = .ok c → c = cap := by
    cases hread : cfg.rules.getInt .strategy "max_funded_positions" with
    | error e => exact ⟨0, le_refl 0, fun c hc => by cases hc⟩
    | ok cap => exact ⟨cap, hmax cap hread, fun c hc => (Except.ok.inj hc).symm⟩
  obtain ⟨hw, hs⟩ := hr.solvent hf hbook hE hc h0 hcap
  refine ⟨hs.purse.covered, fun c hget => ?_, fun fills hfills => ?_⟩
  · rw [hcap c hget]
    exact hs.purse.room
  · exact ((hfills.moves hw hs.limits).solvent hs.purse).reserve_le_free

/-- The book of one bought position, and what it leaves to spend. -/
theorem paperBook_solvent_bought :
    let s := buying.play deskSettings openingStore
    deskSettings.reserve ≤ s.cash 10000 - (s.committed.map (·.worstCase)).sum ∧
      (∀ c, rulesYml.getInt .strategy "max_funded_positions" = .ok c →
        ((s.openPositions.length + s.committed.length : ℕ) : ℤ) ≤ c) ∧
      ∀ fills, EntryFills s fills → deskSettings.reserve ≤ (fills.foldl Store.addFill s).cash 10000 := by
  have hprice : (0 : ℚ) ≤ 50 := by decide +kernel
  have hbuying : ∀ x ∈ buying, ∀ q, NonNegQuotes q (x.2 q) := fun x hx => by
    rcases List.mem_cons.mp hx with rfl | hx
    · exact quoting_nonNeg hprice
    rcases List.mem_cons.mp hx with rfl | hx
    · exact quoting_nonNeg hprice
    · obtain rfl := List.mem_singleton.mp hx
      exact quoting_nonNeg hprice
  have hstart : Run deskSettings NonNegQuotes openingStore [] openingStore := .start
  obtain ⟨log, hrun, _⟩ := Script.play_run hbuying hstart
  have hchase : rulesYml.get .strategy "max_entry_chase_pct" = .ok 5 := by decide +kernel
  have hmax : rulesYml.getInt .strategy "max_funded_positions" = .ok 8 := by decide +kernel
  refine paperBook_solvent hrun.reached openingStore_fresh rfl (by decide +kernel)
    (fun chase hc => ?_) fun c hc => ?_
  · obtain rfl := Except.ok.inj (hchase.symm.trans hc)
    decide +kernel
  · obtain rfl := Except.ok.inj (hmax.symm.trans hc)
    decide

end TradeDesk.Desk
