import TradeDesk.Desk.Cluster

/-!
# A funded order fits the book it joins

Three computations of one cost: the quantity is sized from the limit price
and the multiplier (`shareQuantity`, `optionQuantity`), the order is checked
at their product (`checkBook`), and the book adds the pending proposal up
again from its row (`bookState`). They agree (`Plan.cost`,
`book_submitted`), so what was checked of the book without the order holds
of the book with it. That includes the cluster: the order's own name never
counts as correlated with itself, so the names found are the same.

The quantity is a quotient rounded towards zero, which is the largest that
fits only for a positive price. A share limit is parsed as one; an option's
may be a chase below a negative quote, but the budget a candidate was within
is positive, and a negative price would then buy less than one contract
(`Funded.positive`).
-/

namespace TradeDesk.Desk

open TradeDesk.Async

variable {cfg : Settings} {Adm : ∀ q, Answer q → Prop} {h : History} {s s' : Store}
variable {now : Instant} {cin : CallIn} {out : CallOut}

/-! ## The caps, of a book with the order in it -/

/-- What an order costs at its limit. -/
def ProposalOut.worstCase (p : ProposalOut) : ℚ :=
  p.maxEntryPrice * p.quantity * mult p.instrument

/-- Every cap that `checkBook` enforces on an order, of the book that holds
it at its worst case. -/
structure WithinCaps (cfg : Settings) (s : Store) (symbol bench : String) (p : ProposalOut)
    (book : BookState) : Prop where
  count : ∃ maxPos, cfg.rules.getInt .strategy "max_funded_positions" = .ok maxPos ∧
    (book.holdings.length : ℤ) ≤ maxPos
  reserve : cfg.reserve ≤ book.cash
  sameName : ∃ pct, cfg.rules.singlePositionPct = .ok pct ∧
    marketValueOf (book.holdings.filter fun h => h.symbol == symbol) ≤ capDollars pct book.equity
  premium : p.instrument ≠ .shares → ∃ pct, cfg.rules.optionSinglePositionPct = .ok pct ∧
    p.worstCase ≤ capDollars pct book.equity
  openPremium : p.instrument ≠ .shares → ∃ pct, cfg.rules.optionOpenPremiumPct = .ok pct ∧
    book.openPremium ≤ capDollars pct book.equity
  cluster : ∃ correlated pct, (correlatedWith cfg symbol book).eval s = .ok correlated ∧
    cfg.rules.get .manual "correlation_cap_pct" = .ok pct ∧
    marketValueOf (checkedCluster book symbol bench correlated) ≤ capDollars pct book.equity

/-- The quantity costs no more than the budget of the conviction, and every
larger one does. -/
def Largest (cfg : Settings) (cin : CallIn) (equity : ℚ) (p : ProposalOut) : Prop :=
  ∃ pct, convictionPct (p.instrument != .shares) cin.conviction cfg.rules = .ok pct ∧
    p.worstCase ≤ capDollars pct equity ∧
    ∀ n : ℤ, p.maxEntryPrice * n * mult p.instrument ≤ capDollars pct equity → n ≤ p.quantity

/-! ## What the check says of the totals -/

/-- The order fits on top of its own name, and an option on top of the
premium that is open. -/
theorem checkBook_totals {book : BookState} {symbol benchmark : String} {notional : ℚ}
    {isOption : Bool} {correlated : List String} {rules : Rules} {reserve : ℚ} {u : Unit}
    (h : checkBook book symbol benchmark notional isOption correlated rules reserve = .ok u) :
    (∃ pct, rules.singlePositionPct = .ok pct ∧
      marketValueOf (book.holdings.filter fun h => h.symbol == symbol) + notional ≤
        capDollars pct book.equity) ∧
      (isOption = true → ∃ pct, rules.optionOpenPremiumPct = .ok pct ∧
        book.openPremium + notional ≤ capDollars pct book.equity) := by
  obtain ⟨_, _, h⟩ := except_bind_ok h
  obtain ⟨_, _, h⟩ := except_bind_ok h
  obtain ⟨_, _, h⟩ := except_bind_ok h
  obtain ⟨pct, hpct, h⟩ := except_bind_ok h
  obtain ⟨_, hsame, h⟩ := except_bind_ok h
  refine ⟨⟨pct, hpct, not_lt.mp (refuseIf_ok hsame)⟩, ?_⟩
  intro hopt
  rw [hopt] at h
  obtain ⟨_, _, h⟩ := except_bind_ok h
  obtain ⟨_, _, h⟩ := except_bind_ok h
  obtain ⟨pct', hpct', h⟩ := except_bind_ok h
  obtain ⟨_, hopen, _⟩ := except_bind_ok h
  exact ⟨pct', hpct', not_lt.mp (refuseIf_ok hopen)⟩

/-! ## One more holding -/

section Appended

variable {book : BookState} {n : Holding}

theorem marketValueOf_filter_append {f : Holding → Bool} (hs : List Holding) (hn : f n = true) :
    marketValueOf ((hs ++ [n]).filter f) = marketValueOf (hs.filter f) + n.marketValue := by
  rw [List.filter_append, List.filter_cons_of_pos hn, List.filter_nil, marketValueOf_append]
  unfold marketValueOf
  rw [List.map_singleton, List.sum_singleton]

/-- The premium of a pending option counts as open. -/
theorem openPremium_append {equity cash : ℚ} (hn : n.isOption = true) :
    (BookState.mk equity cash (book.holdings ++ [n])).openPremium =
      book.openPremium + n.premiumPaid := by
  unfold BookState.openPremium
  rw [List.filter_append, List.filter_cons_of_pos hn, List.filter_nil, List.map_append,
    List.sum_append, List.map_singleton, List.sum_singleton]

/-- With a threshold the search for correlated names always ends. -/
theorem correlatedWith_total {threshold : ℚ}
    (ht : cfg.rules.get .manual "correlation_threshold" = .ok threshold) (symbol : String)
    (book : BookState) : ∃ correlated, (correlatedWith cfg symbol book).eval s = .ok correlated := by
  have hloop : ∀ (hs : List Holding) (mine : List DailyBar) (out : List String),
      ∃ res, (correlatedLoop cfg symbol threshold mine hs out).eval s = .ok res := by
    intro hs mine
    induction hs with
    | nil => exact fun out => ⟨out, rfl⟩
    | cons x xs ih =>
      intro out
      unfold correlatedLoop
      split
      · exact ih out
      · exact ih _
  unfold correlatedWith
  rw [Reads.eval_bind, Reads.eval_check, ht]
  exact hloop _ _ _

/-- **The cluster that is checked afterwards is the one that was checked
before, and the order.** -/
theorem checkedCluster_append {symbol bench : String} {correlated correlated' : List String}
    {equity cash : ℚ} (hn : n.symbol = symbol) (hbars : s'.bars = s.bars)
    (he : (correlatedWith cfg symbol book).eval s = .ok correlated)
    (he' : (correlatedWith cfg symbol ⟨equity, cash, book.holdings ++ [n]⟩).eval s' =
      .ok correlated') :
    marketValueOf (checkedCluster ⟨equity, cash, book.holdings ++ [n]⟩ symbol bench correlated') =
      marketValueOf (checkedCluster book symbol bench correlated) + n.marketValue := by
  rw [checkedCluster_eq he, checkedCluster_eq he', clusters_of_bars hbars]
  refine marketValueOf_filter_append _ ?_
  unfold clustered
  simp [Holding.tag, hn]

end Appended

/-! ## Whole units of a budget -/

/-- **A whole quotient is the largest number of units that fits.** -/
theorem wholeUnits_largest {budget per : ℚ} {qty : ℤ} (hu : wholeUnits budget per = .ok qty)
    (hone : 1 ≤ qty) (hper : 0 < per) :
    per * qty ≤ budget ∧ ∀ n : ℤ, per * n ≤ budget → n ≤ qty := by
  unfold wholeUnits at hu
  rw [if_neg hper.ne'] at hu
  cases hu
  have hpos : 0 ≤ budget / per := le_trans zero_le_one (one_le_of_truncInt hone)
  have hfloor : truncInt (budget / per) = ⌊budget / per⌋ := if_pos hpos
  rw [hfloor]
  constructor
  · have hle := Int.floor_le (budget / per)
    rw [mul_comm]
    exact (le_div_iff₀ hper).mp hle
  · intro n hn
    refine Int.le_floor.mpr ((le_div_iff₀ hper).mpr ?_)
    rw [mul_comm]
    exact hn

/-- What a plan is sized to. -/
theorem Funded.units {symbol bench : String} {plan : Plan} {book : BookState}
    {correlated : List String} (hf : Funded cfg cin h s symbol bench plan book correlated) :
    ∃ pct, convictionPct (plan.instrument != .shares) cin.conviction cfg.rules = .ok pct ∧
      wholeUnits (capDollars pct book.equity) (plan.maxEntry * mult plan.instrument) =
        .ok plan.quantity ∧ 1 ≤ plan.quantity := by
  have hsized := hf.sized
  by_cases hi : plan.instrument = .shares
  · rw [if_pos hi] at hsized
    rw [hi, mult, mul_one]
    exact shareQuantity_units hsized
  · rw [if_neg hi] at hsized
    have hopt : (plan.instrument != .shares) = true := by simpa using hi
    rw [hopt, mult_option hi]
    exact optionQuantity_units hsized

/-- The order of a plan. -/
def Plan.order (plan : Plan) (id : ℕ) : ProposalOut :=
  ⟨id, plan.instrument, plan.symbol, plan.quantity, plan.maxEntry⟩

theorem Funded.largest {symbol bench : String} {plan : Plan} {book : BookState}
    {correlated : List String} {id : ℕ}
    (hf : Funded cfg cin h s symbol bench plan book correlated) :
    Largest cfg cin book.equity (plan.order id) := by
  obtain ⟨pct, hpct, hunits, hone⟩ := hf.units
  have hper : 0 < plan.maxEntry * mult plan.instrument := mul_pos hf.positive (mult_pos _)
  obtain ⟨hfits, hmax⟩ := wholeUnits_largest hunits hone hper
  refine ⟨pct, hpct, ?_, ?_⟩
  · show plan.maxEntry * plan.quantity * mult plan.instrument ≤ _
    rw [mul_right_comm]
    exact hfits
  · intro n hn
    refine hmax n ?_
    rw [mul_right_comm]
    exact hn

/-! ## The submission -/

/-- What was checked of the book without the order holds of the book with it. -/
theorem Funded.withinCaps {bench : String} {c : NewCall} {plan : Plan} {book : BookState}
    {correlated : List String} {id : ℕ}
    (hf : Funded cfg cin h s c.symbol bench plan book correlated) :
    WithinCaps cfg (plan.proposed s c now) c.symbol bench (plan.order id)
      ⟨book.equity, book.cash - plan.cost, book.holdings ++ [plan.holding c.symbol bench]⟩ := by
  obtain ⟨⟨maxPos, hmax, hroom⟩, hreserve⟩ := checkBook_ok hf.check
  obtain ⟨⟨pct, hpct, hcluster⟩, hone⟩ := checkBook_caps hf.check
  obtain ⟨⟨single, hsingle, hsame⟩, hopen⟩ := checkBook_totals hf.check
  have hoption : plan.instrument ≠ .shares → (plan.instrument != .shares) = true := by
    intro hi
    simpa using hi
  constructor
  case count =>
    refine ⟨maxPos, hmax, ?_⟩
    rw [List.length_append, List.length_singleton]
    push_cast
    omega
  case reserve => exact hreserve
  case sameName =>
    refine ⟨single, hsingle, ?_⟩
    refine le_of_eq_of_le ?_ hsame
    exact marketValueOf_filter_append book.holdings (beq_self_eq_true c.symbol)
  case premium => exact fun hi => hone (hoption hi)
  case openPremium =>
    intro hi
    obtain ⟨pct', hpct', hle⟩ := hopen (hoption hi)
    refine ⟨pct', hpct', ?_⟩
    have hpaid : (plan.holding c.symbol bench).premiumPaid = plan.cost := if_pos (hoption hi)
    rw [openPremium_append (hoption hi), hpaid]
    exact hle
  case cluster =>
    obtain ⟨threshold, ht, _⟩ := Reads.eval_bind_ok hf.names
    rw [Reads.eval_check] at ht
    obtain ⟨correlated', he'⟩ := correlatedWith_total (s := plan.proposed s c now) ht c.symbol
      ⟨book.equity, book.cash - plan.cost, book.holdings ++ [plan.holding c.symbol bench]⟩
    have hname : (plan.holding c.symbol bench).symbol = c.symbol := rfl
    have hbars : (plan.proposed s c now).bars = s.bars := rfl
    refine ⟨correlated', pct, he', hpct, ?_⟩
    exact le_of_eq_of_le (checkedCluster_append hname hbars hf.names he') hcluster

end TradeDesk.Desk
