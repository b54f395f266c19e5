import TradeDesk.Desk.Funded
import TradeDesk.Desk.Stops

/-!
# The correlated cluster

A name's cluster is what it holds itself, what shares its sector benchmark
and what correlates with it. `check_book` adds up the cluster of the name
an order is for, and that name joins other clusters too: those of the names
it shares a benchmark or correlates with. Neither relation carries over (a
name may be called under two benchmarks, and correlation is not
transitive), so a cluster the order joins need not be part of the one that
was checked. Where it is worth no more than that one, the cap is kept
(`Submissions.clusters`).

Every cluster of a book is read off `bookState` (`bookState_holdings`), to
which a submission adds one holding and whose equity it does not move
(`book_submitted`).
-/

namespace TradeDesk.Desk

open TradeDesk.Async

variable {cfg : Settings} {Adm : ∀ q, Answer q → Prop} {h : History} {s s' : Store}
variable {now : Instant} {cin : CallIn}

/-! ## Clusters -/

/-- The daily returns of two names correlate above the threshold. -/
def correlates (cfg : Settings) (s : Store) (x y : String) : Bool :=
  match cfg.rules.get .manual "correlation_threshold" with
  | .error _ => false
  | .ok threshold =>
    (logReturnCorr cfg (s.barsFor x none (some corrBars)) (s.barsFor y none (some corrBars))).any
      fun r => threshold < r

/-- A name and the benchmark its call named. -/
abbrev Tag := String × String

def Holding.tag (x : Holding) : Tag := (x.symbol, x.benchmark)

/-- In the cluster of a name: the name itself, one that correlates with it,
or one under a sector benchmark it is held under. -/
def clustered (cfg : Settings) (s : Store) (tags : List Tag) (name : String) (t : Tag) : Bool :=
  t.1 == name || correlates cfg s name t.1 ||
    tags.any fun k => k.1 == name && k.2 != "SPY" && t.2 == k.2

/-- The holdings in a name's cluster. -/
def clusterOf (cfg : Settings) (s : Store) (hs : List Holding) (tags : List Tag) (name : String) :
    List Holding :=
  hs.filter fun x => clustered cfg s tags name x.tag

/-- Every name's cluster is within the cap of the book's equity. -/
def ClustersWithin (cfg : Settings) (s : Store) : Prop :=
  ∀ book, (bookState none).eval s = .ok book → ∀ x ∈ book.holdings, ∃ pct,
    cfg.rules.get .manual "correlation_cap_pct" = .ok pct ∧
      marketValueOf (clusterOf cfg s book.holdings (book.holdings.map Holding.tag) x.symbol) ≤
        capDollars pct book.equity

/-! ## Submissions one after another -/

/-- The name and the benchmark of a request. -/
def CallIn.tag? (cfg : Settings) (cin : CallIn) : Option Tag :=
  (checkBenchmark cfg.upper cin.benchmark).toOption.map fun b => (cfg.upper (strip cin.symbol), b)

/-- No cluster the order joins is worth more than the order's own. -/
def JoinsNoLarger (cfg : Settings) (cin : CallIn) (s : Store) : Prop :=
  ∀ book t, (bookState none).eval s = .ok book → cin.tag? cfg = some t →
    let tags := book.holdings.map Holding.tag ++ [t]
    ∀ x ∈ book.holdings, clustered cfg s tags x.symbol t = true →
      marketValueOf (clusterOf cfg s book.holdings tags x.symbol) ≤
        marketValueOf (clusterOf cfg s book.holdings [t] t.1)

/-- Requests for funded calls, one after another and with nothing else in
between; those that are accepted meet `C`. -/
inductive Submissions (cfg : Settings) (Adm : ∀ q, Answer q → Prop) (C : CallIn → Store → Prop)
    (init : Store) : Store → Prop
  | start : Submissions cfg Adm C init init
  | accepted {s s' : Store} {h : History} (now : Instant) (cin : CallIn) (out : CallOut) :
      Submissions cfg Adm C init s → cin.funding ≠ .none → C cin s →
      Runs Adm (submitCall cfg now cin) [] s (.ok out) h s' → Submissions cfg Adm C init s'
  | refused {s s' : Store} {h : History} (now : Instant) (cin : CallIn) (e : Exc) :
      Submissions cfg Adm C init s → cin.funding ≠ .none →
      Runs Adm (submitCall cfg now cin) [] s (.error e) h s' → Submissions cfg Adm C init s'

/-! ## The names that correlate -/

theorem correlatedLoop_mem {symbol : String} {threshold : ℚ} {y : String} :
    ∀ {hs : List Holding} {out res : List String},
      (correlatedLoop cfg symbol threshold (s.barsFor symbol none (some corrBars)) hs out).eval s =
        .ok res →
      (y ∈ res ↔ y ∈ out ∨ y ≠ symbol ∧ y ∈ hs.map (·.symbol) ∧
        (logReturnCorr cfg (s.barsFor symbol none (some corrBars))
          (s.barsFor y none (some corrBars))).any (fun r => threshold < r) = true) := by
  intro hs
  induction hs with
  | nil =>
    intro out res he
    obtain rfl := Except.ok.inj he
    simp
  | cons x xs ih =>
    intro out res he
    unfold correlatedLoop at he
    split at he
    next hskip =>
      rw [ih he, List.map_cons, List.mem_cons]
      rcases hskip with hsym | hout
      · constructor
        · rintro (ho | ⟨hne, hm, ha⟩)
          · exact .inl ho
          · exact .inr ⟨hne, .inr hm, ha⟩
        · rintro (ho | ⟨hne, hm | hm, ha⟩)
          · exact .inl ho
          · exact absurd (hm.trans hsym) hne
          · exact .inr ⟨hne, hm, ha⟩
      · constructor
        · rintro (ho | ⟨hne, hm, ha⟩)
          · exact .inl ho
          · exact .inr ⟨hne, .inr hm, ha⟩
        · rintro (ho | ⟨hne, hm | hm, ha⟩)
          · exact .inl ho
          · exact .inl (hm ▸ hout)
          · exact .inr ⟨hne, hm, ha⟩
    next hskip =>
      obtain ⟨hne, hout⟩ := not_or.mp hskip
      obtain ⟨theirs, htheirs, he⟩ := Reads.eval_bind_ok he
      obtain rfl : s.barsFor x.symbol none (some corrBars) = theirs := Except.ok.inj htheirs
      rw [ih he, List.map_cons, List.mem_cons]
      split
      next habove =>
        rw [List.mem_append, List.mem_singleton]
        constructor
        · rintro ((ho | rfl) | ⟨hy, hm, ha⟩)
          · exact .inl ho
          · exact .inr ⟨hne, .inl rfl, habove⟩
          · exact .inr ⟨hy, .inr hm, ha⟩
        · rintro (ho | ⟨hy, hm | hm, ha⟩)
          · exact .inl (.inl ho)
          · exact .inl (.inr hm)
          · exact .inr ⟨hy, hm, ha⟩
      next habove =>
        constructor
        · rintro (ho | ⟨hy, hm, ha⟩)
          · exact .inl ho
          · exact .inr ⟨hy, .inr hm, ha⟩
        · rintro (ho | ⟨hy, hm | hm, ha⟩)
          · exact .inl ho
          · rw [hm] at ha
            exact absurd ha habove
          · exact .inr ⟨hy, hm, ha⟩

/-- The names found are those of the book that correlate. -/
theorem correlatedWith_mem {symbol : String} {book : BookState} {res : List String} {y : String}
    (he : (correlatedWith cfg symbol book).eval s = .ok res) (hy : y ≠ symbol)
    (hm : y ∈ book.holdings.map (·.symbol)) : y ∈ res ↔ correlates cfg s symbol y = true := by
  obtain ⟨threshold, ht, he⟩ := Reads.eval_bind_ok he
  obtain ⟨mine, hmine, he⟩ := Reads.eval_bind_ok he
  obtain rfl : s.barsFor symbol none (some corrBars) = mine := Except.ok.inj hmine
  rw [Reads.eval_check] at ht
  rw [correlatedLoop_mem he]
  unfold correlates
  rw [ht]
  simp only [List.not_mem_nil, false_or]
  exact ⟨fun h => h.2.2, fun h => ⟨hy, hm, h⟩⟩

/-- The cluster `check_book` adds up is the name's own. -/
theorem checkedCluster_eq {symbol bench : String} {book : BookState} {correlated : List String}
    (he : (correlatedWith cfg symbol book).eval s = .ok correlated) :
    checkedCluster book symbol bench correlated =
      clusterOf cfg s book.holdings [(symbol, bench)] symbol := by
  unfold checkedCluster clusterOf clustered
  refine List.filter_congr ?_
  intro x hx
  rw [Bool.eq_iff_iff]
  by_cases hsym : x.symbol = symbol
  · simp [Holding.tag, hsym]
  · have hmem : x.symbol ∈ correlated ↔ correlates cfg s symbol x.symbol = true :=
      correlatedWith_mem he hsym (List.mem_map_of_mem hx)
    simp [Holding.tag, hsym, hmem]

/-! ## What the book holds -/

/-- A pending proposal as the book holds it. -/
def heldAs (s : Store) (q : Proposal) : Holding :=
  ⟨q.underlying, q.worstCase, benchmarkOf (s.call? q.callId), q.instrument != .shares,
    if q.instrument != .shares then q.worstCase else 0, true⟩

/-- An open position as the book holds it. -/
def openAs (s : Store) (x : PaperPosition) : Holding :=
  ⟨x.underlying, s.markedValue x, benchmarkOf (s.call? (s.currentCall x.callId)),
    x.instrument != .shares,
    if x.instrument != .shares then x.entryPrice * x.quantity * mult x.instrument else 0, false⟩

/-- A plan as the book holds it once it is proposed. -/
def Plan.holding (plan : Plan) (symbol bench : String) : Holding :=
  ⟨symbol, plan.cost, bench, plan.instrument != .shares,
    if plan.instrument != .shares then plan.cost else 0, true⟩

/-- The chain of extensions is read off the calls alone. -/
theorem currentCallId_of_calls (hcalls : s'.calls = s.calls) (i : ℕ) :
    (currentCallId i).eval s' = (currentCallId i).eval s := by
  have hext : s'.extension? = s.extension? := by
    unfold Store.extension?
    rw [hcalls]
  have hfollow : ∀ n k, (followExtensions n k).eval s' = (followExtensions n k).eval s := by
    intro n
    induction n with
    | zero => intro k; rfl
    | succ n ih =>
      intro k
      unfold followExtensions
      rw [Reads.eval_read, Reads.eval_read, hext]
      cases s.extension? k with
      | none => rfl
      | some c => exact ih c.id
  unfold currentCallId
  rw [Reads.eval_read, Reads.eval_read, hext, hcalls]
  cases s.extension? i with
  | none => rfl
  | some c => exact hfollow _ c.id

/-- **The book is the open positions and the pending proposals**, its equity
what it would be without the latter. -/
theorem bookState_eval {E : ℚ} (hcur : ∀ i, (currentCallId i).eval s = .ok (s.currentCall i))
    (hE : s.paperBook = some E) :
    (bookState none).eval s = .ok ⟨s.bookEquity E, s.cash E - s.committedCost,
      s.openPositions.map (openAs s) ++ s.committed.map (heldAs s)⟩ := by
  have hopen : ∀ x ∈ s.openPositions,
      (positionHolding s.paperMarks x).eval s = .ok (openAs s x) := by
    intro x _
    unfold positionHolding
    rw [Reads.eval_bind, hcur]
    rfl
  have hall : s.committed.filter (fun q => some q.id != none) = s.committed :=
    List.filter_eq_self.mpr fun _ _ => rfl
  have hvalue : marketValueOf (s.openPositions.map (openAs s) ++ s.committed.map (heldAs s)) =
      (s.openPositions.map s.markedValue).sum + s.committedCost := by
    unfold marketValueOf
    rw [List.map_append, List.sum_append, List.map_map, List.map_map]
    rfl
  unfold bookState
  rw [Reads.eval_bind, bookRow, Reads.eval_get, hE]
  show Reads.eval (marks >>= _) s = _
  rw [Reads.eval_bind, marks, Reads.eval_get]
  show Reads.eval (openPositions >>= _) s = _
  rw [Reads.eval_bind, openPositions, Reads.eval_get]
  show Reads.eval (Reads.each (positionHolding s.paperMarks) s.openPositions >>= _) s = _
  rw [Reads.eval_bind, Reads.each_eval hopen]
  show Reads.eval (committedProposals >>= _) s = _
  rw [Reads.eval_bind, committedProposals, Reads.eval_get]
  show Reads.eval (Reads.each pendingHolding _ >>= _) s = _
  rw [hall, Reads.eval_bind, Reads.each_eval (g := heldAs s) fun _ _ => rfl]
  show Except.ok (BookState.mk (s.cash E - s.committedCost + marketValueOf _) _ _) = _
  rw [hvalue]
  unfold Store.bookEquity
  congr 2
  ring

/-! ## What a submission adds to it -/

section Submitted

variable {c : NewCall} {t : Instant} {i : Instrument} {sym und : String} {n : ℤ} {mx : ℚ}
variable {atr : Option ℚ}

/-- A call that is there stays the one its id finds. -/
theorem call?_addCall_old {k : ℕ} {d : Call} (hold : s.call? k = some d) :
    (s.addCall c).call? k = some d := by
  unfold Store.call? Store.addCall
  dsimp only
  rw [List.find?_append]
  unfold Store.call? at hold
  rw [hold]
  rfl

/-- A pending call keeps its benchmark when another call is made. -/
theorem heldAs_submitted {q : Proposal} (hw : WF s) (hq : q ∈ s.committed) :
    heldAs ((s.addCall c).addProposal (nextId (s.calls.map (·.id))) t i sym und n mx atr) q =
      heldAs s q := by
  obtain ⟨d, hd, hid, _⟩ := hw.proposalCall q (List.mem_filter.mp hq).1
  have hold : s.call? q.callId = some d := hid ▸ hw.call?_mem hd
  unfold heldAs
  show (⟨_, _, benchmarkOf ((s.addCall c).call? q.callId), _, _, _⟩ : Holding) = _
  rw [call?_addCall_old hold, hold]

/-- So does a position, and it keeps its mark. -/
theorem openAs_submitted {x : PaperPosition} (hw : WF s) (hnew : c.extendsCallId = none)
    (hx : x ∈ s.openPositions) :
    openAs ((s.addCall c).addProposal (nextId (s.calls.map (·.id))) t i sym und n mx atr) x =
      openAs s x := by
  obtain ⟨d, hd, hid, _⟩ := hw.currentCall_of_open hx
  have hold : s.call? (s.currentCall x.callId) = some d := hid ▸ hw.call?_mem hd
  have hcur : (s.addCall c).currentCall x.callId = s.currentCall x.callId :=
    currentCall_addCall fun he => by rw [hnew] at he; cases he
  unfold openAs
  show (⟨_, s.markedValue x, benchmarkOf ((s.addCall c).call? ((s.addCall c).currentCall x.callId)),
    _, _, _⟩ : Holding) = _
  rw [hcur, call?_addCall_old hold, hold]

/-- The store with a plan's call and its proposal. -/
abbrev Plan.proposed (plan : Plan) (s : Store) (c : NewCall) (now : Instant) : Store :=
  (s.addCall c).addProposal (nextId (s.calls.map (·.id))) now plan.instrument plan.symbol c.symbol
    plan.quantity plan.maxEntry plan.atrPct

/-- **What an accepted submission does to the book**: one more holding, at
the plan's cost, which the cash no longer has, and the same equity. -/
theorem book_submitted (plan : Plan) {book : BookState} (hw : WF s)
    (hnew : c.extendsCallId = none) (hb : (bookState none).eval s = .ok book) :
    (bookState none).eval (plan.proposed s c now) = .ok ⟨book.equity, book.cash - plan.cost,
      book.holdings ++ [plan.holding c.symbol c.benchmark]⟩ := by
  have hwc : WF (s.addCall c) := hw.addCall fun i hi => by rw [hnew] at hi; cases hi
  obtain ⟨E, hE, _⟩ := bookState_ok hb
  obtain rfl := Except.ok.inj (hb.symm.trans (bookState_eval hw.currentCallId_eval hE))
  have hcur : ∀ i, (currentCallId i).eval (plan.proposed s c now) =
      .ok ((plan.proposed s c now).currentCall i) := by
    intro i
    have hcalls : (plan.proposed s c now).calls = (s.addCall c).calls := rfl
    rw [currentCallId_of_calls hcalls, hwc.currentCallId_eval]
    rfl
  have hopen : (s.addCall c).openPositions.map (openAs (plan.proposed s c now)) =
      s.openPositions.map (openAs s) :=
    List.map_congr_left fun x hx => openAs_submitted hw hnew hx
  have hheld : (s.addCall c).committed.map (heldAs (plan.proposed s c now)) =
      s.committed.map (heldAs s) :=
    List.map_congr_left fun q hq => heldAs_submitted hw hq
  have hlast : heldAs (plan.proposed s c now) (insertedProposal (s.addCall c)
      (nextId (s.calls.map (·.id))) now plan.instrument plan.symbol c.symbol plan.quantity
      plan.maxEntry plan.atrPct) = plan.holding c.symbol c.benchmark := by
    unfold heldAs
    show (⟨_, _, benchmarkOf ((s.addCall c).call? (nextId (s.calls.map (·.id)))), _, _, _⟩ :
      Holding) = _
    rw [call?_addCall]
    rfl
  rw [bookState_eval hcur hE, bookEquity_addProposal hwc, cash_addProposal hwc,
    committedCost_addProposal hwc, openPositions_addProposal hwc, committed_addProposal hwc,
    List.map_append, List.map_singleton, hopen, hheld, hlast, ← List.append_assoc, ← sub_sub]
  rfl

end Submitted

/-! ## One more holding -/

theorem marketValueOf_append (as bs : List Holding) :
    marketValueOf (as ++ bs) = marketValueOf as + marketValueOf bs := by
  unfold marketValueOf
  rw [List.map_append, List.sum_append]

/-- A name an order is not for keeps the benchmarks it is held under. -/
theorem clustered_append {tags : List Tag} {t u : Tag} {name : String} (hne : t.1 ≠ name) :
    clustered cfg s (tags ++ [t]) name u = clustered cfg s tags name u := by
  have hlast : (t.1 == name) = false := by simpa using hne
  unfold clustered
  rw [List.any_append, List.any_cons, List.any_nil, hlast]
  simp

/-- A name not held yet is held under the order's benchmark alone. -/
theorem clustered_first {tags : List Tag} {t u : Tag} (hnew : ∀ k ∈ tags, k.1 ≠ t.1) :
    clustered cfg s (tags ++ [t]) t.1 u = clustered cfg s [t] t.1 u := by
  have hnone : (tags.any fun k => k.1 == t.1 && k.2 != "SPY" && u.2 == k.2) = false := by
    rw [List.any_eq_false]
    intro k hk
    simp [hnew k hk]
  unfold clustered
  rw [List.any_append, hnone, Bool.false_or]

/-- **One submission.** The clusters the order joins grow by its cost, and
were worth no more than the one that was checked. -/
theorem clusters_step {hs : List Holding} {n : Holding} {cap : ℚ}
    (hold : ∀ x ∈ hs, marketValueOf (clusterOf cfg s hs (hs.map Holding.tag) x.symbol) ≤ cap)
    (hcheck : marketValueOf (clusterOf cfg s hs [n.tag] n.tag.1) + n.marketValue ≤ cap)
    (hjoin : ∀ x ∈ hs, clustered cfg s (hs.map Holding.tag ++ [n.tag]) x.symbol n.tag = true →
      marketValueOf (clusterOf cfg s hs (hs.map Holding.tag ++ [n.tag]) x.symbol) ≤
        marketValueOf (clusterOf cfg s hs [n.tag] n.tag.1)) :
    ∀ x ∈ hs ++ [n], marketValueOf
      (clusterOf cfg s (hs ++ [n]) ((hs ++ [n]).map Holding.tag) x.symbol) ≤ cap := by
  intro x hx
  rw [List.map_append, List.map_singleton]
  have hsplit : clusterOf cfg s (hs ++ [n]) (hs.map Holding.tag ++ [n.tag]) x.symbol =
      clusterOf cfg s hs (hs.map Holding.tag ++ [n.tag]) x.symbol ++
        [n].filter fun y => clustered cfg s (hs.map Holding.tag ++ [n.tag]) x.symbol y.tag :=
    List.filter_append _ _
  rw [hsplit, marketValueOf_append]
  by_cases hj : clustered cfg s (hs.map Holding.tag ++ [n.tag]) x.symbol n.tag = true
  · -- the order joins this cluster
    have hone : marketValueOf [n] = n.marketValue := by
      unfold marketValueOf
      rw [List.map_singleton, List.sum_singleton]
    rw [List.filter_cons_of_pos (by exact hj), List.filter_nil, hone]
    refine le_trans (add_le_add_left ?_ _) hcheck
    by_cases hheld : ∃ y ∈ hs, y.symbol = x.symbol
    · obtain ⟨y, hy, hsym⟩ := hheld
      rw [← hsym] at hj ⊢
      exact hjoin y hy hj
    · -- it is the order's own, and the name was not held
      have hxn : x.symbol = n.tag.1 := by
        rcases List.mem_append.mp hx with hx | hx
        · exact absurd ⟨x, hx, rfl⟩ hheld
        · rw [List.mem_singleton.mp hx]
          rfl
      have hnew : ∀ k ∈ hs.map Holding.tag, k.1 ≠ n.tag.1 := by
        intro k hk he
        obtain ⟨y, hy, rfl⟩ := List.mem_map.mp hk
        exact hheld ⟨y, hy, he.trans hxn.symm⟩
      rw [hxn]
      unfold clusterOf
      refine le_of_eq (congrArg marketValueOf (List.filter_congr ?_))
      intro y _
      exact clustered_first hnew
  · -- it does not, so the cluster is what it was
    have hne : n.tag.1 ≠ x.symbol := by
      intro he
      refine hj ?_
      unfold clustered
      simp [he]
    have hxs : x ∈ hs := by
      rcases List.mem_append.mp hx with hx | hx
      · exact hx
      · rw [List.mem_singleton.mp hx] at hne
        exact absurd rfl hne
    rw [List.filter_cons_of_neg (by simpa using hj), List.filter_nil]
    have hsame : clusterOf cfg s hs (hs.map Holding.tag ++ [n.tag]) x.symbol =
        clusterOf cfg s hs (hs.map Holding.tag) x.symbol :=
      List.filter_congr fun y _ => clustered_append hne
    rw [hsame]
    unfold marketValueOf at hold ⊢
    simpa using hold x hxs

/-- What the clusters are judged by does not change. -/
theorem clusters_of_bars {hs : List Holding} {tags : List Tag} {name : String}
    (hbars : s'.bars = s.bars) : clusterOf cfg s' hs tags name = clusterOf cfg s hs tags name := by
  unfold clusterOf clustered correlates Store.barsFor
  rw [hbars]

/-- An accepted submission keeps every cluster within the cap. -/
theorem Left.clusters {out : CallOut} (hl : Left cfg now cin s (.ok out) h s') (hw : WF s)
    (hfund : cin.funding ≠ .none) (hopen : s.openPositions = []) (hc : ClustersWithin cfg s)
    (hjoin : JoinsNoLarger cfg cin s) :
    s'.openPositions = [] ∧ ClustersWithin cfg s' := by
  cases hl with
  | unfunded _ c hnone _ => exact absurd hnone hfund
  | funded _ c plan book correlated hnew hsym hbench hfunded _ =>
    have hwc : WF (s.addCall c) := hw.addCall fun i hi => by rw [hnew] at hi; cases hi
    refine ⟨(openPositions_addProposal hwc).trans hopen, ?_⟩
    intro book' hb'
    have hbook : (bookState none).eval (plan.proposed s c now) = _ :=
      book_submitted plan hw hnew hfunded.state
    obtain rfl := Except.ok.inj (hbook.symm.trans hb')
    obtain ⟨pct, hpct, hle⟩ := (checkBook_caps hfunded.check).1
    rw [checkedCluster_eq hfunded.names] at hle
    have hle : marketValueOf (clusterOf cfg s book.holdings
        [(plan.holding c.symbol c.benchmark).tag] (plan.holding c.symbol c.benchmark).tag.1) +
        (plan.holding c.symbol c.benchmark).marketValue ≤ capDollars pct book.equity := hle
    have ht : cin.tag? cfg = some (plan.holding c.symbol c.benchmark).tag := by
      unfold CallIn.tag?
      rw [hbench, hsym]
      rfl
    intro x hx
    refine ⟨pct, hpct, ?_⟩
    have hbars : (plan.proposed s c now).bars = s.bars := rfl
    have hjoin := hjoin book _ hfunded.state ht
    generalize plan.holding c.symbol c.benchmark = n at *
    rw [clusters_of_bars hbars]
    refine clusters_step ?_ hle hjoin x hx
    intro y hy
    obtain ⟨pct', hpct', hcap⟩ := hc book hfunded.state y hy
    obtain rfl : pct' = pct := Except.ok.inj (hpct'.symm.trans hpct)
    exact hcap

/-- What a run of submissions keeps. -/
theorem Submissions.keeps {init : Store}
    (hrun : Submissions cfg Adm (JoinsNoLarger cfg) init s) (hinit : Sound init)
    (hopen : init.openPositions = []) (hnone : init.committed = []) :
    Sound s ∧ s.openPositions = [] ∧ ClustersWithin cfg s := by
  induction hrun with
  | start =>
    refine ⟨hinit, hopen, ?_⟩
    intro book hb x hx
    obtain ⟨E, hE, _⟩ := bookState_ok hb
    obtain rfl := Except.ok.inj (hb.symm.trans (bookState_eval hinit.wf.currentCallId_eval hE))
    dsimp only at hx
    rw [hopen, hnone] at hx
    cases hx
  | accepted now cin out _ hfund hjoin hruns ih =>
    obtain ⟨hs, ho, hc⟩ := ih
    exact ⟨((submitCall_spec hs).runs hruns).1,
      (submitCall_left.runs hruns).clusters hs.wf hfund ho hc hjoin⟩
  | refused now cin e _ _ hruns ih =>
    have hleft := submitCall_left.runs hruns
    cases hleft with
    | refused => exact ih

/-- **The calls of a run keep every name's cluster within the cap**, if no
cluster that an accepted order joins is worth more than the order's own. -/
theorem clusters_within_cap {init : Store}
    (hrun : Submissions cfg Adm (JoinsNoLarger cfg) init s) (hinit : Sound init)
    (hopen : init.openPositions = []) (hnone : init.committed = []) : ClustersWithin cfg s :=
  (hrun.keeps hinit hopen hnone).2.2

/-! ## Two benchmarks -/

/-- A ledger with a book and three quiet names, no call yet. The names have
no day in common, so no two correlate. -/
def threeNames : Store :=
  { openingStore with
    bars := [("AAA", 9), ("BBB", 8), ("CCC", 7)].flatMap fun (name, month) =>
      (List.range 15).map fun n => (name, quietBar month (10 + n))
    universeRows := ["AAA", "BBB", "CCC"].map fun name => ⟨dayNumber 2026 9 26, name, 10000000, true⟩ }

def putOsi : String := "AAA   261120P00050000"

/-- All trade at fifty, and a put on AAA at two. -/
def quotingSectors (now : Instant) : (q : Query) → Answer q
  | .quotes _ => .ok ((putOsi, ⟨putOsi, 2, 2, 2, now⟩) ::
      ["AAA", "BBB", "CCC", "SPY", "XLK", "XLE"].map fun name => (name, ⟨name, 50, 50, 50, now⟩))
  | .optionChain _ _ _ _ => .ok [⟨putOsi, .put, 2, 2, some (-3 / 5), 1000, 40⟩]
  | .reactionUsers _ _ => .reply 200 (.users [])
  | .post _ => true
  | .postMessage _ => some "m1"

/-- Up from fifty by shares, under the technology benchmark. -/
def callTech (symbol : String) (conviction : ℕ) : CallIn :=
  ⟨none, symbol, .up, "thesis", "60", "47", 5, conviction, "XLK", .shares, some "50", none, false⟩

/-- Down from fifty by a put, under the energy benchmark. -/
def callEnergy : CallIn :=
  ⟨none, "AAA", .down, "thesis", "40", "53", 5, 5, "XLE", .put, none, some putOsi, false⟩

/-- One submission of Monday morning, and the store it leaves. -/
def submitting (cin : CallIn) (s : Store) : Config Store Query Answer Exc CallOut :=
  runWith (quotingSectors (fromMonday 9 50)) (submitCall deskSettings (fromMonday 9 50) cin) [] s

theorem submitting_runs (cin : CallIn) (s : Store) (out : CallOut)
    (hout : (submitting cin s).prog.ended? = some (.ok out)) :
    Runs AnyAnswer (submitCall deskSettings (fromMonday 9 50) cin) [] s (.ok out)
      (submitting cin s).hist (submitting cin s).store := by
  have hsteps : Steps AnyAnswer _ (submitting cin s) := runWith_steps (fun _ => trivial) _ [] s
  unfold Runs
  rw [← Prog.ended?_some hout]
  exact hsteps

theorem Submissions.submit {C : CallIn → Store → Prop} {init s : Store}
    (hrun : Submissions deskSettings AnyAnswer C init s) (cin : CallIn) (out : CallOut)
    (hfund : cin.funding ≠ .none) (hC : C cin s)
    (hout : (submitting cin s).prog.ended? = some (.ok out)) :
    Submissions deskSettings AnyAnswer C init (submitting cin s).store :=
  .accepted (fromMonday 9 50) cin out hrun hfund hC (submitting_runs cin s out hout)

def sharesOut (id : ℕ) (symbol : String) (quantity : ℤ) : CallOut :=
  ⟨id, .pm, 50, some ⟨id, .shares, symbol, quantity, 50⟩⟩

theorem threeNames_sound : Sound threeNames :=
  (Fresh.sound ⟨rfl, rfl, fun _ hr => (by cases hr), rfl, rfl, rfl, rfl, rfl⟩)

/-- The books of three calls, and of the put. -/
def afterFirst : Store := (submitting (callTech "AAA" 5) threeNames).store
def afterSecond : Store := (submitting (callTech "BBB" 5) afterFirst).store
def afterThird : Store := (submitting (callTech "CCC" 3) afterSecond).store
def afterPut : Store := (submitting callEnergy afterThird).store

theorem afterFirst_wf : WF afterFirst := by
  have hout : (submitting (callTech "AAA" 5) threeNames).prog.ended? =
      some (.ok (sharesOut 1 "AAA" 40)) := by decide +kernel
  exact ((submitCall_spec threeNames_sound).runs (submitting_runs _ _ _ hout)).1.wf

def techHolding (symbol : String) (value : ℚ) : Holding := ⟨symbol, value, "XLK", false, 0, true⟩

/-- The put joins the technology cluster of its own name, which nobody adds
up with it. -/
theorem cluster_overCap : ¬ ∀ (cfg : Settings) (Adm : ∀ q, Answer q → Prop) (init s : Store),
    Submissions cfg Adm (fun _ _ => True) init s → Sound init → init.openPositions = [] →
      init.committed = [] → ClustersWithin cfg s := by
  intro hall
  have hstart : Submissions deskSettings AnyAnswer (fun _ _ => True) threeNames threeNames := .start
  have hfirst : Submissions _ _ _ _ afterFirst :=
    hstart.submit (callTech "AAA" 5) (sharesOut 1 "AAA" 40) (by decide) trivial
      (by decide +kernel)
  have hsecond : Submissions _ _ _ _ afterSecond :=
    hfirst.submit (callTech "BBB" 5) (sharesOut 2 "BBB" 40) (by decide) trivial
      (by decide +kernel)
  have hthird : Submissions _ _ _ _ afterThird :=
    hsecond.submit (callTech "CCC" 3) (sharesOut 3 "CCC" 20) (by decide) trivial
      (by decide +kernel)
  have hput : Submissions _ _ _ _ afterPut :=
    hthird.submit callEnergy ⟨4, .pm, 50, some ⟨4, .put, putOsi, 4, 21 / 10⟩⟩
      (by decide) trivial (by decide +kernel)
  have hclusters := hall _ _ _ _ hput threeNames_sound rfl rfl
  have hbook : (bookState none).eval afterPut = .ok ⟨10000, 4160, [techHolding "AAA" 2000,
      techHolding "BBB" 2000, techHolding "CCC" 1000, ⟨"AAA", 840, "XLE", true, 840, true⟩]⟩ := by
    decide +kernel
  obtain ⟨pct, hpct, hle⟩ := hclusters _ hbook (techHolding "AAA" 2000) List.mem_cons_self
  have hfifty : deskSettings.rules.get .manual "correlation_cap_pct" = .ok 50 := by decide +kernel
  obtain rfl := Except.ok.inj (hfifty.symm.trans hpct)
  revert hle
  decide +kernel

theorem joinsNoLarger_of (book : BookState) (t : Tag) (hb : (bookState none).eval s = .ok book)
    (ht : cin.tag? cfg = some t)
    (hall : ∀ x ∈ book.holdings,
      clustered cfg s (book.holdings.map Holding.tag ++ [t]) x.symbol t = true →
        marketValueOf (clusterOf cfg s book.holdings (book.holdings.map Holding.tag ++ [t])
          x.symbol) ≤ marketValueOf (clusterOf cfg s book.holdings [t] t.1)) :
    JoinsNoLarger cfg cin s := by
  intro book' t' hb' ht'
  obtain rfl := Except.ok.inj (hb.symm.trans hb')
  obtain rfl := Option.some.inj (ht.symm.trans ht')
  exact hall

/-- Two technology calls share the one cluster that both were checked for. -/
theorem cluster_within_shared : ClustersWithin deskSettings afterSecond := by
  have hstart : Submissions deskSettings AnyAnswer (JoinsNoLarger deskSettings) threeNames
      threeNames := .start
  have hfirst : Submissions _ _ _ _ afterFirst :=
    hstart.submit (callTech "AAA" 5) (sharesOut 1 "AAA" 40) (by decide)
      (joinsNoLarger_of ⟨10000, 10000, []⟩ ("AAA", "XLK") (by decide +kernel)
        (by decide +kernel) fun x hx => by cases hx) (by decide +kernel)
  have hsecond : Submissions _ _ _ _ afterSecond :=
    hfirst.submit (callTech "BBB" 5) (sharesOut 2 "BBB" 40) (by decide)
      (joinsNoLarger_of ⟨10000, 8000, [techHolding "AAA" 2000]⟩ ("BBB", "XLK")
        (by decide +kernel) (by decide +kernel) (by decide +kernel)) (by decide +kernel)
  exact clusters_within_cap hsecond threeNames_sound rfl rfl

end TradeDesk.Desk
