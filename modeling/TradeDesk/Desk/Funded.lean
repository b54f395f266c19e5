import TradeDesk.Desk.Specs

/-!
# What a funded submission was funded on

`submitCall_spec` says what a submission may write. Here the same program
is followed for what its result says: the book it was checked against, the
names that book was found to correlate with, and, of an option, that its
cost is a function of the request, the equity of that book and the ask the
broker quoted last (`optionCost`). The caps are then read off `checkBook`.
-/

namespace TradeDesk.Desk

open TradeDesk.Async

variable {cfg : Settings} {Adm : ∀ q, Answer q → Prop} {α : Type}
variable {h h' : History} {s s' : Store} {now : Instant} {cin : CallIn}

/-! ## The last quotes -/

/-- The broker's last answer to a request for quotes. -/
def lastQuotes : History → Option Quotes
  | [] => none
  | .asked (.quotes _) (.ok quotes) :: _ => some quotes
  | _ :: h => lastQuotes h

/-- What a contract was last quoted at. -/
def lastAsk (h : History) (symbol : String) : Option ℚ :=
  (lastQuotes h).bind fun quotes => (quotes.get? symbol).map (·.ask)

/-- What an option order costs at its limit: as much as the budget of the
conviction buys. -/
def optionCost (rules : Rules) (cin : CallIn) (equity ask : ℚ) : Except Exc ℚ := do
  let chase ← rules.get .strategy "max_entry_chase_pct"
  let maxEntry ← optionLimit cin chase ask
  let qty ← optionQuantity cin.conviction equity maxEntry rules
  return maxEntry * qty * optionMultiplier

/-! ## The plan -/

def Plan.cost (plan : Plan) : ℚ := plan.maxEntry * plan.quantity * mult plan.instrument

theorem mult_option {i : Instrument} (hi : i ≠ .shares) : mult i = optionMultiplier := by
  cases i with
  | shares => exact absurd rfl hi
  | call => rfl
  | put => rfl

/-- What a plan was checked against. -/
structure Funded (cfg : Settings) (cin : CallIn) (h : History) (s : Store) (symbol bench : String)
    (plan : Plan) (book : BookState) (correlated : List String) : Prop where
  state : (bookState none).eval s = .ok book
  names : (correlatedWith cfg symbol book).eval s = .ok correlated
  check : checkBook book symbol bench plan.cost (plan.instrument != .shares) correlated cfg.rules
    cfg.reserve = .ok ()
  option : plan.instrument ≠ .shares → ∃ ask, lastAsk h plan.symbol = some ask ∧
    optionCost cfg.rules cin book.equity ask = .ok plan.cost
  sized : if plan.instrument = .shares then
      shareQuantity cin.conviction book.equity plan.maxEntry cfg.rules = .ok plan.quantity
    else optionQuantity cin.conviction book.equity plan.maxEntry cfg.rules = .ok plan.quantity
  positive : 0 < plan.maxEntry

@[simp] theorem lastQuotes_wrote (a b : Store) : lastQuotes (.wrote a b :: h) = lastQuotes h := rfl

/-- A write is no answer. -/
theorem Funded.wrote {symbol bench : String} {plan : Plan} {book : BookState}
    {correlated : List String} {a b : Store}
    (hf : Funded cfg cin h s symbol bench plan book correlated) :
    Funded cfg cin (.wrote a b :: h) s symbol bench plan book correlated := by
  refine ⟨hf.state, hf.names, hf.check, ?_, hf.sized, hf.positive⟩
  intro hopt
  obtain ⟨ask, hask, hcost⟩ := hf.option hopt
  refine ⟨ask, ?_, hcost⟩
  unfold lastAsk at hask ⊢
  rw [lastQuotes_wrote]
  exact hask

/-- No write follows from anything here: only results are of interest. -/
abbrev NoGuarantee : History → Store → Store → Prop := fun _ _ _ => True

/-- An answered request is the last one. -/
theorem freshQuotes_last (symbols : List String) :
    Always Adm NoGuarantee (fun r h' s' => s' = s ∧
        ∀ got, r = .ok got → lastQuotes h' = some got) (freshQuotes now symbols) h s := by
  unfold freshQuotes
  refine always_askQuotes_bind fun a _ => ?_
  split
  · exact ⟨rfl, fun got hg => by cases hg⟩
  · exact ⟨rfl, fun got hg => by cases hg⟩
  · exact ⟨rfl, fun got hg => by cases hg⟩
  next got =>
    refine always_check_bind (fun _ _ => ?_) fun e _ => ⟨rfl, fun got hg => by cases hg⟩
    refine ⟨rfl, ?_⟩
    intro got' hg
    cases hg
    rfl

/-- What `select` picks is asked for, and one of it is within the budget. -/
theorem select_affordable {chain cands : List OptionContract} {direction : Direction} {days : ℤ}
    {cap : ℚ} (hs : select chain direction days cap cfg.rules = .ok cands) :
    ∀ c ∈ cands, 0 < c.ask ∧ c.ask * 100 ≤ cap := by
  obtain ⟨_, _, hs⟩ := except_bind_ok hs
  obtain ⟨_, _, hs⟩ := except_bind_ok hs
  obtain ⟨_, _, hs⟩ := except_bind_ok hs
  obtain ⟨_, _, hs⟩ := except_bind_ok hs
  obtain ⟨_, _, hs⟩ := except_bind_ok hs
  obtain ⟨_, _, hs⟩ := except_bind_ok hs
  cases hs
  intro c hc
  obtain ⟨r, hr, rfl⟩ := List.mem_map.mp hc
  obtain ⟨d, _, hd⟩ := List.mem_filterMap.mp (List.mem_mergeSort.mp (List.mem_of_mem_take hr))
  split at hd
  · cases hd
  · dsimp only at hd
    split at hd
    next hfloors =>
      cases hd
      exact ⟨hfloors.2.2.2.2.2.2.2.1, hfloors.2.2.2.2.2.2.2.2.2.2⟩
    · cases hd

theorem fetchCandidates_affordable (symbol : String) (direction : Direction) (days : ℤ) (cap : ℚ)
    (today : Date) :
    Always Adm NoGuarantee (fun r _ s' => s' = s ∧
        ∀ cands, r = .ok cands → ∀ c ∈ cands, 0 < c.ask ∧ c.ask * 100 ≤ cap)
      (fetchCandidates cfg.rules symbol direction days cap today) h s := by
  have hstop : ∀ (e : Exc), s = s ∧ ∀ cands : List OptionContract,
      (.error e : Except Exc _) = .ok cands → ∀ c ∈ cands, 0 < c.ask ∧ c.ask * 100 ≤ cap :=
    fun e => ⟨rfl, fun cands hc => by cases hc⟩
  unfold fetchCandidates
  refine always_check_bind (fun lo _ => ?_) fun e _ => hstop e
  refine always_check_bind (fun hi _ => ?_) fun e _ => hstop e
  refine always_askChain_bind fun a _ => ?_
  split
  · exact hstop _
  · exact hstop _
  · exact (always_check _).mpr ⟨rfl, fun cands hc => select_affordable hc⟩

/-! ## Whole units of a budget -/

theorem shareQuantity_units {conviction : ℕ} {equity maxEntry : ℚ} {qty : ℤ}
    (hq : shareQuantity conviction equity maxEntry cfg.rules = .ok qty) :
    ∃ pct, convictionPct false conviction cfg.rules = .ok pct ∧
      wholeUnits (capDollars pct equity) maxEntry = .ok qty ∧ 1 ≤ qty := by
  have hone := shareQuantity_ok hq
  obtain ⟨pct, hpct, hq⟩ := except_bind_ok hq
  obtain ⟨_, hw, hq⟩ := except_bind_ok hq
  obtain ⟨_, _, hq⟩ := except_bind_ok hq
  cases hq
  exact ⟨pct, hpct, hw, hone⟩

theorem optionQuantity_units {conviction : ℕ} {equity ask : ℚ} {qty : ℤ}
    (hq : optionQuantity conviction equity ask cfg.rules = .ok qty) :
    ∃ pct, convictionPct true conviction cfg.rules = .ok pct ∧
      wholeUnits (capDollars pct equity) (ask * optionMultiplier) = .ok qty ∧ 1 ≤ qty := by
  have hone := (optionQuantity_ok hq).1
  obtain ⟨pct, hpct, hq⟩ := except_bind_ok hq
  obtain ⟨_, hw, hq⟩ := except_bind_ok hq
  obtain ⟨_, _, hq⟩ := except_bind_ok hq
  cases hq
  exact ⟨pct, hpct, hw, hone⟩

/-- A budget that is positive buys a unit of a positive price only. -/
theorem wholeUnits_pos {budget per : ℚ} {qty : ℤ} (hw : wholeUnits budget per = .ok qty)
    (hq : 1 ≤ qty) (hb : 0 < budget) : 0 < per := by
  unfold wholeUnits at hw
  split at hw
  · cases hw
  · cases hw
    by_contra hper
    have hle : budget / per ≤ 0 := div_nonpos_of_nonneg_of_nonpos hb.le (not_lt.mp hper)
    linarith [one_le_of_truncInt hq]

theorem Quotes.get_ok {qs : Quotes} {symbol : String} {q : Quote}
    (hg : qs.get symbol = .ok q) : qs.get? symbol = some q := by
  unfold Quotes.get at hg
  split at hg
  next q' hq => rw [hq, Except.ok.inj hg]
  · cases hg

theorem fundShares_funded {symbol bench : String} {last inval chase : ℚ} {book : BookState}
    {correlated : List String} {plan : Plan} (hbook : (bookState none).eval s = .ok book)
    (hcor : (correlatedWith cfg symbol book).eval s = .ok correlated)
    (hp : (fundShares cfg cin symbol bench last inval chase book correlated).eval s = .ok plan) :
    Funded cfg cin h s symbol bench plan book correlated := by
  obtain ⟨_, _, hp⟩ := Reads.eval_bind_ok hp
  split at hp
  · cases hp
  · obtain ⟨maxEntry, hmax, hp⟩ := Reads.eval_bind_ok hp
    obtain ⟨_, _, hp⟩ := Reads.eval_bind_ok hp
    obtain ⟨_, _, hp⟩ := Reads.eval_bind_ok hp
    split at hp
    · cases hp
    · obtain ⟨_, _, hp⟩ := Reads.eval_bind_ok hp
      obtain ⟨_, _, hp⟩ := Reads.eval_bind_ok hp
      obtain ⟨_, _, hp⟩ := Reads.eval_bind_ok hp
      obtain ⟨qty, hqty, hp⟩ := Reads.eval_bind_ok hp
      obtain ⟨_, hcheck, hp⟩ := Reads.eval_bind_ok hp
      cases hp
      rw [Reads.eval_check] at hmax hqty hcheck
      refine ⟨hbook, hcor, ?_, fun hne => absurd rfl hne, ?_, parsePrice_pos hmax⟩
      swap
      · rw [if_pos rfl]
        exact hqty
      simpa [Plan.cost, mult] using hcheck

theorem fundOption_funded {symbol bench : String} {chase : ℚ} {book : BookState}
    {correlated : List String} (hbook : (bookState none).eval s = .ok book)
    (hcor : (correlatedWith cfg symbol book).eval s = .ok correlated)
    (hchase : cfg.rules.get .strategy "max_entry_chase_pct" = .ok chase) :
    Always Adm NoGuarantee (fun r h' s' => s' = s ∧
        ∀ plan, r = .ok plan → Funded cfg cin h' s symbol bench plan book correlated)
      (fundOption cfg now cin symbol bench chase book correlated) h s := by
  have hstop : ∀ {h'} (e : Exc), s = s ∧ ∀ plan : Plan, (.error e : Except Exc Plan) = .ok plan →
      Funded cfg cin h' s symbol bench plan book correlated :=
    fun e => ⟨rfl, fun plan hp => by cases hp⟩
  unfold fundOption
  refine always_check_bind (fun _ _ => ?_) fun e _ => hstop e
  split
  · exact hstop _
  next osi _ =>
    refine always_check_bind (fun _ _ => ?_) fun e _ => hstop e
    refine always_check_bind (fun pct hpct => ?_) fun e _ => hstop e
    refine (fetchCandidates_affordable symbol cin.direction cin.horizonDays _ _).bind ?_ ?_
    · rintro cands h₁ s₁ ⟨rfl, hcands⟩
      split
      · exact hstop _
      next chosen hchosen =>
        refine (freshQuotes_last _).bind ?_ fun e h₂ s₂ hr => hr.1 ▸ hstop e
        rintro quotes h₂ s₂ ⟨rfl, hlast⟩
        refine always_check_bind (fun quote hquote => ?_) fun e _ => hstop e
        refine always_check_bind (fun maxEntry hmax => ?_) fun e _ => hstop e
        refine always_check_bind (fun qty hqty => ?_) fun e _ => hstop e
        refine always_check_bind (fun _ hcheck => ?_) fun e _ => hstop e
        refine ⟨rfl, ?_⟩
        intro plan hp
        cases hp
        have hopt : (if cin.direction = .up then ((.call, .call) : Instrument × Funding)
            else (.put, .put)).1 ≠ .shares := by
          cases cin.direction <;> simp
        refine ⟨hbook, hcor, checkBook_option hcheck hopt, fun _ => ?_, ?_, ?_⟩
        swap
        · rw [if_neg hopt]
          exact hqty
        swap
        · -- the candidate was within the budget, so the budget is positive
          obtain ⟨hask, hcap⟩ := hcands cands rfl chosen (List.mem_of_find?_eq_some hchosen)
          have hbudget : 0 < capDollars pct book.equity := by linarith
          obtain ⟨pct', hpct', hunits, hone⟩ := optionQuantity_units hqty
          obtain rfl : pct' = pct := Except.ok.inj (hpct'.symm.trans hpct)
          have hper : 0 < maxEntry * optionMultiplier := wholeUnits_pos hunits hone hbudget
          unfold optionMultiplier at hper
          show 0 < maxEntry
          linarith
        refine ⟨quote.ask, ?_, ?_⟩
        · unfold lastAsk
          rw [hlast quotes rfl, Option.bind_some, Quotes.get_ok hquote]
          rfl
        · unfold optionCost Plan.cost
          rw [hchase, mult_option hopt]
          show (optionLimit cin chase quote.ask >>= _) = _
          rw [hmax]
          show (optionQuantity cin.conviction book.equity maxEntry cfg.rules >>= _) = _
          rw [hqty]
          rfl
    · rintro e h₁ s₁ ⟨rfl, _⟩
      exact hstop e

theorem fund_funded {symbol bench : String} {last inval : ℚ} :
    Always Adm NoGuarantee (fun r h' s' => s' = s ∧ ∀ plan, r = .ok plan →
        ∃ book correlated, Funded cfg cin h' s symbol bench plan book correlated)
      (fund cfg now cin symbol bench last inval) h s := by
  have hstop : ∀ {h'} (e : Exc), s = s ∧ ∀ plan : Plan, (.error e : Except Exc Plan) = .ok plan →
      ∃ book correlated, Funded cfg cin h' s symbol bench plan book correlated :=
    fun e => ⟨rfl, fun plan hp => by cases hp⟩
  unfold fund
  refine always_check_bind (fun _ _ => ?_) fun e _ => hstop e
  refine always_check_bind (fun chase hchase => ?_) fun e _ => hstop e
  refine always_scan_bind (fun book hbook => ?_) fun e _ => hstop e
  refine always_scan_bind (fun correlated hcor => ?_) fun e _ => hstop e
  split
  · rw [always_scan]
    exact ⟨rfl, fun plan hp => ⟨book, correlated, fundShares_funded hbook hcor hp⟩⟩
  · exact (fundOption_funded hbook hcor hchase).mono (fun _ _ _ hg => hg)
      fun r h₁ s₁ hr => ⟨hr.1, fun plan hp => ⟨book, correlated, hr.2 plan hp⟩⟩

/-! ## The submission -/

/-- How a submission ends: it is refused and leaves the store alone, or it
leaves its call, with the proposal of a funded one. -/
inductive Left (cfg : Settings) (now : Instant) (cin : CallIn) (s : Store) :
    Except Exc CallOut → History → Store → Prop
  | refused {h : History} (e : Exc) : Left cfg now cin s (.error e) h s
  | unfunded {h : History} (out : CallOut) (c : NewCall) : cin.funding = .none →
      out.proposal = none → Left cfg now cin s (.ok out) h (s.addCall c)
  | funded {h : History} (out : CallOut) (c : NewCall) (plan : Plan) (book : BookState)
      (correlated : List String) :
      c.extendsCallId = none → c.symbol = cfg.upper (strip cin.symbol) →
      checkBenchmark cfg.upper cin.benchmark = .ok c.benchmark →
      Funded cfg cin h s c.symbol c.benchmark plan book correlated →
      out.proposal = some ⟨nextId (s.proposals.map (·.id)), plan.instrument, plan.symbol,
        plan.quantity, plan.maxEntry⟩ →
      Left cfg now cin s (.ok out) h ((s.addCall c).addProposal (nextId (s.calls.map (·.id))) now
        plan.instrument plan.symbol c.symbol plan.quantity plan.maxEntry plan.atrPct)

theorem legacyCall_left {symbol bench : String} {target inval : ℚ} :
    Always Adm NoGuarantee (Left cfg now cin s)
      (legacyCall cfg now cin symbol bench target inval) h s := by
  unfold legacyCall
  refine always_check_bind (fun _ hnone => ?_) fun e _ => .refused e
  refine always_scan_bind (fun acct _ => ?_) fun e _ => .refused e
  refine always_check_bind (fun _ _ => ?_) fun e _ => .refused e
  refine always_scan_bind (fun existing _ => ?_) fun e _ => .refused e
  refine always_check_bind (fun _ _ => ?_) fun e _ => .refused e
  refine (freshQuotes_spec now _).bind ?_ fun e h' s' hr => hr.1 ▸ .refused e
  rintro q h₁ s₁ ⟨rfl, _, _⟩
  refine always_check_bind (fun last _ => ?_) fun e _ => .refused e
  refine always_check_bind (fun _ _ => ?_) fun e _ => .refused e
  refine always_check_bind (fun spy _ => ?_) fun e _ => .refused e
  refine always_check_bind (fun benchQ _ => ?_) fun e _ => .refused e
  exact always_insertCall_bind trivial
    (.unfunded _ _ (not_not.mp (refuseIf_ok hnone)) rfl)

theorem planFor_funded {symbol bench : String} {last inval : ℚ} :
    Always Adm NoGuarantee (fun r h' s' => s' = s ∧ ∀ plan?, r = .ok plan? →
        (plan? = none → cin.funding = .none) ∧ ∀ plan, plan? = some plan →
          ∃ book correlated, Funded cfg cin h' s symbol bench plan book correlated)
      (planFor cfg now cin symbol bench last inval) h s := by
  unfold planFor
  split
  next hnone =>
    refine ⟨rfl, ?_⟩
    intro plan? hp
    cases hp
    exact ⟨fun _ => hnone, fun plan hp => by cases hp⟩
  · refine fund_funded.bind ?_ ?_
    · rintro plan h₁ s₁ ⟨rfl, hplan⟩
      refine ⟨rfl, ?_⟩
      intro plan? hp
      cases hp
      refine ⟨fun hc => (by cases hc), ?_⟩
      intro plan' hp
      cases hp
      exact hplan plan rfl
    · rintro e h₁ s₁ ⟨rfl, _⟩
      exact ⟨rfl, fun plan? hp => by cases hp⟩

/-- **What a submission leaves, and what its plan was checked against.** -/
theorem submitCall_left :
    Always Adm NoGuarantee (Left cfg now cin s) (submitCall cfg now cin) h s := by
  unfold submitCall
  refine always_check_bind (fun bench hbench => ?_) fun e _ => .refused e
  refine always_check_bind (fun _ _ => ?_) fun e _ => .refused e
  refine always_check_bind (fun target _ => ?_) fun e _ => .refused e
  refine always_check_bind (fun inval _ => ?_) fun e _ => .refused e
  split
  · exact legacyCall_left
  · refine always_scan_bind (fun origin _ => ?_) fun e _ => .refused e
    refine (freshQuotes_spec now _).bind ?_ fun e h' s' hr => hr.1 ▸ .refused e
    rintro q h₁ s₁ ⟨rfl, _, _⟩
    refine always_check_bind (fun last _ => ?_) fun e _ => .refused e
    refine always_check_bind (fun _ _ => ?_) fun e _ => .refused e
    refine planFor_funded.bind ?_ fun e h' s' hr => hr.1 ▸ .refused e
    rintro plan? h₂ s₂ ⟨rfl, hplan⟩
    obtain ⟨hnone, hplan⟩ := hplan plan? rfl
    refine always_check_bind (fun spy _ => ?_) fun e _ => .refused e
    refine always_check_bind (fun benchQ _ => ?_) fun e _ => .refused e
    refine always_insertCall_bind trivial ?_
    unfold proposeFor
    cases plan? with
    | none => exact .unfunded _ _ (hnone rfl) rfl
    | some plan =>
      obtain ⟨book, correlated, hfunded⟩ := hplan plan rfl
      rw [always_bind]
      refine always_createProposal_bind trivial ?_
      show Left cfg now cin s₂ _ _ _
      refine .funded _ (newCall cfg now cin _ bench target inval last.last spy.last benchQ.last
        origin) plan book correlated rfl rfl hbench hfunded.wrote.wrote ?_
      rfl

end TradeDesk.Desk
