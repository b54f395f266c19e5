import TradeDesk.Desk.Contract

/-!
# How far an entry may chase

A submission's limit may stand so many percent above the fresh price it is
read against: the last price for shares, the contract's own ask for an
option. For shares the limit is compared with the exact product. For an
option the product is rounded first, to the nearest cent, and a limit may be
as high as that; it is that where the request names none. So the bound is
kept exactly unless rounding goes up past it (`notChased_iff`).

No fill is above the limit, whenever it comes (`Run.filledWithin`).
-/

namespace TradeDesk.Desk

open TradeDesk.Async

variable {cfg : Settings} {Adm : ∀ q, Answer q → Prop} {h h' : History} {s s' t : Store}
variable {now : Instant} {cin : CallIn} {out : CallOut} {p : ProposalOut}

/-! ## The reference price -/

/-- What a symbol last traded at, as last quoted. -/
def lastPrice (h : History) (symbol : String) : Option ℚ :=
  (lastQuotes h).bind fun quotes => (quotes.get? symbol).map (·.last)

/-- The fresh price a limit is read against. -/
def reference (h : History) (instrument : Instrument) (symbol : String) : Option ℚ :=
  if instrument = .shares then lastPrice h symbol else lastAsk h symbol

/-- What the limit of a plan passed. -/
def LimitChecked (cfg : Settings) (cin : CallIn) (h : History) (instrument : Instrument)
    (symbol : String) (maxEntry : ℚ) : Prop :=
  ∃ chase ref, cfg.rules.get .strategy "max_entry_chase_pct" = .ok chase ∧
    reference h instrument symbol = some ref ∧
    if cin.funding = .shares then maxEntry ≤ ref * (1 + chase / 100)
    else optionLimit cin chase ref = .ok maxEntry

/-- A write is no quote. -/
theorem LimitChecked.wrote {i : Instrument} {symbol : String} {maxEntry : ℚ} {a b : Store}
    (hl : LimitChecked cfg cin h i symbol maxEntry) :
    LimitChecked cfg cin (.wrote a b :: h) i symbol maxEntry := by
  unfold LimitChecked reference lastPrice lastAsk at *
  rw [lastQuotes_wrote]
  exact hl

theorem fundShares_checked {symbol bench : String} {last inval chase : ℚ} {book : BookState}
    {correlated : List String} {plan : Plan}
    (hp : (fundShares cfg cin symbol bench last inval chase book correlated).eval s = .ok plan) :
    plan.instrument = .shares ∧ plan.symbol = symbol ∧
      plan.maxEntry ≤ last * (1 + chase / 100) := by
  obtain ⟨_, _, hp⟩ := Reads.eval_bind_ok hp
  split at hp
  · cases hp
  · obtain ⟨maxEntry, _, hp⟩ := Reads.eval_bind_ok hp
    obtain ⟨_, hlimit, hp⟩ := Reads.eval_bind_ok hp
    obtain ⟨_, _, hp⟩ := Reads.eval_bind_ok hp
    split at hp
    · cases hp
    · obtain ⟨_, _, hp⟩ := Reads.eval_bind_ok hp
      obtain ⟨_, _, hp⟩ := Reads.eval_bind_ok hp
      obtain ⟨_, _, hp⟩ := Reads.eval_bind_ok hp
      obtain ⟨qty, _, hp⟩ := Reads.eval_bind_ok hp
      obtain ⟨_, _, hp⟩ := Reads.eval_bind_ok hp
      cases hp
      rw [Reads.eval_check] at hlimit
      exact ⟨rfl, rfl, not_lt.mp (refuseIf_ok hlimit)⟩

theorem fundOption_checked {symbol bench : String} {chase : ℚ} {book : BookState}
    {correlated : List String} :
    Always Adm NoGuarantee (fun r h' s' => s' = s ∧ ∀ plan, r = .ok plan →
        plan.instrument ≠ .shares ∧ ∃ ask, lastAsk h' plan.symbol = some ask ∧
          optionLimit cin chase ask = .ok plan.maxEntry)
      (fundOption cfg now cin symbol bench chase book correlated) h s := by
  have hstop : ∀ {h'} (e : Exc), s = s ∧ ∀ plan : Plan, (.error e : Except Exc Plan) = .ok plan →
      plan.instrument ≠ .shares ∧ ∃ ask, lastAsk h' plan.symbol = some ask ∧
        optionLimit cin chase ask = .ok plan.maxEntry :=
    fun e => ⟨rfl, fun plan hp => by cases hp⟩
  unfold fundOption
  refine always_check_bind (fun _ _ => ?_) fun e _ => hstop e
  split
  · exact hstop _
  · refine always_check_bind (fun _ _ => ?_) fun e _ => hstop e
    refine always_check_bind (fun pct _ => ?_) fun e _ => hstop e
    refine (fetchCandidates_spec symbol cin.direction cin.horizonDays _ _).bind ?_
      fun e h₁ s₁ hr => hr.1 ▸ hstop e
    rintro cands h₁ s₁ ⟨rfl, -⟩
    split
    · exact hstop _
    · refine (freshQuotes_last _).bind ?_ fun e h₂ s₂ hr => hr.1 ▸ hstop e
      rintro quotes h₂ s₂ ⟨rfl, hlast⟩
      refine always_check_bind (fun quote hquote => ?_) fun e _ => hstop e
      refine always_check_bind (fun maxEntry hmax => ?_) fun e _ => hstop e
      refine always_check_bind (fun qty _ => ?_) fun e _ => hstop e
      refine always_check_bind (fun _ _ => ?_) fun e _ => hstop e
      refine ⟨rfl, ?_⟩
      intro plan hp
      cases hp
      refine ⟨?_, quote.ask, ?_, hmax⟩
      · cases cin.direction
        · exact fun hi => by cases hi
        · exact fun hi => by cases hi
      · unfold lastAsk
        rw [hlast quotes rfl, Option.bind_some, Quotes.get_ok hquote]
        rfl

theorem fund_checked {symbol bench : String} {last inval : ℚ}
    (hlast : lastPrice h symbol = some last) :
    Always Adm NoGuarantee (fun r h' s' => s' = s ∧ ∀ plan, r = .ok plan →
        LimitChecked cfg cin h' plan.instrument plan.symbol plan.maxEntry)
      (fund cfg now cin symbol bench last inval) h s := by
  have hstop : ∀ {h'} (e : Exc), s = s ∧ ∀ plan : Plan, (.error e : Except Exc Plan) = .ok plan →
      LimitChecked cfg cin h' plan.instrument plan.symbol plan.maxEntry :=
    fun e => ⟨rfl, fun plan hp => by cases hp⟩
  unfold fund
  refine always_check_bind (fun _ _ => ?_) fun e _ => hstop e
  refine always_check_bind (fun chase hchase => ?_) fun e _ => hstop e
  refine always_scan_bind (fun book _ => ?_) fun e _ => hstop e
  refine always_scan_bind (fun correlated _ => ?_) fun e _ => hstop e
  split
  next hshares =>
    rw [always_scan]
    refine ⟨rfl, fun plan hp => ?_⟩
    obtain ⟨hinstrument, hsymbol, hlimit⟩ := fundShares_checked hp
    refine ⟨chase, last, hchase, ?_, ?_⟩
    · unfold reference
      rw [if_pos hinstrument, hsymbol, hlast]
    · rw [if_pos hshares]
      exact hlimit
  next hshares =>
    refine fundOption_checked.mono (fun _ _ _ hg => hg) fun r h₁ s₁ hr => ⟨hr.1, fun plan hp => ?_⟩
    obtain ⟨hinstrument, ask, hask, hlimit⟩ := hr.2 plan hp
    refine ⟨chase, ask, hchase, ?_, ?_⟩
    · unfold reference
      rw [if_neg hinstrument, hask]
    · rw [if_neg hshares]
      exact hlimit

theorem planFor_checked {symbol bench : String} {last inval : ℚ}
    (hlast : lastPrice h symbol = some last) :
    Always Adm NoGuarantee (fun r h' s' => s' = s ∧ ∀ plan, r = .ok (some plan) →
        LimitChecked cfg cin h' plan.instrument plan.symbol plan.maxEntry)
      (planFor cfg now cin symbol bench last inval) h s := by
  unfold planFor
  split
  · exact ⟨rfl, fun plan hp => by cases hp⟩
  · refine (fund_checked hlast).bind ?_ fun e h₁ s₁ hr => ⟨hr.1, fun plan hp => by cases hp⟩
    rintro plan h₁ s₁ ⟨rfl, hplan⟩
    refine ⟨rfl, fun plan' hp => ?_⟩
    cases hp
    exact hplan plan rfl

/-- The proposal of a submission has a limit that was checked. -/
def OutChecked (cfg : Settings) (cin : CallIn) (h : History) (out : CallOut) : Prop :=
  ∀ p, out.proposal = some p → LimitChecked cfg cin h p.instrument p.symbol p.maxEntryPrice

/-- A legacy call has no proposal. -/
theorem legacyCall_unfunded {symbol bench : String} {target inval : ℚ} :
    Always Adm NoGuarantee (fun r _ _ => ∀ out, r = .ok out → out.proposal = none)
      (legacyCall cfg now cin symbol bench target inval) h s := by
  have hstop : ∀ (e : Exc) (out : CallOut), (.error e : Except Exc CallOut) = .ok out →
      out.proposal = none := fun e out ho => by cases ho
  unfold legacyCall
  refine always_check_bind (fun _ _ => ?_) fun e _ => hstop e
  refine always_scan_bind (fun acct _ => ?_) fun e _ => hstop e
  refine always_check_bind (fun _ _ => ?_) fun e _ => hstop e
  refine always_scan_bind (fun existing _ => ?_) fun e _ => hstop e
  refine always_check_bind (fun _ _ => ?_) fun e _ => hstop e
  refine (freshQuotes_last _).bind ?_ fun e h' s' hr => hstop e
  rintro q h₁ s₁ ⟨rfl, -⟩
  refine always_check_bind (fun last _ => ?_) fun e _ => hstop e
  refine always_check_bind (fun _ _ => ?_) fun e _ => hstop e
  refine always_check_bind (fun spy _ => ?_) fun e _ => hstop e
  refine always_check_bind (fun benchQ _ => ?_) fun e _ => hstop e
  refine always_insertCall_bind trivial fun out ho => ?_
  obtain rfl := Except.ok.inj ho
  rfl

/-- **What the limit of a submission passed.** -/
theorem submitCall_checked :
    Always Adm NoGuarantee (fun r h' _ => ∀ out, r = .ok out → OutChecked cfg cin h' out)
      (submitCall cfg now cin) h s := by
  have hstop : ∀ {h'} (e : Exc) (out : CallOut), (.error e : Except Exc CallOut) = .ok out →
      OutChecked cfg cin h' out := fun e out ho => by cases ho
  unfold submitCall
  refine always_check_bind (fun bench _ => ?_) fun e _ => hstop e
  refine always_check_bind (fun _ _ => ?_) fun e _ => hstop e
  refine always_check_bind (fun target _ => ?_) fun e _ => hstop e
  refine always_check_bind (fun inval _ => ?_) fun e _ => hstop e
  split
  · refine legacyCall_unfunded.mono (fun _ _ _ hg => hg) fun r h₁ s₁ hr out ho p hp => ?_
    rw [hr out ho] at hp
    cases hp
  · refine always_scan_bind (fun origin _ => ?_) fun e _ => hstop e
    refine (freshQuotes_last _).bind ?_ fun e h' s' hr => hstop e
    rintro q h₁ s₁ ⟨rfl, hq⟩
    refine always_check_bind (fun last hlast => ?_) fun e _ => hstop e
    refine always_check_bind (fun _ _ => ?_) fun e _ => hstop e
    have hprice : lastPrice h₁ (cfg.upper (strip cin.symbol)) = some last.last := by
      unfold lastPrice
      rw [hq q rfl, Option.bind_some, Quotes.get_ok hlast]
      rfl
    refine (planFor_checked hprice).bind ?_ fun e h' s' hr => hstop e
    rintro plan? h₂ s₂ ⟨rfl, hplan⟩
    refine always_check_bind (fun spy _ => ?_) fun e _ => hstop e
    refine always_check_bind (fun benchQ _ => ?_) fun e _ => hstop e
    refine always_insertCall_bind trivial ?_
    unfold proposeFor
    cases plan? with
    | none =>
      intro out ho p hp
      obtain rfl := Except.ok.inj ho
      cases hp
    | some plan =>
      rw [always_bind]
      refine always_createProposal_bind trivial ?_
      intro out ho p hp
      obtain rfl := Except.ok.inj ho
      obtain rfl := Option.some.inj hp
      exact (hplan plan rfl).wrote.wrote

/-! ## Fills -/

/-- The proposal's limit is this, and no purchase of it was above it. -/
structure FilledWithin (pid : ℕ) (limit : ℚ) (s : Store) : Prop where
  known : pid ∈ s.proposals.map (·.id)
  limited : ∀ p ∈ s.proposals, p.id = pid → p.maxEntryPrice = limit
  fills : ∀ f ∈ s.paperFills, f.proposalId = pid → f.side = .buy → f.price ≤ limit

variable {pid : ℕ} {limit : ℚ} {a b : Store} {op : Op} {log : List Entry}

theorem FilledWithin.of_same (hw : FilledWithin pid limit a) (hprops : b.proposals = a.proposals)
    (hfills : b.paperFills = a.paperFills) : FilledWithin pid limit b := by
  obtain ⟨hknown, hlimit, hall⟩ := hw
  rw [← hprops] at hknown hlimit
  rw [← hfills] at hall
  exact ⟨hknown, hlimit, hall⟩

theorem FilledWithin.addFill {f : PaperFill} (hw : FilledWithin pid limit a)
    (hf : f.proposalId = pid → f.side = .buy → f.price ≤ limit) :
    FilledWithin pid limit (a.addFill f) := by
  refine ⟨hw.known, hw.limited, fun g hg => ?_⟩
  rcases List.mem_append.mp hg with hg | hg
  · exact hw.fills g hg
  · obtain rfl := List.mem_singleton.mp hg
    exact hf

/-- **No statement buys above the limit.** -/
theorem DeskWrite.filledWithin (hdw : DeskWrite cfg op h a b) (hw : FilledWithin pid limit a) :
    FilledWithin pid limit b := by
  cases hdw with
  | proposal c plan =>
    refine ⟨?_, fun p hp hid => ?_, hw.fills⟩
    · show pid ∈ List.map _ (_ ++ _)
      rw [List.map_append]
      exact List.mem_append_left _ hw.known
    · rcases List.mem_append.mp hp with hp | hp
      · exact hw.limited p hp hid
      · -- the row that is added has an id of its own
        obtain rfl := List.mem_singleton.mp hp
        exact absurd (hid ▸ hw.known) (nextId_not_mem _)
  | @posted now _ _ _ p veto mid =>
    have hstamped : ∀ r, (stamp p.id now (vetoDeadline cfg veto now) (some mid) r).id = r.id ∧
        (stamp p.id now (vetoDeadline cfg veto now) (some mid) r).maxEntryPrice =
          r.maxEntryPrice := fun r =>
      ⟨stamp_same (·.id) (fun _ _ _ _ => rfl) r, stamp_same (·.maxEntryPrice) (fun _ _ _ _ => rfl) r⟩
    refine ⟨?_, fun q hq hid => ?_, hw.fills⟩
    · obtain ⟨r, hr, hid⟩ := List.mem_map.mp hw.known
      rw [stampPosted_proposals, List.map_map]
      exact List.mem_map.mpr ⟨r, hr, (hstamped r).1.trans hid⟩
    · rw [stampPosted_proposals] at hq
      obtain ⟨r, hr, rfl⟩ := List.mem_map.mp hq
      rw [(hstamped r).1] at hid
      rw [(hstamped r).2]
      exact hw.limited r hr hid
  | buy p ask stop hp _ hentry =>
    refine hw.addFill fun hid _ => ?_
    rw [← hw.limited p hp hid]
    exact hentry.limit
  | sell p e price reason => exact hw.addFill fun _ hside => by cases hside
  | call | extension | tighten | exitRequest | dropped | filled | mark | exitDone | resolve =>
    exact hw.of_same rfl rfl

/-- **No fill is above the limit**, in any run from there. -/
theorem Run.filledWithin (hrun : Run cfg Adm s log t) (hs : Sound s)
    (hw : FilledWithin pid limit s) : FilledWithin pid limit t :=
  hrun.keeps hs hw (fun _ _ _ _ _ _ hw hdw => hdw.filledWithin hw) fun _ _ hw hworld => by
    obtain ⟨_, _, _, _, _, rfl⟩ := hworld
    exact hw.of_same rfl rfl

/-- The proposal that a submission leaves has not been filled. -/
theorem Left.filledWithin (hl : Left cfg now cin s (.ok out) h s') (hs : WF s)
    (hp : out.proposal = some p) : FilledWithin p.id p.maxEntryPrice s' := by
  cases hl with
  | unfunded _ c _ hnone =>
    rw [hnone] at hp
    cases hp
  | funded _ c plan book correlated _ _ _ _ hsome =>
    rw [hsome] at hp
    obtain rfl := Option.some.inj hp
    refine ⟨?_, fun q hq hid => ?_, fun f hf hid _ => ?_⟩
    · show _ ∈ (s.proposals ++ _).map _
      rw [List.map_append]
      exact List.mem_append_right _ (List.mem_singleton.mpr rfl)
    · rcases List.mem_append.mp hq with hq | hq
      · exact absurd (List.mem_map.mpr ⟨q, hq, hid⟩) (nextId_not_mem _)
      · obtain rfl := List.mem_singleton.mp hq
        rfl
    · obtain ⟨q, hq, hqid⟩ := hs.fillOwner f hf
      exact absurd (List.mem_map.mpr ⟨q, hq, hqid.trans hid⟩) (nextId_not_mem _)

/-! ## The bound -/

/-- Rounding to the cent goes down, or nowhere. -/
def NotRoundedUp (d : ℚ) : Prop :=
  d * 100 - ⌊d * 100⌋ < 1 / 2 ∨ d * 100 - ⌊d * 100⌋ = 1 / 2 ∧ ⌊d * 100⌋ % 2 = 0

theorem cents_le_iff {d : ℚ} : cents d ≤ d ↔ NotRoundedUp d := by
  have hle := Int.floor_le (d * 100)
  have hlt := Int.lt_floor_add_one (d * 100)
  unfold cents NotRoundedUp
  dsimp only
  split
  next hlow => exact iff_of_true (by linarith) (.inl hlow)
  next hlow =>
    split
    next hhigh =>
      refine iff_of_false (by linarith) ?_
      rintro (h | ⟨h, -⟩)
      · exact hlow h
      · linarith
    next hhigh =>
      have htie : d * 100 - ⌊d * 100⌋ = 1 / 2 := by linarith
      split
      next heven => exact iff_of_true (by linarith) (.inr ⟨htie, heven⟩)
      next hodd =>
        refine iff_of_false (by linarith) ?_
        rintro (h | ⟨-, h⟩)
        · exact hlow h
        · exact hodd h

/-- The limit is no more than so many percent above the fresh price, and no
later fill pays more than that. -/
def NotChased (cfg : Settings) (Adm : ∀ q, Answer q → Prop) (h : History) (s' : Store)
    (p : ProposalOut) : Prop :=
  ∃ chase ref, cfg.rules.get .strategy "max_entry_chase_pct" = .ok chase ∧
    reference h p.instrument p.symbol = some ref ∧ p.maxEntryPrice ≤ ref * (1 + chase / 100) ∧
    ∀ log t, Run cfg Adm s' log t → ∀ f ∈ t.paperFills, f.proposalId = p.id → f.side = .buy →
      f.price ≤ ref * (1 + chase / 100)

/-- Funded with shares; or the price given is no more than the product; or
none is given, and the product is not rounded up. -/
def LimitKept (cfg : Settings) (cin : CallIn) (h : History) (p : ProposalOut) : Prop :=
  cin.funding = .shares ∨ ∃ chase ref,
    cfg.rules.get .strategy "max_entry_chase_pct" = .ok chase ∧
    reference h p.instrument p.symbol = some ref ∧
    match cin.maxEntryPrice with
    | none => NotRoundedUp (ref * (1 + chase / 100))
    | some text => ∀ m, parsePrice text .maxEntryPrice = .ok m → m ≤ ref * (1 + chase / 100)

/-- The limit of an option is within the product exactly if the one that was
given is, or the rounding of the product. -/
theorem optionLimit_le_iff {chase ask limit : ℚ} (hl : optionLimit cin chase ask = .ok limit) :
    limit ≤ ask * (1 + chase / 100) ↔
      match cin.maxEntryPrice with
      | none => NotRoundedUp (ask * (1 + chase / 100))
      | some text => ∀ m, parsePrice text .maxEntryPrice = .ok m →
          m ≤ ask * (1 + chase / 100) := by
  unfold optionLimit at hl
  dsimp only at hl
  cases hentry : cin.maxEntryPrice with
  | none =>
    rw [hentry] at hl
    obtain rfl := Except.ok.inj hl
    exact cents_le_iff
  | some text =>
    rw [hentry] at hl
    obtain ⟨m, hm, hl⟩ := except_bind_ok hl
    obtain ⟨_, _, hl⟩ := except_bind_ok hl
    obtain rfl := Except.ok.inj hl
    constructor
    · intro hle m' hm'
      obtain rfl := Except.ok.inj (hm.symm.trans hm')
      exact hle
    · intro hall
      exact hall m hm

/-- **An entry is not chased** exactly if the limit is not the product
rounded up, or one between the product and that. -/
theorem notChased_iff (hs : Sound s) (hruns : Runs Adm (submitCall cfg now cin) [] s (.ok out) h s')
    (hp : out.proposal = some p) : NotChased cfg Adm h s' p ↔ LimitKept cfg cin h p := by
  obtain ⟨chase, ref, hchase, href, hlimit⟩ := submitCall_checked.runs hruns out rfl p hp
  have hfilled := (submitCall_left.runs hruns).filledWithin hs.wf hp
  have hsound : Sound s' :=
    ((submitCall_spec hs).runs hruns).1
  have hlater : p.maxEntryPrice ≤ ref * (1 + chase / 100) → NotChased cfg Adm h s' p :=
    fun hle => ⟨chase, ref, hchase, href, hle, fun log t hrun f hf hid hside =>
      ((hrun.filledWithin hsound hfilled).fills f hf hid hside).trans hle⟩
  have hsame : ∀ {chase' ref' : ℚ}, cfg.rules.get .strategy "max_entry_chase_pct" = .ok chase' →
      reference h p.instrument p.symbol = some ref' → chase' = chase ∧ ref' = ref :=
    fun hc hr => ⟨Except.ok.inj (hc.symm.trans hchase), Option.some.inj (hr.symm.trans href)⟩
  split at hlimit
  next hshares => exact iff_of_true (hlater hlimit) (.inl hshares)
  next hshares =>
    constructor
    · rintro ⟨chase', ref', hc, hr, hle, -⟩
      obtain ⟨rfl, rfl⟩ := hsame hc hr
      exact .inr ⟨chase', ref', hc, hr, (optionLimit_le_iff hlimit).mp hle⟩
    · rintro (h | ⟨chase', ref', hc, hr, hkept⟩)
      · exact absurd h hshares
      · obtain ⟨rfl, rfl⟩ := hsame hc hr
        exact hlater ((optionLimit_le_iff hlimit).mpr hkept)

/-- The first order for the sample contract, asked two dollars for. -/
theorem notChased_first : NotChased deskSettings AnyAnswer (ordering openingStore).hist
    (ordering openingStore).store ⟨1, .call, sampleOsi, 4, 21 / 10⟩ := by
  have hruns := ordering_runs openingStore (orderedOut 1 1) (by decide +kernel)
  refine (notChased_iff openingStore_fresh.sound hruns rfl).mpr (.inr ⟨5, 2, ?_, ?_, .inl ?_⟩)
  · decide +kernel
  · decide +kernel
  · decide +kernel

/-- The broker of the sample contract, with a fresh ask of 2.11. -/
def quotingDearer (now : Instant) : (q : Query) → Answer q
  | .quotes _ => .ok
    [("AAA", ⟨"AAA", 50, 50, 50, now⟩), ("SPY", ⟨"SPY", 500, 500, 500, now⟩),
      (sampleOsi, ⟨sampleOsi, 2, 2, 211 / 100, now⟩)]
  | .optionChain _ _ _ _ => .ok [⟨sampleOsi, .call, 2, 2, some (3 / 5), 1000, 40⟩]
  | .reactionUsers _ _ => .reply 200 (.users [])
  | .post _ => true
  | .postMessage _ => some "m1"

/-- The order of Monday morning at that ask. -/
def dearerOrder : Config Store Query Answer Exc CallOut :=
  runWith (quotingDearer (fromMonday 9 50)) (submitCall deskSettings (fromMonday 9 50) callByOption)
    [] openingStore

/-- Five percent above 2.11 is 2.2155, and the limit is 2.22. -/
theorem notChased_dearer : ¬ ∀ (cfg : Settings) (Adm : ∀ q, Answer q → Prop) (s s' : Store)
    (now : Instant) (cin : CallIn) (out : CallOut) (h : History) (p : ProposalOut), Sound s →
      Runs Adm (submitCall cfg now cin) [] s (.ok out) h s' → out.proposal = some p →
      NotChased cfg Adm h s' p := by
  intro hall
  have hout : dearerOrder.prog.ended? =
      some (.ok ⟨1, .pm, 50, some ⟨1, .call, sampleOsi, 4, 222 / 100⟩⟩) := by decide +kernel
  have hsteps : Steps AnyAnswer _ dearerOrder := runWith_steps (fun _ => trivial) _ [] openingStore
  have hruns : Runs AnyAnswer (submitCall deskSettings (fromMonday 9 50) callByOption) []
      openingStore (.ok ⟨1, .pm, 50, some ⟨1, .call, sampleOsi, 4, 222 / 100⟩⟩) dearerOrder.hist
      dearerOrder.store := by
    unfold Runs
    rw [← Prog.ended?_some hout]
    exact hsteps
  obtain ⟨chase, ref, hchase, href, hle, -⟩ :=
    hall _ _ _ _ _ _ _ _ _ openingStore_fresh.sound hruns rfl
  have hfive : deskSettings.rules.get .strategy "max_entry_chase_pct" = .ok 5 := by decide +kernel
  have hask : reference dearerOrder.hist .call sampleOsi = some (211 / 100) := by decide +kernel
  obtain rfl := Except.ok.inj (hchase.symm.trans hfive)
  obtain rfl := Option.some.inj (href.symm.trans hask)
  norm_num at hle

end TradeDesk.Desk
