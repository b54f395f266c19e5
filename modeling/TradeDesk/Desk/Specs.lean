import TradeDesk.Desk.Writes

/-!
# The operations write nothing else

For each operation of the PM, one lemma: started on a sound ledger it
makes only the writes `DeskWrite` lists for it, whatever it is answered,
and however it ends it leaves a sound ledger. A submission also says what
it leaves (`Submitted`): nothing at all where it ends in an exception.

The loops follow in `Desk/LoopSpecs.lean`, with what is so of every
operation and of whole runs.
-/

namespace TradeDesk.Desk

open TradeDesk.Async

variable {cfg : Settings} {op : Op} {Adm : ∀ q, Answer q → Prop} {α β : Type}
variable {G : History → Store → Store → Prop} {R : Except Exc α → History → Store → Prop}
variable {h h' : History} {s s' : Store}

/-! ## Questions and the history -/

theorem ReadQuotes.mono {quotes : Quotes} (hr : ReadQuotes h quotes) (hsub : h ⊆ h') :
    ReadQuotes h' quotes := by
  obtain ⟨symbols, hmem⟩ := hr
  exact ⟨symbols, hsub hmem⟩

theorem LimitFrom.mono {price : ℚ} (hl : LimitFrom cfg h price) (hsub : h ⊆ h') :
    LimitFrom cfg h' price := by
  rcases hl with hpos | ⟨quotes, symbol, q, chase, hq, hrest⟩
  · exact Or.inl hpos
  · exact Or.inr ⟨quotes, symbol, q, chase, hq.mono hsub, hrest⟩

theorem PlanOk.mono {cin : CallIn} {symbol bench : String} {plan : Plan}
    (hp : PlanOk cfg cin h s symbol bench plan) (hsub : h ⊆ h') :
    PlanOk cfg cin h' s symbol bench plan :=
  { hp with limit := hp.limit.mono hsub }

theorem always_askQuotes_bind {symbols : List String}
    {f : Except BrokerFault Quotes → DeskM α}
    (hok : ∀ a : Except BrokerFault Quotes, Adm (.quotes symbols) a →
      Always Adm G R (f a) (.asked (.quotes symbols) a :: h) s) :
    Always Adm G R (askQuotes symbols >>= f) h s :=
  always_query_bind (q := Query.quotes symbols) hok

theorem always_askChain_bind {symbol : String} {lo hi : Date} {kind : OptionKind}
    {f : Except BrokerFault (List OptionContract) → DeskM α}
    (hok : ∀ a : Except BrokerFault (List OptionContract), Adm (.optionChain symbol lo hi kind) a →
      Always Adm G R (f a) (.asked (.optionChain symbol lo hi kind) a :: h) s) :
    Always Adm G R (askChain symbol lo hi kind >>= f) h s :=
  always_query_bind (q := Query.optionChain symbol lo hi kind) hok

theorem always_askPost_bind {n : Notice} {f : Bool → DeskM α}
    (hok : ∀ a : Bool, Always Adm G R (f a) (.asked (.post n) a :: h) s) :
    Always Adm G R (askPost n >>= f) h s :=
  always_query_bind (q := Query.post n) fun a _ => hok a

theorem always_askPostMessage_bind {n : Notice} {f : Option String → DeskM α}
    (hok : ∀ a : Option String, Always Adm G R (f a) (.asked (.postMessage n) a :: h) s) :
    Always Adm G R (askPostMessage n >>= f) h s :=
  always_query_bind (q := Query.postMessage n) fun a _ => hok a

/-- A quote request either answers or ends the request. -/
theorem freshQuotes_spec (now : Instant) (symbols : List String) :
    Always Adm G (fun r h' s' => s' = s ∧ h ⊆ h' ∧ ∀ got, r = .ok got → ReadQuotes h' got)
      (freshQuotes now symbols) h s := by
  unfold freshQuotes
  refine always_askQuotes_bind fun a _ => ?_
  have hsub : h ⊆ Event.asked (Query.quotes (firsts symbols)) a :: h := List.subset_cons_self _ _
  split
  · exact ⟨rfl, hsub, fun got hg => by cases hg⟩
  · exact ⟨rfl, hsub, fun got hg => by cases hg⟩
  · exact ⟨rfl, hsub, fun got hg => by cases hg⟩
  next got =>
    refine always_check_bind (fun _ _ => ?_) fun e _ => ⟨rfl, hsub, fun got hg => by cases hg⟩
    refine ⟨rfl, hsub, fun got' hg => ?_⟩
    cases hg
    exact ⟨_, List.mem_cons_self⟩

theorem fetchCandidates_spec (symbol : String) (direction : Direction) (days : ℤ) (cap : ℚ)
    (today : Date) :
    Always Adm G (fun _ h' s' => s' = s ∧ h ⊆ h')
      (fetchCandidates cfg.rules symbol direction days cap today) h s := by
  unfold fetchCandidates
  refine always_check_bind (fun lo _ => ?_) fun e _ => ⟨rfl, fun _ hx => hx⟩
  refine always_check_bind (fun hi _ => ?_) fun e _ => ⟨rfl, fun _ hx => hx⟩
  refine always_askChain_bind fun a _ => ?_
  have hsub : h ⊆ Event.asked (Query.optionChain symbol (today + lo) (today + hi)
      (kindOf direction)) a :: h := List.subset_cons_self _ _
  split
  · exact ⟨rfl, hsub⟩
  · exact ⟨rfl, hsub⟩
  · exact (always_check _).mpr ⟨rfl, hsub⟩

/-! ## Inserting -/

/-- The row a call becomes. -/
def insertedCall (s : Store) (c : NewCall) : Call :=
  { toNewCall := c, id := nextId (s.calls.map (·.id)) }

theorem call?_addCall (s : Store) (c : NewCall) :
    (s.addCall c).call? (nextId (s.calls.map (·.id))) = some (insertedCall s c) := by
  have hold : s.calls.find? (fun d => d.id == nextId (s.calls.map (·.id))) = none := by
    rw [List.find?_eq_none]
    intro d hd he
    have hid : d.id = nextId (s.calls.map (·.id)) := by simpa using he
    exact nextId_not_mem _ (List.mem_map.mpr ⟨d, hd, hid⟩)
  unfold Store.call? Store.addCall
  dsimp only
  rw [List.find?_append, hold]
  simp [insertedCall]

theorem always_insertCall_bind {c : NewCall} {f : Call → DeskM α} (hg : G h s (s.addCall c))
    (hok : Always Adm G R (f (insertedCall s c)) (.wrote s (s.addCall c) :: h) (s.addCall c)) :
    Always Adm G R (insertCall c >>= f) h s := by
  rw [always_bind]
  unfold insertCall
  refine always_transact_bind hg ?_
  refine always_scan_bind (fun got hgot => ?_) fun e he => ?_
  · have hgot' : (s.addCall c).call? (nextId (s.calls.map (·.id))) = got := Except.ok.inj hgot
    rw [call?_addCall] at hgot'
    subst hgot'
    exact hok
  · cases he

/-- The row a proposal becomes. -/
def insertedProposal (s : Store) (callId : ℕ) (t : Instant) (instrument : Instrument)
    (symbol underlying : String) (quantity : ℤ) (maxEntry : ℚ) (atr : Option ℚ) : Proposal :=
  ⟨nextId (s.proposals.map (·.id)), callId, t, instrument, symbol, underlying, quantity, maxEntry,
    atr, none, none, none⟩

theorem always_createProposal_bind {callId : ℕ} {t : Instant} {instrument : Instrument}
    {symbol underlying : String} {quantity : ℤ} {maxEntry : ℚ} {atr : Option ℚ}
    {f : Proposal → DeskM α}
    (hg : G h s (s.addProposal callId t instrument symbol underlying quantity maxEntry atr))
    (hok : Always Adm G R
      (f (insertedProposal s callId t instrument symbol underlying quantity maxEntry atr))
      (.wrote s (s.addProposal callId t instrument symbol underlying quantity maxEntry atr) :: h)
      (s.addProposal callId t instrument symbol underlying quantity maxEntry atr)) :
    Always Adm G R (createProposal callId t instrument symbol underlying quantity maxEntry atr >>= f)
      h s := by
  have hold : s.proposals.find? (fun p => p.id == nextId (s.proposals.map (·.id))) = none := by
    rw [List.find?_eq_none]
    intro p hp he
    have hid : p.id = nextId (s.proposals.map (·.id)) := by simpa using he
    exact nextId_not_mem _ (List.mem_map.mpr ⟨p, hp, hid⟩)
  rw [always_bind]
  unfold createProposal
  refine always_transact_bind hg ?_
  refine always_scan_bind (fun got hgot => ?_) fun e he => ?_
  · -- the row just inserted is there to be read
    have hgot : List.find? _ (s.proposals ++ [_]) = got := Except.ok.inj hgot
    rw [List.find?_append, hold] at hgot
    obtain rfl : some (insertedProposal s callId t instrument symbol underlying quantity maxEntry
        atr) = got := by
      rw [← hgot]
      simp [insertedProposal]
    exact hok
  · cases he

/-! ## Sound ledgers -/

/-- The ledger stays sound when the calls change. -/
theorem Clean.of_same (hs : Clean s) (hprops : s'.proposals = s.proposals)
    (houts : s'.proposalOutcomes = s.proposalOutcomes) (hfills : s'.paperFills = s.paperFills) :
    Clean s' := by
  intro p hp b hb
  refine hs p (hprops ▸ hp) b ⟨?_, ?_, ?_, hb.fits⟩
  · have := hb.buys
    unfold Store.buys at this ⊢
    rwa [hfills] at this
  · have := hb.sells
    unfold Store.sells at this ⊢
    rwa [hfills] at this
  · have := hb.outcome
    unfold Store.outcome? at this ⊢
    rwa [houts] at this

/-- Two lives of one proposal read the same rows. -/
theorem HasLife.unique {p : Proposal} {l l' : Life} (hl : HasLife s p l) (hl' : HasLife s p l') :
    l = l' := by
  have hb : l.buys = l'.buys := hl.buys.symm.trans hl'.buys
  have hse : l.sells = l'.sells := hl.sells.symm.trans hl'.sells
  have ho : l.outcome = l'.outcome := hl.outcome.symm.trans hl'.outcome
  cases l <;> cases l' <;> simp_all [Life.buys, Life.sells, Life.outcome]

/-- A statement on one proposal that ends it anywhere but between its fill
and its outcome leaves the ledger sound, if no other proposal was there. -/
theorem Sound.of_touch {p : Proposal} {l : Life} (hs : WF s) (hs' : WF s')
    (hclean : ∀ q ∈ s.proposals, q.id ≠ p.id → ∀ b, ¬ HasLife s q (.filling b))
    (hprops : s'.proposals = s.proposals) (hp : p ∈ s.proposals) (hl : HasLife s' p l)
    (hne : ∀ b, l ≠ .filling b)
    (hother : ∀ q l, q.id ≠ p.id → HasLife s q l → HasLife s' q l) : Sound s' := by
  refine ⟨hs', fun q hq b hb => ?_⟩
  rw [hprops] at hq
  by_cases hqp : q.id = p.id
  · rw [hs.proposal_unique hq hp hqp] at hb
    exact hne b (hl.unique hb)
  · obtain ⟨lq, hlq⟩ := hs.lives q hq
    rw [(hother q lq hqp hlq).unique hb] at hlq
    exact hclean q hq hqp b hlq

/-! ## Submitting -/

theorem checkLevels_levels {direction : Direction} {last target inval : ℚ} {u : Unit}
    (hc : checkLevels direction last target inval cfg.rules = .ok u) :
    LevelsOk direction last target inval := by
  have := checkLevels_ok hc
  cases direction <;> exact this

/-- A plan for shares has passed every check a plan has to. -/
theorem fundShares_ok {cin : CallIn} {symbol bench : String} {last inval chase : ℚ}
    {book : BookState} {correlated : List String} {plan : Plan}
    (hbook : (bookState none).eval s = .ok book)
    (hp : (fundShares cfg cin symbol bench last inval chase book correlated).eval s = .ok plan) :
    PlanOk cfg cin h s symbol bench plan := by
  obtain ⟨_, hup, hp⟩ := Reads.eval_bind_ok hp
  have hup' : cin.direction = .up := by
    rw [Reads.eval_check] at hup
    exact not_not.mp (refuseIf_ok hup)
  split at hp
  · cases hp
  next text _ =>
    obtain ⟨maxEntry, hmax, hp⟩ := Reads.eval_bind_ok hp
    obtain ⟨_, _, hp⟩ := Reads.eval_bind_ok hp
    obtain ⟨_, _, hp⟩ := Reads.eval_bind_ok hp
    split at hp
    · cases hp
    next atr _ =>
      obtain ⟨_, _, hp⟩ := Reads.eval_bind_ok hp
      obtain ⟨_, _, hp⟩ := Reads.eval_bind_ok hp
      obtain ⟨_, _, hp⟩ := Reads.eval_bind_ok hp
      obtain ⟨qty, hqty, hp⟩ := Reads.eval_bind_ok hp
      obtain ⟨_, hcheck, hp⟩ := Reads.eval_bind_ok hp
      cases hp
      rw [Reads.eval_check] at hmax hqty hcheck
      have hpos := parsePrice_pos hmax
      refine ⟨shareQuantity_ok hqty, ?_, Or.inl hpos, ne_of_gt hpos, book, correlated, hbook, ?_⟩
      · rw [hup']
        simp
      · simpa [mult] using hcheck

/-- A limit for an option is the model's positive price or a chase above
the ask it was quoted. -/
theorem optionLimit_ok {cin : CallIn} {chase ask price : ℚ}
    (ho : optionLimit cin chase ask = .ok price) :
    0 < price ∨ price = cents (ask * (1 + chase / 100)) := by
  unfold optionLimit at ho
  dsimp only at ho
  split at ho
  · exact Or.inr (Except.ok.inj ho).symm
  · obtain ⟨maxEntry, hmax, ho⟩ := except_bind_ok ho
    obtain ⟨_, _, ho⟩ := except_bind_ok ho
    cases ho
    exact Or.inl (parsePrice_pos hmax)

/-- The check of an option order is the check of its worst case. -/
theorem checkBook_option {book : BookState} {symbol bench : String} {maxEntry : ℚ} {qty : ℤ}
    {correlated : List String} {u : Unit} {i : Instrument}
    (hcheck : checkBook book symbol bench (maxEntry * 100 * qty) true correlated cfg.rules
      cfg.reserve = .ok u) (hi : i ≠ .shares) :
    checkBook book symbol bench (maxEntry * qty * mult i) (i != .shares) correlated cfg.rules
      cfg.reserve = .ok () := by
  have hm : maxEntry * (qty : ℚ) * mult i = maxEntry * 100 * qty := by
    have : mult i = 100 := by
      cases i with
      | shares => exact absurd rfl hi
      | call => rfl
      | put => rfl
    rw [this]
    ring
  rw [hm, show (i != .shares) = true by simpa using hi]
  exact hcheck

/-- Funding by an option, on the book sizing was given. -/
theorem fundOption_spec {now : Instant} {cin : CallIn} {symbol bench : String} {chase : ℚ}
    {book : BookState} {correlated : List String}
    (hchase : cfg.rules.get .strategy "max_entry_chase_pct" = .ok chase)
    (hbook : (bookState none).eval s = .ok book) :
    Always Adm G (fun r h' s' => s' = s ∧ h ⊆ h' ∧
        ∀ plan, r = .ok plan → PlanOk cfg cin h' s symbol bench plan)
      (fundOption cfg now cin symbol bench chase book correlated) h s := by
  have hstop : ∀ h' e, h ⊆ h' → s = s ∧ h ⊆ h' ∧
      ∀ plan : Plan, (.error e : Except Exc Plan) = .ok plan →
        PlanOk cfg cin h' s symbol bench plan :=
    fun h' e hsub => ⟨rfl, hsub, fun plan hp => by cases hp⟩
  have hrefl : h ⊆ h := List.Subset.refl h
  unfold fundOption
  refine always_check_bind (fun _ hwant => ?_) fun e _ => hstop _ e hrefl
  split
  · exact hstop _ _ hrefl
  next osi _ =>
    refine always_check_bind (fun _ _ => ?_) fun e _ => hstop _ e hrefl
    refine always_check_bind (fun pct _ => ?_) fun e _ => hstop _ e hrefl
    refine (fetchCandidates_spec symbol cin.direction cin.horizonDays _ _).bind ?_ ?_
    · rintro cands h₁ s₁ ⟨rfl, hsub₁⟩
      split
      · exact hstop _ _ hsub₁
      next chosen _ =>
        refine (freshQuotes_spec now _).bind ?_ ?_
        · rintro quotes h₂ s₂ ⟨rfl, hsub₂, hread⟩
          have hsub : h ⊆ h₂ := fun e he => hsub₂ (hsub₁ he)
          refine always_check_bind (fun quote hquote => ?_) fun e _ => hstop _ e hsub
          refine always_check_bind (fun maxEntry hmax => ?_) fun e _ => hstop _ e hsub
          refine always_check_bind (fun qty hqty => ?_) fun e _ => hstop _ e hsub
          refine always_check_bind (fun _ hcheck => ?_) fun e _ => hstop _ e hsub
          refine ⟨rfl, hsub, fun plan hp => ?_⟩
          cases hp
          obtain ⟨hq, hne⟩ := optionQuantity_ok hqty
          refine ⟨hq, ?_, ?_, hne, book, correlated, hbook, ?_⟩
          · cases cin.direction <;> simp
          · rcases optionLimit_ok hmax with hpos | heq
            · exact Or.inl hpos
            · refine Or.inr ⟨quotes, chosen.osi, quote, chase, hread quotes rfl, ?_, hchase, heq⟩
              unfold Quotes.get at hquote
              split at hquote
              next q hq => rw [hq, Except.ok.inj hquote]
              · cases hquote
          · refine checkBook_option hcheck ?_
            cases cin.direction <;> simp
        · rintro e h₂ s₂ ⟨rfl, hsub₂, _⟩
          exact hstop _ e fun x hx => hsub₂ (hsub₁ hx)
    · rintro e h₁ s₁ ⟨rfl, hsub₁⟩
      exact hstop _ e hsub₁

theorem fund_spec {now : Instant} {cin : CallIn} {symbol bench : String} {last inval : ℚ} :
    Always Adm G (fun r h' s' => s' = s ∧ h ⊆ h' ∧
        ∀ plan, r = .ok plan → PlanOk cfg cin h' s symbol bench plan)
      (fund cfg now cin symbol bench last inval) h s := by
  have hstop : ∀ e, s = s ∧ h ⊆ h ∧ ∀ plan : Plan, (.error e : Except Exc Plan) = .ok plan →
      PlanOk cfg cin h s symbol bench plan :=
    fun e => ⟨rfl, List.Subset.refl h, fun plan hp => by cases hp⟩
  unfold fund
  refine always_check_bind (fun _ _ => ?_) fun e _ => hstop e
  refine always_check_bind (fun chase hchase => ?_) fun e _ => hstop e
  refine always_scan_bind (fun book hbook => ?_) fun e _ => hstop e
  refine always_scan_bind (fun correlated _ => ?_) fun e _ => hstop e
  split
  · rw [always_scan]
    exact ⟨rfl, List.Subset.refl h, fun plan hp => fundShares_ok hbook hp⟩
  · exact fundOption_spec hchase hbook

/-- A plan is made for funded calls only. -/
theorem planFor_spec {now : Instant} {cin : CallIn} {symbol bench : String} {last inval : ℚ} :
    Always Adm G (fun r h' s' => s' = s ∧ h ⊆ h' ∧ ∀ plan?, r = .ok plan? →
        (plan? = none ↔ cin.funding = .none) ∧
        ∀ plan, plan? = some plan → PlanOk cfg cin h' s symbol bench plan)
      (planFor cfg now cin symbol bench last inval) h s := by
  unfold planFor
  split
  next hnone =>
    refine ⟨rfl, List.Subset.refl h, fun plan? hp => ?_⟩
    cases hp
    exact ⟨⟨fun _ => hnone, fun _ => rfl⟩, fun plan hp => by cases hp⟩
  next hsome =>
    refine fund_spec.bind ?_ ?_
    · rintro plan h₁ s₁ ⟨rfl, hsub, hplan⟩
      refine ⟨rfl, hsub, fun plan? hp => ?_⟩
      cases hp
      refine ⟨⟨fun hc => (by cases hc), fun hc => absurd hc hsome⟩, fun plan' hp => ?_⟩
      cases hp
      exact hplan plan rfl
    · rintro e h₁ s₁ ⟨rfl, hsub, _⟩
      exact ⟨rfl, hsub, fun plan? hp => by cases hp⟩

/-- Admitted calls are alone on their name and direction, and under the
day's cap. -/
theorem admitCall_ok {now : Instant} {cin : CallIn} {symbol : String} {origin : Origin}
    (ha : (admitCall cfg now cin symbol).eval s = .ok origin) :
    origin ≠ .legacy ∧ s.openCall? symbol cin.direction false = none ∧
      ∃ cap, cfg.rules.getInt .strategy "desk_max_new_calls_per_day" = .ok cap ∧
        (s.callsMadeOn (cfg.et.date now) : ℤ) < cap := by
  obtain ⟨_, _, ha⟩ := Reads.eval_bind_ok ha
  obtain ⟨_, _, ha⟩ := Reads.eval_bind_ok ha
  obtain ⟨cap, hcap, ha⟩ := Reads.eval_bind_ok ha
  obtain ⟨made, hmade, ha⟩ := Reads.eval_bind_ok ha
  obtain ⟨_, hunder, ha⟩ := Reads.eval_bind_ok ha
  obtain ⟨existing, hopen, ha⟩ := Reads.eval_bind_ok ha
  rw [Reads.eval_check] at hcap hunder
  obtain rfl : s.callsMadeOn (cfg.et.date now) = made := Except.ok.inj hmade
  have hcap' : ∃ cap, cfg.rules.getInt .strategy "desk_max_new_calls_per_day" = .ok cap ∧
      (s.callsMadeOn (cfg.et.date now) : ℤ) < cap := ⟨cap, hcap, not_le.mp (refuseIf_ok hunder)⟩
  cases existing with
  | some c => cases ha
  | none =>
    have hopen' : s.openCall? symbol cin.direction false = none := Except.ok.inj hopen
    dsimp only at ha
    split at ha
    · cases ha
      exact ⟨by decide, hopen', hcap'⟩
    · obtain ⟨pitch, _, ha⟩ := Reads.eval_bind_ok ha
      split at ha
      · cases ha
      · obtain ⟨_, _, ha⟩ := Reads.eval_bind_ok ha
        obtain ⟨_, _, ha⟩ := Reads.eval_bind_ok ha
        obtain ⟨_, _, ha⟩ := Reads.eval_bind_ok ha
        obtain ⟨_, _, ha⟩ := Reads.eval_bind_ok ha
        cases ha
        exact ⟨by decide, hopen', hcap'⟩

theorem Sound.addCall {c : NewCall} (hs : Sound s) (hwf : WF (s.addCall c)) :
    Sound (s.addCall c) :=
  ⟨hwf, hs.clean.of_same rfl rfl rfl⟩

/-- A new proposal is pending, so the ledger stays clean. -/
theorem Sound.addProposal {callId : ℕ} {t : Instant} {instrument : Instrument}
    {symbol underlying : String} {quantity : ℤ} {maxEntry : ℚ} {atr : Option ℚ} (hs : Sound s)
    (hwf : WF (s.addProposal callId t instrument symbol underlying quantity maxEntry atr)) :
    Sound (s.addProposal callId t instrument symbol underlying quantity maxEntry atr) := by
  refine ⟨hwf, fun p hp b hb => ?_⟩
  rcases mem_addProposal.mp hp with hp | rfl
  · exact hs.clean p hp b ⟨hb.buys, hb.sells, hb.outcome, hb.fits⟩
  · -- a new id has no rows
    have hnew : s.buys (nextId (s.proposals.map (·.id))) = [] :=
      (hs.wf.noRows (nextId_not_mem _)).1
    cases hnew.symm.trans hb.buys

/-- What a submission leaves: nothing where it is refused, else its call,
and the proposal of a funded one. -/
inductive Submitted (s : Store) : Except Exc α → Store → Prop
  | refused (e : Exc) : Submitted s (.error e) s
  | unfunded (x : α) (c : NewCall) :
      c.extendsCallId = none → c.funding = .none → Submitted s (.ok x) (s.addCall c)
  | funded (x : α) (c : NewCall) (t : Instant) (plan : Plan) :
      c.extendsCallId = none → c.funding ≠ .none → Submitted s (.ok x)
        ((s.addCall c).addProposal (nextId (s.calls.map (·.id))) t plan.instrument plan.symbol
          c.symbol plan.quantity plan.maxEntry plan.atrPct)

/-- The end of a submission from `s`. -/
abbrev SubmitEnd (s : Store) : Except Exc α → History → Store → Prop :=
  fun r _ s' => Sound s' ∧ Submitted s r s'

theorem legacyCall_spec {now : Instant} {cin : CallIn} {symbol bench : String} {target inval : ℚ}
    (hs : Sound s) (hleg : cin.legacy = true) (ht : 0 < target) (hi : 0 < inval) :
    Always Adm (DeskWrite cfg (.submitCall now cin)) (SubmitEnd s)
      (legacyCall cfg now cin symbol bench target inval) h s := by
  have hstop : ∀ e : Exc, Sound s ∧ Submitted s (.error e : Except Exc CallOut) s :=
    fun e => ⟨hs, .refused e⟩
  unfold legacyCall
  refine always_check_bind (fun _ _ => ?_) fun e _ => hstop e
  refine always_scan_bind (fun acct _ => ?_) fun e _ => hstop e
  refine always_check_bind (fun _ _ => ?_) fun e _ => hstop e
  refine always_scan_bind (fun existing _ => ?_) fun e _ => hstop e
  refine always_check_bind (fun _ _ => ?_) fun e _ => hstop e
  refine (freshQuotes_spec now _).bind ?_ fun e h' s' hr => hr.1 ▸ hstop e
  rintro q h₁ s₁ ⟨rfl, _, _⟩
  refine always_check_bind (fun last _ => ?_) fun e _ => hstop e
  refine always_check_bind (fun _ hlev => ?_) fun e _ => hstop e
  refine always_check_bind (fun spy _ => ?_) fun e _ => hstop e
  refine always_check_bind (fun benchQ _ => ?_) fun e _ => hstop e
  have hrow : NewCallOk cfg now cin s₁ (newCall cfg now cin symbol bench target inval last.last
      spy.last benchQ.last .legacy) :=
    ⟨rfl, rfl, rfl, rfl, ⟨fun _ => hleg, fun _ => rfl⟩, rfl, ht, hi, checkLevels_levels hlev,
      fun hne => absurd rfl hne, fun hne => absurd rfl hne⟩
  have hw : DeskWrite cfg (.submitCall now cin) h₁ s₁ _ := .call _ hrow
  exact always_insertCall_bind hw ⟨hs.addCall (hw.wf hs.wf), .unfunded _ _ rfl rfl⟩

/-- **Submitting writes a call that passed the gates, and the proposal of
a funded one, sized against the book the call was not in; and nothing
where it is refused.** -/
theorem submitCall_spec {now : Instant} {cin : CallIn} (hs : Sound s) :
    Always Adm (DeskWrite cfg (.submitCall now cin)) (SubmitEnd s)
      (submitCall cfg now cin) h s := by
  have hstop : ∀ e : Exc, Sound s ∧ Submitted s (.error e : Except Exc CallOut) s :=
    fun e => ⟨hs, .refused e⟩
  unfold submitCall
  refine always_check_bind (fun bench _ => ?_) fun e _ => hstop e
  refine always_check_bind (fun _ _ => ?_) fun e _ => hstop e
  refine always_check_bind (fun target htarget => ?_) fun e _ => hstop e
  refine always_check_bind (fun inval hinval => ?_) fun e _ => hstop e
  have ht := parsePrice_pos htarget
  have hi := parsePrice_pos hinval
  split
  next hleg => exact legacyCall_spec hs hleg ht hi
  next hleg =>
    refine always_scan_bind (fun origin horigin => ?_) fun e _ => hstop e
    obtain ⟨horig, halone, hcap⟩ := admitCall_ok horigin
    refine (freshQuotes_spec now _).bind ?_ fun e h' s' hr => hr.1 ▸ hstop e
    rintro q h₁ s₁ ⟨rfl, _, _⟩
    refine always_check_bind (fun last _ => ?_) fun e _ => hstop e
    refine always_check_bind (fun _ hlev => ?_) fun e _ => hstop e
    refine planFor_spec.bind ?_ fun e h' s' hr => hr.1 ▸ hstop e
    rintro plan? h₂ s₂ ⟨rfl, _, hplan⟩
    obtain ⟨hnone, hplan⟩ := hplan plan? rfl
    refine always_check_bind (fun spy _ => ?_) fun e _ => hstop e
    refine always_check_bind (fun benchQ _ => ?_) fun e _ => hstop e
    have hrow : NewCallOk cfg now cin s₂ (newCall cfg now cin _ bench target inval last.last
        spy.last benchQ.last origin) :=
      ⟨rfl, rfl, rfl, rfl, ⟨fun hc => absurd hc horig, fun hc => absurd hc hleg⟩, rfl, ht, hi,
        checkLevels_levels hlev, fun _ => halone, fun _ => hcap⟩
    have hw : DeskWrite cfg (.submitCall now cin) h₂ s₂ _ := .call _ hrow
    have hs₃ := hs.addCall (hw.wf hs.wf)
    refine always_insertCall_bind hw ?_
    unfold proposeFor
    cases plan? with
    | none =>
      refine ⟨hs₃, .unfunded _ _ rfl ?_⟩
      show (if origin = .legacy then Funding.none else cin.funding) = .none
      rw [if_neg horig]
      exact hnone.mp rfl
    | some plan =>
      have hfund : (if origin = .legacy then Funding.none else cin.funding) ≠ .none := by
        rw [if_neg horig]
        exact fun hc => by cases hnone.mpr hc
      have hw' : ∀ h₃, h₂ ⊆ h₃ → DeskWrite cfg (.submitCall now cin) h₃ _ _ := fun h₃ hsub =>
        .proposal _ plan hrow hfund ((hplan plan rfl).mono hsub)
      have hs₄ := hs₃.addProposal ((hw' h₂ (List.Subset.refl h₂)).wf hs₃.wf)
      rw [always_bind]
      exact always_createProposal_bind (hw' _ (List.subset_cons_self _ _))
        ⟨hs₄, .funded _ _ now plan rfl hfund⟩

/-! ## Standing calls -/

theorem heldBy_ok {callId : ℕ} (hs : WF s) (hh : (heldBy callId).eval s = .ok true) :
    ∃ x ∈ s.openPositions, s.currentCall x.callId = callId := by
  obtain ⟨xs, hxs, hh⟩ := Reads.eval_bind_ok hh
  obtain rfl : s.openPositions = xs := Except.ok.inj hxs
  generalize s.openPositions = xs at hh
  induction xs with
  | nil => cases hh
  | cons x xs ih =>
    unfold heldByLoop at hh
    obtain ⟨cid, hcid, hh⟩ := Reads.eval_bind_ok hh
    rw [hs.currentCallId_eval] at hcid
    obtain rfl := Except.ok.inj hcid
    split at hh
    next hx => exact ⟨x, List.mem_cons_self, hx⟩
    · obtain ⟨y, hy, hcy⟩ := ih hh
      exact ⟨y, List.mem_cons_of_mem x hy, hcy⟩

/-- What an admitted extension continues. -/
theorem admitExtension_ok {callId : ℕ} {old : Call} (hs : WF s)
    (ha : (admitExtension callId).eval s = .ok old) :
    old ∈ s.calls ∧ old.id = callId ∧ old.origin ≠ .legacy ∧ old.extendsCallId = none ∧
      s.extension? callId = none ∧
      (∃ r, s.resolution? .call callId = some r ∧ r.how = .horizon) ∧
      ∃ x ∈ s.openPositions, s.currentCall x.callId = callId := by
  obtain ⟨call?, hcall, ha⟩ := Reads.eval_bind_ok ha
  have hcall' : s.call? callId = call? := Except.ok.inj hcall
  cases call? with
  | none => cases ha
  | some c =>
    obtain ⟨_, horig, ha⟩ := Reads.eval_bind_ok ha
    obtain ⟨_, hext, ha⟩ := Reads.eval_bind_ok ha
    obtain ⟨extended, hisext, ha⟩ := Reads.eval_bind_ok ha
    obtain ⟨_, hnext, ha⟩ := Reads.eval_bind_ok ha
    obtain ⟨res, hres, ha⟩ := Reads.eval_bind_ok ha
    obtain ⟨_, hhow, ha⟩ := Reads.eval_bind_ok ha
    obtain ⟨held, hheld, ha⟩ := Reads.eval_bind_ok ha
    obtain ⟨_, hcarry, ha⟩ := Reads.eval_bind_ok ha
    cases ha
    rw [Reads.eval_check] at horig hext hnext hhow hcarry
    obtain ⟨hmem, hid⟩ := call?_some hcall'
    obtain rfl : (s.extension? callId).isSome = extended := Except.ok.inj hisext
    obtain rfl : s.resolution? .call callId = res := Except.ok.inj hres
    have hheld' : held = true := by simpa using refuseIf_ok hcarry
    subst hheld'
    refine ⟨hmem, hid, refuseIf_ok horig, ?_, ?_, ?_, heldBy_ok hs hheld⟩
    · simpa using refuseIf_ok hext
    · simpa using refuseIf_ok hnext
    · have := not_not.mp (refuseIf_ok hhow)
      exact Option.map_eq_some_iff.mp this

/-- **An extension writes one row: an original desk call at its horizon,
not extended yet and with a position to carry, continued on its own name
and direction at the levels given.** -/
theorem extendCall_spec {now : Instant} {callId : ℕ} {target inval thesis : String} {days : ℤ}
    (hs : Sound s) :
    Always Adm (DeskWrite cfg (.extendCall now callId target inval days thesis))
      (fun _ _ s' => Sound s') (extendCall cfg now callId target inval days thesis) h s := by
  unfold extendCall
  refine always_scan_bind (fun old hold => ?_) fun _ _ => hs
  obtain ⟨hmem, hid, horig, hnone, hext, hres, hheld⟩ := admitExtension_ok hs.wf hold
  refine always_check_bind (fun _ _ => ?_) fun _ _ => hs
  refine always_check_bind (fun t ht => ?_) fun _ _ => hs
  refine always_check_bind (fun i hi => ?_) fun _ _ => hs
  refine (freshQuotes_spec now _).bind ?_ fun e h' s' hr => hr.1 ▸ hs
  rintro q h₁ s₁ ⟨rfl, _, _⟩
  refine always_check_bind (fun last _ => ?_) fun _ _ => hs
  refine always_check_bind (fun _ hlev => ?_) fun _ _ => hs
  refine always_check_bind (fun spy _ => ?_) fun _ _ => hs
  refine always_check_bind (fun benchQ _ => ?_) fun _ _ => hs
  have hw : ∀ h', DeskWrite cfg (.extendCall now callId target inval days thesis) h' s₁ _ :=
    fun _ => .extension old t i last.last spy.last benchQ.last hmem hid horig hnone hext hres hheld
      (parsePrice_pos ht) (parsePrice_pos hi) (checkLevels_levels hlev)
  exact always_insertCall_bind (hw _) (hs.addCall ((hw h₁).wf hs.wf))

theorem admitTightening_ok {callId : ℕ} {call : Call} (hs : WF s)
    (ha : (admitTightening callId).eval s = .ok call) :
    call ∈ s.calls ∧ call.id = callId ∧ call.origin ≠ .legacy ∧
      s.resolution? .call callId = none ∧
      ∃ x ∈ s.openPositions, s.currentCall x.callId = callId := by
  obtain ⟨call?, hcall, ha⟩ := Reads.eval_bind_ok ha
  have hcall' : s.call? callId = call? := Except.ok.inj hcall
  cases call? with
  | none => cases ha
  | some c =>
    obtain ⟨_, horig, ha⟩ := Reads.eval_bind_ok ha
    obtain ⟨res, hres, ha⟩ := Reads.eval_bind_ok ha
    obtain ⟨_, hopen, ha⟩ := Reads.eval_bind_ok ha
    obtain ⟨held, hheld, ha⟩ := Reads.eval_bind_ok ha
    obtain ⟨_, hcarry, ha⟩ := Reads.eval_bind_ok ha
    cases ha
    rw [Reads.eval_check] at horig hopen hcarry
    obtain ⟨hmem, hid⟩ := call?_some hcall'
    obtain rfl : s.resolution? .call callId = res := Except.ok.inj hres
    have hheld' : held = true := by simpa using refuseIf_ok hcarry
    subst hheld'
    exact ⟨hmem, hid, refuseIf_ok horig, by simpa using refuseIf_ok hopen, heldBy_ok hs hheld⟩

/-- A tightening writes one row, between the level in effect and the last
price. -/
theorem tightenCall_spec {now : Instant} {callId : ℕ} {text : String} (hs : Sound s) :
    Always Adm (DeskWrite cfg (.tightenCall now callId text)) (fun _ _ s' => Sound s')
      (tightenCall now callId text) h s := by
  unfold tightenCall
  refine always_scan_bind (fun call hcall => ?_) fun _ _ => hs
  obtain ⟨hmem, hid, horig, hopen, hheld⟩ := admitTightening_ok hs.wf hcall
  refine always_check_bind (fun new hnew => ?_) fun _ _ => hs
  refine always_scan_bind (fun cur hcur => ?_) fun _ _ => hs
  obtain rfl : s.effective call = cur := Except.ok.inj hcur
  refine (freshQuotes_spec now _).bind ?_ fun e h' s' hr => hr.1 ▸ hs
  rintro q h₁ s₁ ⟨rfl, _, _⟩
  refine always_check_bind (fun last _ => ?_) fun _ _ => hs
  refine always_check_bind (fun _ hbet => ?_) fun _ _ => hs
  have hw : ∀ h', DeskWrite cfg (.tightenCall now callId text) h' s₁ _ := fun _ =>
    .tighten call new last.last hmem hid horig hopen hheld (parsePrice_pos hnew)
      (not_not.mp (refuseIf_ok hbet))
  unfold tighten
  exact always_update_bind (hw _) ⟨(hw h₁).wf hs.wf, hs.clean.of_same rfl rfl rfl⟩

/-- Exit requests are rows of their own. -/
theorem requestExitFor_spec {now : Instant} {symbol reason : String} (hs : Sound s) :
    Always Adm (DeskWrite cfg (.requestExit now symbol reason)) (fun _ _ s' => Sound s')
      (requestExitFor cfg now symbol reason) h s := by
  have hadd : ∀ (sym : String) (pid : Option ℕ) (s : Store), Sound s →
      Sound (s.addExitRequest sym pid reason now) := fun _ _ s hs =>
    ⟨hs.wf.of_same rfl rfl rfl rfl, hs.clean.of_same rfl rfl rfl⟩
  have hone : ∀ (sym : String) (pid : Option ℕ) (s : Store) (h : History), Sound s →
      Always Adm (DeskWrite cfg (.requestExit now symbol reason)) (fun _ _ s' => Sound s')
        (requestExit sym pid reason now) h s := fun sym pid s h hs =>
    ⟨.exitRequest sym pid, hadd sym pid s hs⟩
  unfold requestExitFor
  refine always_scan_bind (fun xs _ => ?_) fun _ _ => hs
  dsimp only
  split
  · refine Always.bind (R := fun _ _ s' => Sound s') ?_ (fun _ _ _ hr => hr) fun _ _ _ hr => hr
    refine always_foldlM (fun _ _ s => Sound s) (fun x xs b h s hs => ?_) (fun _ _ _ hs => hs) _ _
      _ _ hs
    refine (hone _ _ s h hs).bind (fun _ _ _ hr => hr) fun _ _ _ hr => hr
  · refine always_scan_bind (fun acct _ => ?_) fun _ _ => hs
    refine always_check_bind (fun _ _ => ?_) fun _ _ => hs
    exact (hone _ _ s h hs).bind (fun _ _ _ hr => hr) fun _ _ _ hr => hr

end TradeDesk.Desk
