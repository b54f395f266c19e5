import TradeDesk.Desk.Pass

/-!
# Exits happen exactly when due

The exit half of a pass reads its quotes once and then looks at every open
position. What it does with one is settled by `Looked`; that it gets to the
next needs the exit rule to have an answer for each (`Judged`): the rule
reads the percentage under a stop and the days to close before expiry, and
it reads an expiry off the contract's symbol. The rules it needs were read
when the position was funded or filled, under the same rules. The symbol is
the one the broker listed the contract under, and the broker lists OSI
symbols (`OsiAnswer`); an option proposal is never given another
(`Run.listed`).

A request is marked done only with its position gone from the book
(`WatchWrite.finished`), for which its id has to be its own
(`RequestIds`).
-/

namespace TradeDesk.Desk

open TradeDesk.Async

variable {cfg : Settings} {op : Op} {Adm : ∀ q, Answer q → Prop} {h h' : History}
variable {a b s s' : Store} {init : Store} {log : List Entry} {now : Instant} {cin : CallIn}
variable {window : Option MarketWindow} {x : PaperPosition} {r : Except Exc WatchReport}

/-! ## The contracts the broker lists -/

/-- A chain lists its contracts under OSI symbols. -/
def OsiAnswer (cfg : Settings) : (q : Query) → Answer q → Prop
  | .optionChain _ _ _ _, .ok cs =>
    ∀ c ∈ (cs : List OptionContract), ∃ d, osiExpiry cfg c.osi = .ok d
  | _, _ => True

/-- The exit rule can read a contract's expiry, and how close to it to sell. -/
def Listed (cfg : Settings) (symbol : String) : Prop :=
  (∃ d, osiExpiry cfg symbol = .ok d) ∧ ∃ n, cfg.rules.optionCloseAtDte = .ok n

/-- Candidates are contracts of the chain, and the rules they were picked by
say when to close. -/
theorem select_listed {chain cs : List OptionContract} {direction : Direction} {days : ℤ}
    {cap : ℚ} (hchain : ∀ c ∈ chain, ∃ d, osiExpiry cfg c.osi = .ok d)
    (hselect : select chain direction days cap cfg.rules = .ok cs) :
    ∀ c ∈ cs, Listed cfg c.osi := by
  obtain ⟨_, hdte, hselect⟩ := except_bind_ok hselect
  obtain ⟨_, _, hselect⟩ := except_bind_ok hselect
  obtain ⟨⟨dLo, dHi⟩, _, hselect⟩ := except_bind_ok hselect
  obtain ⟨_, _, hselect⟩ := except_bind_ok hselect
  obtain ⟨_, _, hselect⟩ := except_bind_ok hselect
  obtain ⟨_, _, hselect⟩ := except_bind_ok hselect
  cases hselect
  have hclose : ∃ n, cfg.rules.optionCloseAtDte = .ok n := by
    obtain ⟨_, _, hdte⟩ := except_bind_ok hdte
    obtain ⟨n, hn, _⟩ := except_bind_ok hdte
    exact ⟨n, hn⟩
  intro c hc
  obtain ⟨k, hk, rfl⟩ := List.mem_map.mp hc
  obtain ⟨c, hcmem, hk⟩ := List.mem_filterMap.mp (List.mem_mergeSort.mp (List.mem_of_mem_take hk))
  refine ⟨?_, hclose⟩
  split at hk
  · cases hk
  · dsimp only at hk
    split at hk
    · cases hk
      exact hchain c hcmem
    · cases hk

/-- Shares are funded by shares. -/
theorem fundShares_shares {symbol bench : String} {last inval chase : ℚ} {book : BookState}
    {correlated : List String} {plan : Plan}
    (hp : (fundShares cfg cin symbol bench last inval chase book correlated).eval s = .ok plan) :
    plan.instrument = .shares := by
  obtain ⟨_, _, hp⟩ := Reads.eval_bind_ok hp
  split at hp
  · cases hp
  · obtain ⟨_, _, hp⟩ := Reads.eval_bind_ok hp
    obtain ⟨_, _, hp⟩ := Reads.eval_bind_ok hp
    obtain ⟨_, _, hp⟩ := Reads.eval_bind_ok hp
    split at hp
    · cases hp
    · obtain ⟨_, _, hp⟩ := Reads.eval_bind_ok hp
      obtain ⟨_, _, hp⟩ := Reads.eval_bind_ok hp
      obtain ⟨_, _, hp⟩ := Reads.eval_bind_ok hp
      obtain ⟨_, _, hp⟩ := Reads.eval_bind_ok hp
      obtain ⟨_, _, hp⟩ := Reads.eval_bind_ok hp
      cases hp
      rfl

section

variable (hosi : ∀ q ans, Adm q ans → OsiAnswer cfg q ans)

include hosi

theorem fetchCandidates_listed {symbol : String} {direction : Direction} {days : ℤ} {cap : ℚ}
    {today : Date} :
    Always Adm NoGuarantee (fun r _ _ => ∀ cs, r = .ok cs → ∀ c ∈ cs, Listed cfg c.osi)
      (fetchCandidates cfg.rules symbol direction days cap today) h s := by
  unfold fetchCandidates
  refine always_check_bind (fun lo _ => ?_) fun e _ cs hc => by cases hc
  refine always_check_bind (fun hi _ => ?_) fun e _ cs hc => by cases hc
  refine always_askChain_bind fun answer hans => ?_
  split
  · exact fun cs hc => by cases hc
  · exact fun cs hc => by cases hc
  next chain =>
    rw [always_check]
    exact fun cs hc => select_listed (hosi _ _ hans) hc

/-- An option is funded by a contract that is listed. -/
theorem fundOption_listed {symbol bench : String} {chase : ℚ} {book : BookState}
    {correlated : List String} :
    Always Adm NoGuarantee (fun r _ _ => ∀ plan, r = .ok plan → Listed cfg plan.symbol)
      (fundOption cfg now cin symbol bench chase book correlated) h s := by
  have hstop : ∀ e : Exc, ∀ plan : Plan, (.error e : Except Exc Plan) = .ok plan →
      Listed cfg plan.symbol := fun e plan hp => by cases hp
  unfold fundOption
  refine always_check_bind (fun _ _ => ?_) fun e _ => hstop e
  split
  · exact hstop _
  next osi _ =>
    refine always_check_bind (fun _ _ => ?_) fun e _ => hstop e
    refine always_check_bind (fun _ _ => ?_) fun e _ => hstop e
    refine (fetchCandidates_listed hosi).bind (fun cands h₁ s₁ hcands => ?_) fun e _ _ _ => hstop e
    split
    · exact hstop _
    next chosen hchosen =>
      refine (freshQuotes_last _).bind (fun quotes h₂ s₂ _ => ?_) fun e _ _ _ => hstop e
      refine always_check_bind (fun quote _ => ?_) fun e _ => hstop e
      refine always_check_bind (fun maxEntry _ => ?_) fun e _ => hstop e
      refine always_check_bind (fun qty _ => ?_) fun e _ => hstop e
      refine always_check_bind (fun _ _ => ?_) fun e _ => hstop e
      intro plan hp
      cases hp
      exact hcands cands rfl chosen (List.mem_of_find?_eq_some hchosen)

/-- A plan for an option is for a listed contract. -/
theorem planFor_listed {symbol bench : String} {last inval : ℚ} :
    Always Adm NoGuarantee (fun r _ _ => ∀ plan, r = .ok (some plan) → plan.instrument ≠ .shares →
        Listed cfg plan.symbol)
      (planFor cfg now cin symbol bench last inval) h s := by
  have hstop : ∀ e : Exc, ∀ plan : Plan, (.error e : Except Exc (Option Plan)) = .ok (some plan) →
      plan.instrument ≠ .shares → Listed cfg plan.symbol := fun e plan hp => by cases hp
  unfold planFor
  split
  · exact fun plan hp => by cases hp
  · refine Always.bind (R := fun r _ _ => ∀ plan, r = .ok plan → plan.instrument ≠ .shares →
      Listed cfg plan.symbol) ?_ (fun plan h₁ s₁ hplan => ?_) fun e _ _ _ => hstop e
    · unfold fund
      refine always_check_bind (fun _ _ => ?_) fun e _ plan hp => by cases hp
      refine always_check_bind (fun chase _ => ?_) fun e _ plan hp => by cases hp
      refine always_scan_bind (fun book hbook => ?_) fun e _ plan hp => by cases hp
      refine always_scan_bind (fun correlated hcor => ?_) fun e _ plan hp => by cases hp
      split
      · rw [always_scan]
        exact fun plan hp hne => absurd (fundShares_shares hp) hne
      · exact (fundOption_listed hosi).mono (fun _ _ _ hg => hg) fun _ _ _ hr plan hp _ => hr plan hp
    · intro plan' hp
      cases hp
      exact hplan plan rfl

end

/-! ## Proposals along a run -/

/-- The write makes no option proposal but of a listed contract. -/
def Lists (cfg : Settings) (_ : History) (a b : Store) : Prop :=
  ∀ p ∈ b.proposals, p.instrument ≠ .shares → (∃ q ∈ a.proposals, q.instrument ≠ .shares ∧
    q.symbol = p.symbol) ∨ Listed cfg p.symbol

theorem Lists.of_same (hsame : b.proposals = a.proposals) : Lists cfg h a b := by
  intro p hp hne
  exact .inl ⟨p, hsame ▸ hp, hne, rfl⟩

theorem legacyCall_lists {symbol bench : String} {target inval : ℚ} :
    Always Adm (Lists cfg) (fun _ _ _ => True) (legacyCall cfg now cin symbol bench target inval)
      h s := by
  unfold legacyCall
  refine always_check_bind (fun _ _ => ?_) fun _ _ => trivial
  refine always_scan_bind (fun _ _ => ?_) fun _ _ => trivial
  refine always_check_bind (fun _ _ => ?_) fun _ _ => trivial
  refine always_scan_bind (fun _ _ => ?_) fun _ _ => trivial
  refine always_check_bind (fun _ _ => ?_) fun _ _ => trivial
  refine (freshQuotes_spec now _).bind (fun q h₁ s₁ _ => ?_) fun _ _ _ _ => trivial
  refine always_check_bind (fun _ _ => ?_) fun _ _ => trivial
  refine always_check_bind (fun _ _ => ?_) fun _ _ => trivial
  refine always_check_bind (fun _ _ => ?_) fun _ _ => trivial
  refine always_check_bind (fun _ _ => ?_) fun _ _ => trivial
  exact always_insertCall_bind (.of_same rfl) trivial

/-- **A submission proposes no option but a listed one.** -/
theorem submitCall_lists (hosi : ∀ q ans, Adm q ans → OsiAnswer cfg q ans) :
    Always Adm (Lists cfg) (fun _ _ _ => True) (submitCall cfg now cin) h s := by
  unfold submitCall
  refine always_check_bind (fun bench _ => ?_) fun _ _ => trivial
  refine always_check_bind (fun _ _ => ?_) fun _ _ => trivial
  refine always_check_bind (fun target _ => ?_) fun _ _ => trivial
  refine always_check_bind (fun inval _ => ?_) fun _ _ => trivial
  split
  · exact legacyCall_lists
  · refine always_scan_bind (fun origin _ => ?_) fun _ _ => trivial
    refine (freshQuotes_spec now _).bind (fun q h₁ s₁ _ => ?_) fun _ _ _ _ => trivial
    refine always_check_bind (fun last _ => ?_) fun _ _ => trivial
    refine always_check_bind (fun _ _ => ?_) fun _ _ => trivial
    -- the plan is made without a write
    refine ((planFor_spec (G := Lists cfg)).and (planFor_listed hosi)).mono
      (fun _ _ _ hg => hg.1) (fun _ _ _ hr => hr) |>.bind ?_ fun _ _ _ _ => trivial
    rintro plan? h₂ s₂ ⟨_, hplan⟩
    refine always_check_bind (fun spy _ => ?_) fun _ _ => trivial
    refine always_check_bind (fun benchQ _ => ?_) fun _ _ => trivial
    refine always_insertCall_bind (.of_same rfl) ?_
    unfold proposeFor
    cases plan? with
    | none => trivial
    | some plan =>
      rw [always_bind]
      refine always_createProposal_bind ?_ trivial
      intro p hp hne
      rcases mem_addProposal.mp hp with hp | rfl
      · exact .inl ⟨p, hp, hne, rfl⟩
      · exact .inr (hplan plan rfl hne)

/-- Every other operation makes no proposal at all. -/
theorem DeskWrite.lists (hdw : DeskWrite cfg op h a b) (hop : ∀ now cin, op ≠ .submitCall now cin) :
    Lists cfg h a b := by
  cases hdw with
  | call | proposal => exact absurd rfl (hop _ _)
  | posted p veto mid _ _ _ _ =>
    intro p' hp' hne
    obtain ⟨q, hq, rfl⟩ := Store.mem_stampPosted.mp hp'
    refine .inl ⟨q, hq, ?_, ?_⟩
    · split at hne
      · exact hne
      · exact hne
    · split
      · rfl
      · rfl
  | extension | tighten | exitRequest | dropped | buy | filled | mark | sell | exitDone | resolve =>
    exact .of_same rfl

/-- Every option proposal is for a listed contract. -/
def OptionsListed (cfg : Settings) (s : Store) : Prop :=
  ∀ p ∈ s.proposals, p.instrument ≠ .shares → Listed cfg p.symbol

theorem OptionsListed.step (ha : OptionsListed cfg a) (hl : Lists cfg h a b) :
    OptionsListed cfg b := by
  intro p hp hne
  rcases hl p hp hne with ⟨q, hq, hqne, hsym⟩ | hlisted
  · exact hsym ▸ ha q hq hqne
  · exact hlisted

theorem Run.listed (hrun : Run cfg Adm init log s) (hf : Fresh init)
    (hosi : ∀ q ans, Adm q ans → OsiAnswer cfg q ans) : OptionsListed cfg s := by
  refine hrun.induct (I := fun _ s => OptionsListed cfg s) ?_ ?_ ?_
  · intro p hp
    rw [hf.proposals] at hp
    cases hp
  · intro log s o r h s' hrun hs hruns
    have hkeep : ∀ {R : Except Exc Unit → History → Store → Prop},
        Always Adm (Lists cfg) R (o.prog cfg) [] s → OptionsListed cfg s' := fun hspec =>
      Always.steps_inv (c := ⟨o.prog cfg, [], s⟩) hspec (fun _ _ _ ha hl => ha.step hl) hs hruns
    by_cases hop : ∃ now cin, o = .submitCall now cin
    · obtain ⟨now, cin, rfl⟩ := hop
      have hsubmit : Always Adm (Lists cfg) (fun _ _ _ => True) ((Op.submitCall now cin).prog cfg)
          [] s :=
        (submitCall_lists hosi).bind (fun _ _ _ _ => trivial) fun _ _ _ _ => trivial
      exact hkeep hsubmit
    · exact hkeep ((o.spec (hrun.sound hf.sound)).mono
        (fun _ _ _ hdw => hdw.lists fun now cin he => hop ⟨now, cin, he⟩) fun _ _ _ hr => hr)
  · rintro log s s' hs ⟨_, _, _, _, _, rfl⟩
    exact hs

/-- The rule under a stop, where a share position is open. -/
def StopsRuled (cfg : Settings) (s : Store) : Prop :=
  ∀ x ∈ s.openPositions, x.instrument = .shares →
    ∃ pct, cfg.rules.stopLimitPctBelowTrigger = .ok pct

/-- A share entry reads the rule for its own stop. -/
theorem EntryOk.ruled {p : Proposal} {ask : ℚ} {stop : Option (ℚ × ℚ)}
    (he : EntryOk cfg now window h a p ask stop) (hshares : p.instrument = .shares) :
    ∃ pct, cfg.rules.stopLimitPctBelowTrigger = .ok pct := by
  have hstopped := he.stopped
  rw [if_pos hshares] at hstopped
  obtain ⟨g, inval, _, hg⟩ := hstopped
  obtain ⟨_, _, hg⟩ := except_bind_ok hg
  obtain ⟨_, _, hg⟩ := except_bind_ok hg
  obtain ⟨_, _, hg⟩ := except_bind_ok hg
  obtain ⟨pct, hpct, _⟩ := except_bind_ok hg
  exact ⟨pct, hpct⟩

theorem DeskWrite.stopsRuled (hdw : DeskWrite cfg op h a b) (ha : WF a) (hs : StopsRuled cfg a) :
    StopsRuled cfg b := by
  intro x hx hshares
  cases hdw with
  | proposal c plan _ _ _ =>
    rw [openPositions_addProposal ha] at hx
    exact hs x hx hshares
  | posted p veto mid _ _ _ _ =>
    rw [openPositions_stampPosted] at hx
    exact hs x hx hshares
  | buy p ask stop hp hl hentry =>
    rcases (Touch.fill hp hl rfl rfl rfl).mem_openPositions ha hx with hx | ⟨e, _, rfl⟩
    · exact hs x hx hshares
    · exact hentry.ruled hshares
  | sell p e price reason hp hl _ =>
    rcases (Touch.sell hp hl (f := ⟨p.id, _, .sell, e.quantity, price, reason, none, none⟩) rfl rfl
      hl.fits).mem_openPositions ha hx with hx | ⟨_, he, _⟩
    · exact hs x hx hshares
    · cases he
  | call | extension | tighten | exitRequest | exitDone | dropped | filled | mark | resolve =>
    exact hs x hx hshares

/-- **The exit rule has an answer for every open position.** -/
theorem Sound.judged (hs : Sound s) (hl : OptionsListed cfg s) (hr : StopsRuled cfg s)
    (hx : x ∈ s.openPositions) : Judged cfg now x := by
  intro direction target inval u t
  unfold exitReason
  by_cases hshares : x.instrument = .shares
  · rw [if_pos hshares]
    obtain ⟨pct, hpct⟩ := hr x hx hshares
    obtain ⟨limit, hlimit⟩ : ∃ limit,
        exitLimit cfg x (shareTrigger x.stopTrigger inval) = .ok limit := by
      unfold exitLimit
      rw [hpct]
      split
      · exact ⟨_, rfl⟩
      · exact ⟨_, rfl⟩
    dsimp only
    rw [hlimit]
    show ∃ hit, (if u.last ≤ shareTrigger x.stopTrigger inval then _ else _) = _
    split
    · exact ⟨_, rfl⟩
    · split
      · exact ⟨_, rfl⟩
      · exact ⟨_, rfl⟩
  · rw [if_neg hshares]
    have hlisted : Listed cfg x.symbol := by
      obtain ⟨p, hp, b, _, rfl⟩ := hs.mem_openPositions.mp hx
      exact hl p hp hshares
    obtain ⟨⟨d, hd⟩, n, hn⟩ := hlisted
    rw [hd, hn]
    split
    · exact ⟨_, rfl⟩
    · split
      · exact ⟨_, rfl⟩
      · show ∃ hit, (if d - _ ≤ n then _ else _) = _
        split
        · exact ⟨_, rfl⟩
        · exact ⟨_, rfl⟩

/-! ## Requests -/

/-- No two exit requests have an id in common. -/
def RequestIds (s : Store) : Prop := (s.exitRequests.map (·.id)).Nodup

theorem map_id_markExitDone {rid : ℕ} :
    (a.markExitDone rid now).exitRequests.map (·.id) = a.exitRequests.map (·.id) := by
  unfold Store.markExitDone
  rw [List.map_map]
  refine List.map_congr_left fun r _ => ?_
  show ExitRequest.id (ite _ _ _) = r.id
  split
  · rfl
  · rfl

theorem DeskWrite.requestIds (hdw : DeskWrite cfg op h a b) (ha : RequestIds a) : RequestIds b := by
  cases hdw with
  | exitRequest sym pid =>
    unfold RequestIds Store.addExitRequest
    rw [List.map_append, List.nodup_append]
    refine ⟨ha, List.nodup_singleton _, ?_⟩
    intro i hi j hj hij
    rw [List.map_singleton, List.mem_singleton] at hj
    rw [hij, hj] at hi
    exact nextId_not_mem _ hi
  | exitDone rid =>
    unfold RequestIds
    rw [map_id_markExitDone]
    exact ha
  | call | proposal | extension | tighten | posted | dropped | buy | filled | mark | sell |
    resolve => exact ha

/-- **A request leaves the pending ones with its position closed.** -/
theorem WatchWrite.finished (hw : WatchWrite cfg now h a b) (ha : RequestIds a)
    {r r' : ExitRequest} (hr : r ∈ a.exitRequests) (hr' : r' ∈ b.exitRequests) (hid : r'.id = r.id)
    (hpending : r.doneAt = none) (hdone : r'.doneAt ≠ none) :
    ∀ x ∈ a.openPositions, r.proposalId ≠ some x.proposalId := by
  have hsame : b.exitRequests ≠ a.exitRequests := by
    intro he
    rw [he] at hr'
    rw [List.inj_on_of_nodup_map ha hr' hr hid] at hdone
    exact hdone hpending
  cases hw with
  | done r₁ hrow hclosed =>
    obtain ⟨r₀, hr₀, hid₀, hpid₀⟩ := hrow
    obtain ⟨r₂, hr₂, rfl⟩ := List.mem_map.mp hr'
    split at hdone
    next hmarked =>
      rw [if_pos hmarked] at hid
      obtain rfl := List.inj_on_of_nodup_map ha hr₂ hr hid
      rw [List.inj_on_of_nodup_map ha hr₂ hr₀ (hmarked.trans hid₀.symm), hpid₀]
      exact hclosed
    next hother =>
      rw [if_neg hother] at hid
      rw [List.inj_on_of_nodup_map ha hr₂ hr hid] at hdone
      exact absurd hpending hdone
  | rejected | outcome | fill | mark | sell => exact absurd rfl hsame

/-! ## The pass -/

/-- The exit half from the book `s`, whose one read was answered: it ends,
it sells a position with fresh quotes exactly if that is due, and leaves a
position without them open. -/
def ExitsDue (cfg : Settings) (now : Instant) (h : History) (s : Store)
    (r : Except Exc WatchReport) (h' : History) (s' : Store) : Prop :=
  ∀ quotes, ExitRead h h' quotes → (∃ rep, r = .ok rep) ∧ ∀ x ∈ s.openPositions,
    (∀ u t, FreshPair quotes now x u t → (SoldWhole now s' x ↔ Due cfg now s x u)) ∧
    ((∀ u t, ¬ FreshPair quotes now x u t) → x ∈ s'.openPositions ∧ s'.sells x.proposalId = [])

/-- A request of the pass is marked done only with its position closed. -/
def FinishedClosed (h : History) : Prop :=
  ∀ a b, .wrote a b ∈ h → ∀ r ∈ a.exitRequests, ∀ r' ∈ b.exitRequests, r'.id = r.id →
    r.doneAt = none → r'.doneAt ≠ none → ∀ x ∈ a.openPositions, r.proposalId ≠ some x.proposalId

/-- The two halves of a pass: the entries raise, or the exits follow on the
book they leave. -/
theorem pass_halves (hrth : phaseFor now (sessionWindow cfg now window) = .rth)
    (hpass : Runs Adm (runDeskWatch cfg now window) [] s r h s') :
    (∃ e, r = .error e ∧ Runs Adm (entries cfg now .empty) [] s (.error e) h s') ∨
      ∃ rep h₁ s₁, Runs Adm (entries cfg now .empty) [] s (.ok rep) h₁ s₁ ∧
        Runs Adm (exits cfg now rep) h₁ s₁ r h s' := by
  unfold runDeskWatch at hpass
  rw [if_neg (not_not.mpr hrth)] at hpass
  exact hpass.of_bind

/-- **Exits happen exactly when due.** In every pass inside the session,
whatever run led to it: after the entries, unless they raised, each
position of the book with fresh quotes is sold whole exactly if its rule
fires, its call is resolved or its exit was requested, and the others stay.
A request is marked done only with its position closed. -/
theorem exits_due (hrun : Run cfg Adm init log s) (hf : Fresh init)
    (hosi : ∀ q ans, Adm q ans → OsiAnswer cfg q ans)
    (hrth : phaseFor now (sessionWindow cfg now window) = .rth)
    (hpass : Runs Adm (runDeskWatch cfg now window) [] s r h s') :
    ((∃ e, r = .error e ∧ Runs Adm (entries cfg now .empty) [] s (.error e) h s') ∨
      ∃ rep h₁ s₁, Runs Adm (entries cfg now .empty) [] s (.ok rep) h₁ s₁ ∧
        Runs Adm (exits cfg now rep) h₁ s₁ r h s' ∧ ExitsDue cfg now h₁ s₁ r h s') ∧
    FinishedClosed h := by
  have hs := hrun.sound hf.sound
  have hlisted := hrun.listed hf hosi
  have hruled : StopsRuled cfg s := hrun.keeps hf.sound
    (fun x hx => by
      obtain ⟨p, hp, _⟩ := hf.sound.mem_openPositions.mp hx
      rw [hf.proposals] at hp
      cases hp)
    (fun _ _ _ _ _ ha hr hdw => hdw.stopsRuled ha hr)
    (by rintro a b ha ⟨_, _, _, _, _, rfl⟩; exact ha)
  have hids : RequestIds s := hrun.keeps hf.sound
    (by unfold RequestIds; rw [hf.requests]; exact List.nodup_nil)
    (fun _ _ _ _ _ _ hr hdw => hdw.requestIds hr)
    (by rintro a b ha ⟨_, _, _, _, _, rfl⟩; exact ha)
  constructor
  · rcases pass_halves hrth hpass with hraised | ⟨rep, h₁, s₁, hentries, hexits⟩
    · exact .inl hraised
    · refine .inr ⟨rep, h₁, s₁, hentries, hexits, ?_⟩
      -- the entries keep what the exit rule needs
      have hspec : Always Adm (DeskWrite cfg (.deskWatch now window)) (fun _ _ s' => Sound s')
          (entries cfg now .empty) [] s := entries_spec hrth hs
      have hs₁ : Sound s₁ := hspec.runs hentries
      obtain ⟨_, hlisted₁, hruled₁⟩ : WF s₁ ∧ OptionsListed cfg s₁ ∧ StopsRuled cfg s₁ :=
        Always.steps_inv (c := ⟨_, [], s⟩) hspec
          (J := fun t => WF t ∧ OptionsListed cfg t ∧ StopsRuled cfg t)
          (fun _ _ _ ⟨hwf, hl, hr⟩ hdw => ⟨hdw.wf hwf,
            hl.step (hdw.lists fun _ _ he => by cases he), hdw.stopsRuled hwf hr⟩)
          ⟨hs.wf, hlisted, hruled⟩ hentries
      intro quotes hread
      obtain ⟨hok, hseen⟩ := (exits_watch hs₁).runs hexits quotes hread
        fun x hx => hs₁.judged hlisted₁ hruled₁ hx
      have hafter : Always Adm (DeskWrite cfg (.deskWatch now window)) (fun _ _ s' => Sound s')
          (exits cfg now rep) h₁ s₁ := exits_spec hs₁
      have hs' : Sound s' := hafter.runs hexits
      refine ⟨hok, fun x hx => ⟨fun u t hfresh => ⟨fun hsold => ?_, fun hdue =>
        (hseen x hx).sold u t hfresh hdue⟩, fun hno => ?_⟩⟩
      · by_contra hnot
        have hopen := (hseen x hx).kept fun u' t' hf' => by
          cases hfresh.underlying.symm.trans hf'.underlying
          exact hnot
        obtain ⟨f, hsells, _⟩ := hsold
        rw [hs'.sells_of_open hopen] at hsells
        cases hsells
      · have hopen := (hseen x hx).kept fun u t hf' => absurd hf' (hno u t)
        exact ⟨hopen, hs'.sells_of_open hopen⟩
  · intro a b hmem rq hrq rq' hrq' hid hpending hdone
    have hspec : Always Adm (DeskWrite cfg (.deskWatch now window)) (fun _ _ s' => Sound s')
        (runDeskWatch cfg now window) [] s := runDeskWatch_spec hs
    obtain ⟨_, _, ⟨ha, _, hw⟩, _⟩ := ((hspec.and (runDeskWatch_watch hs)).inv
      (fun _ _ _ ha hw => DeskWrite.requestIds hw.1 ha) hids).wrote hpass hmem
    exact hw.finished ha hrq hrq' hid hpending hdone

theorem quoting_osi (now : Instant) (price : ℚ) :
    ∀ q, OsiAnswer deskSettings q (quoting now price q) := by
  intro q
  cases q with
  | optionChain symbol lo hi kind => exact fun c hc => by cases hc
  | quotes | reactionUsers | post | postMessage => trivial

/-- AAA is held since 10:15, bought at 50. -/
def holding : Store := Script.play deskSettings buying openingStore

/-- Five minutes later it is under its stop, and the pass sells it. -/
theorem exits_due_stopped : ∃ rep h₁ s₁ r h s',
    Runs (OsiAnswer deskSettings) (entries deskSettings (fromMonday 10 20) .empty) [] holding
      (.ok rep) h₁ s₁ ∧
    Runs (OsiAnswer deskSettings) (exits deskSettings (fromMonday 10 20) rep) h₁ s₁ r h s' ∧
    ExitsDue deskSettings (fromMonday 10 20) h₁ s₁ r h s' ∧
    holding.openPositions.length = 1 ∧ s'.openPositions = [] := by
  have hanswers : ∀ x ∈ buying, ∀ q, OsiAnswer deskSettings q (x.2 q) := by
    intro x hx
    simp only [buying, List.mem_cons, List.not_mem_nil, or_false] at hx
    rcases hx with rfl | rfl | rfl <;> exact quoting_osi _ _
  obtain ⟨log, hrun, _⟩ : ∃ log, Run deskSettings (OsiAnswer deskSettings) openingStore log
      holding ∧ _ := Script.play_run hanswers .start
  let pass := runWith (quoting (fromMonday 10 20) 46)
    (runDeskWatch deskSettings (fromMonday 10 20) none) [] holding
  have hended : pass.prog.ended? = some (.ok ⟨[], [], [(1, .stop)], [], false, false⟩) := by
    decide +kernel
  obtain ⟨h, hpass⟩ := runWith_runs (quoting_osi (fromMonday 10 20) 46) hended rfl
  rcases (exits_due hrun openingStore_fresh (fun _ _ ha => ha) (by decide +kernel) hpass).1 with
    ⟨e, hraised, _⟩ | ⟨rep, h₁, s₁, hentries, hexits, hdue⟩
  · cases hraised
  · exact ⟨rep, h₁, s₁, _, h, _, hentries, hexits, hdue, by decide +kernel, by decide +kernel⟩

end TradeDesk.Desk
