import TradeDesk.Desk.Specs

/-!
# The loops write nothing else

The second half of the specifications: posting, expiry, the two halves of
the watch and scoring are loops over rows read once, at the start. `Todo`
says of the proposals still to come that they are as they were read and
have no outcome yet; since the ledger was sound, none of them has a fill
either, which is why an entry is never filled twice in one pass.

`Op.spec` collects every operation; `Run.sound` and `Run.keeps` are what
whole runs inherit.
-/

namespace TradeDesk.Desk

open TradeDesk.Async

variable {cfg : Settings} {op : Op} {Adm : ∀ q, Answer q → Prop} {α β : Type}
variable {G : History → Store → Store → Prop} {R : Except Exc α → History → Store → Prop}
variable {h h' : History} {s s' : Store} {p : Proposal} {ps : List Proposal} {now : Instant}
variable {window : Option MarketWindow} {rep : WatchReport}

/-! ## Proposals still to do -/

structure Todo (ps : List Proposal) (s : Store) : Prop where
  sound : Sound s
  ids : (ps.map (·.id)).Nodup
  rows : ∀ p ∈ ps, p ∈ s.proposals ∧ s.hasOutcome p.id = false

/-- A selection of the proposals without an outcome. -/
theorem Todo.ofFilter (hs : Sound s) {P : Proposal → Bool}
    (hP : ∀ p, P p = true → s.hasOutcome p.id = false) : Todo (s.proposals.filter P) s where
  sound := hs
  ids := hs.wf.proposalIds.sublist ((List.filter_sublist).map _)
  rows := fun p hp => by
    obtain ⟨hmem, hPp⟩ := List.mem_filter.mp hp
    exact ⟨hmem, hP p hPp⟩

theorem Todo.head (ht : Todo (p :: ps) s) : p ∈ s.proposals ∧ HasLife s p .pending := by
  obtain ⟨hmem, hno⟩ := ht.rows p List.mem_cons_self
  exact ⟨hmem, .of_noOutcome ht.sound hmem hno⟩

theorem Todo.tail (ht : Todo (p :: ps) s) : Todo ps s where
  sound := ht.sound
  ids := (List.nodup_cons.mp ht.ids).2
  rows := fun q hq => ht.rows q (List.mem_cons_of_mem p hq)

/-- The proposals to come are other ones. -/
theorem Todo.ne (ht : Todo (p :: ps) s) {q : Proposal} (hq : q ∈ ps) : q.id ≠ p.id := fun he =>
  (List.nodup_cons.mp ht.ids).1 (List.mem_map.mpr ⟨q, hq, he⟩)

/-- An outcome for the first leaves the rest to do. -/
theorem Todo.withOutcome {o : ProposalOutcome} (ht : Todo (p :: ps) s)
    (s₀ : Store) (hprops : s₀.proposals = s.proposals)
    (houts : s₀.proposalOutcomes = s.proposalOutcomes)
    (hno₀ : s₀.hasOutcome o.proposalId = false) (hop : o.proposalId = p.id)
    (hs' : Sound (s₀.withOutcome o)) : Todo ps (s₀.withOutcome o) where
  sound := hs'
  ids := ht.tail.ids
  rows := fun q hq => by
    obtain ⟨hmem, hno⟩ := ht.tail.rows q hq
    refine ⟨hprops ▸ hmem, ?_⟩
    rw [Store.hasOutcome_eq, Store.outcome?_withOutcome hno₀,
      if_neg (fun he => ht.ne hq (he.symm.trans hop)), ← Store.hasOutcome_eq]
    unfold Store.hasOutcome at hno ⊢
    rwa [houts]

/-- The end of one turn of a loop over proposals: the rest is still to do. -/
abbrev TurnEnd (ps : List Proposal) : Except Exc α → History → Store → Prop :=
  turn (fun _ s => Todo ps s) fun _ _ s => Sound s

/-- Dropping the first, for any reason but a fill. -/
theorem recordOutcome_drop {o : Outcome} {vetoed approved : Bool} (ht : Todo (p :: ps) s)
    (hop : op.mayDrop = true) (htime : op.time? = some now) (hne : o ≠ .filled) :
    Always Adm (DeskWrite cfg op) (fun r _ s' => r = .ok () ∧ Todo ps s')
      (recordOutcome p.id now o vetoed approved) h s := by
  obtain ⟨hp, hl⟩ := ht.head
  have hno := hl.noOutcome (o := ⟨p.id, now, o, vetoed, approved⟩) rfl rfl
  have hw : DeskWrite cfg op h s (s.withOutcome ⟨p.id, now, o, vetoed, approved⟩) :=
    .dropped p _ hop htime hp hl rfl hne
  have hs' := Sound.of_touch ht.sound.wf (hw.wf ht.sound.wf)
    (fun q hq _ => ht.sound.clean q hq) rfl hp (hl.drop rfl hne) (fun b hb => by cases hb)
    fun q l hqp hlq => hlq.withOutcome_ne hno fun he => hqp he.symm
  exact always_tryUpdate (Store.addOutcome_of hno) hw ⟨rfl, ht.withOutcome s rfl rfl hno rfl hs'⟩

/-! ## Expiring and posting -/

theorem expireStaleProposals_spec (hs : Sound s) :
    Always Adm (DeskWrite cfg (.expireStale now)) (fun _ _ s' => Sound s')
      (expireStaleProposals cfg now) h s := by
  unfold expireStaleProposals
  refine always_scan_bind (fun ps hps => ?_) fun _ _ => hs
  obtain rfl : s.committed = ps := Except.ok.inj hps
  refine always_foldlM (fun rest _ s => Todo rest s) ?_ (fun _ _ _ ht => ht.sound) _ _ _ _
    (Todo.ofFilter hs fun p hp => by simpa using (Bool.and_eq_true_iff.mp hp).1)
  intro p ps out h s ht
  split
  · refine (recordOutcome_drop ht rfl rfl (by decide)).bind (fun _ _ _ hr => hr.2) ?_
    rintro e h' s' ⟨hr, _⟩
    cases hr
  · exact ht.tail

/-- Posting moves no life, so the ledger stays sound. -/
theorem Sound.stampPosted {pid : ℕ} {t d : Instant} {m : Option String} (hs : Sound s) :
    Sound (s.stampPosted pid t d m) := by
  refine ⟨hs.wf.stampPosted, fun p hp b hb => ?_⟩
  obtain ⟨q, hq, rfl⟩ := Store.mem_stampPosted.mp hp
  split at hb
  · exact hs.clean q hq b ⟨hb.buys, hb.sells, hb.outcome, hb.fits⟩
  · exact hs.clean q hq b ⟨hb.buys, hb.sells, hb.outcome, hb.fits⟩

theorem Todo.stampPosted {t d : Instant} {m : Option String} (ht : Todo (p :: ps) s) :
    Todo ps (s.stampPosted p.id t d m) where
  sound := ht.sound.stampPosted
  ids := ht.tail.ids
  rows := fun q hq => by
    obtain ⟨hmem, hno⟩ := ht.tail.rows q hq
    refine ⟨Store.mem_stampPosted.mpr ⟨q, hmem, ?_⟩, hno⟩
    rw [if_neg fun hc => ht.ne hq hc.1]

theorem postProposal_spec {veto : ℤ} {stop : Instant} {posted : List ℕ} (ht : Todo (p :: ps) s)
    (hveto : vetoWindow cfg.rules = .ok veto) :
    Always Adm (DeskWrite cfg (.postProposals now window)) (TurnEnd ps)
      (postProposal cfg now veto stop posted p) h s := by
  have hdrop : ∀ h, Always Adm (DeskWrite cfg (.postProposals now window)) (TurnEnd ps)
      (do recordOutcome p.id now .expired; return posted) h s := by
    intro h
    refine (recordOutcome_drop ht rfl rfl (by decide)).bind (fun _ _ _ hr => hr.2) ?_
    rintro e h' s' ⟨hr, _⟩
    cases hr
  unfold postProposal
  split
  · exact hdrop h
  next hday =>
    split
    · exact hdrop h
    · refine always_scan_bind (fun call? _ => ?_) fun _ _ => ht.sound
      split
      · exact ht.sound
      next call =>
        refine always_scan_bind (fun text _ => ?_) fun _ _ => ht.sound
        refine always_askPostMessage_bind fun mid? => ?_
        split
        · exact hdrop _
        next mid =>
          obtain ⟨hp, hl⟩ := ht.head
          unfold markPosted
          refine always_transact_bind (.posted p veto mid hp hl (not_lt.mp hday) hveto) ?_
          exact ht.stampPosted

theorem postProposals_spec (hs : Sound s) :
    Always Adm (DeskWrite cfg (.postProposals now window)) (fun _ _ s' => Sound s')
      (postProposals cfg now window) h s := by
  unfold postProposals
  refine always_check_bind (fun veto hveto => ?_) fun _ _ => hs
  refine always_scan_bind (fun ps hps => ?_) fun _ _ => hs
  obtain rfl : s.unposted = ps := Except.ok.inj hps
  exact always_foldlM (fun rest _ s => Todo rest s)
    (fun p ps posted h s ht => postProposal_spec ht hveto) (fun _ _ _ ht => ht.sound) _ _ _ _
    (Todo.ofFilter hs fun p hp => by simpa using (Bool.and_eq_true_iff.mp hp).2)

/-! ## Entries -/

theorem drop_spec {r : Reaction} {o : Outcome} (ht : Todo (p :: ps) s) (hne : o ≠ .filled) :
    Always Adm (DeskWrite cfg (.deskWatch now window)) (TurnEnd ps) (drop p r now o rep) h s := by
  unfold drop
  refine (recordOutcome_drop ht rfl rfl hne).bind (fun _ _ _ hr => hr.2) ?_
  rintro e h' s' ⟨hr, _⟩
  cases hr

/-- What the re-check at the fill price judged. -/
def Rechecked (cfg : Settings) (s : Store) (p : Proposal) (ask : ℚ) : Prop :=
  ∃ book bench correlated, (bookState (some p.id)).eval s = .ok book ∧
    checkBook book p.underlying bench (ask * p.quantity * mult p.instrument)
      (p.instrument != .shares) correlated cfg.rules cfg.reserve = .ok ()

/-- The fill, and the outcome that closes the proposal. -/
theorem buy_spec {call : Call} {ask : ℚ} {stop : Option (ℚ × ℚ)} {r : Reaction}
    (ht : Todo (p :: ps) s) (hok : Rechecked cfg s p ask → EntryOk cfg now window h s p ask stop) :
    Always Adm (DeskWrite cfg (.deskWatch now window)) (TurnEnd ps)
      (buy cfg p call ask stop r now rep) h s := by
  obtain ⟨hp, hl⟩ := ht.head
  unfold buy
  refine always_scan_bind (fun checked hchecked => ?_) fun _ _ => ht.sound
  obtain ⟨book, hbook, hchecked⟩ := Reads.eval_bind_ok hchecked
  obtain ⟨correlated, _, hchecked⟩ := Reads.eval_bind_ok hchecked
  cases hchecked
  split
  · exact drop_spec ht (by decide)
  · exact ht.sound
  next hcheck =>
    have hentry := hok ⟨book, call.benchmark, correlated, hbook, hcheck⟩
    unfold recordFill
    refine always_update_bind (.buy p ask stop hp hl hentry) ?_
    have hwf₁ := (DeskWrite.buy p ask stop hp hl hentry).wf ht.sound.wf
    have hl₁ := hl.fill (f := ⟨p.id, now, .buy, p.quantity, ask, .entry, stop.map (·.1),
      stop.map (·.2)⟩) rfl rfl rfl
    have hno := hl₁.noOutcome (o := ⟨p.id, now, .filled, r.veto, r.approve⟩) rfl rfl
    have hw₂ : ∀ h, DeskWrite cfg (.deskWatch now window) h (s.addFill _)
        ((s.addFill _).withOutcome ⟨p.id, now, .filled, r.veto, r.approve⟩) := fun _ =>
      .filled p _ _ hp hl₁ rfl rfl
    -- only this proposal stands between its fill and its outcome
    have hs₂ := Sound.of_touch hwf₁ ((hw₂ h).wf hwf₁)
      (fun q hq hqp b hb => ht.sound.clean q hq b (by
        obtain ⟨lq, hlq⟩ := ht.sound.wf.lives q hq
        rw [(hlq.addFill_ne fun he => hqp he.symm).unique hb] at hlq
        exact hlq))
      rfl hp (hl₁.settle rfl rfl) (fun b hb => by cases hb)
      fun q l hqp hlq => hlq.withOutcome_ne hno fun he => hqp he.symm
    refine Always.bind (R := fun r _ s' => r = .ok () ∧ Todo ps s')
      (always_tryUpdate (Store.addOutcome_of hno) (hw₂ _)
        ⟨rfl, ht.withOutcome (s.addFill _) rfl rfl hno rfl hs₂⟩) ?_ ?_
    · rintro _ h₃ s₃ ⟨_, ht₃⟩
      exact always_askPost_bind fun _ => ht₃
    · rintro e h₃ s₃ ⟨hr, _⟩
      cases hr

/-- Who reviewed a proposal. -/
theorem reactionOf_spec :
    Always Adm G (fun r h' s' => s' = s ∧ h ⊆ h' ∧ ∀ re, r = .ok re → re.approve = true →
        ∃ mid, p.messageId = some mid ∧ ReadApproval cfg h' mid) (reactionOf cfg p) h s := by
  have hnone : ∀ re : Reaction, (Except.ok ⟨false, false, false⟩ : Except Exc Reaction) = .ok re →
      re.approve = true → ∃ mid, p.messageId = some mid ∧ ReadApproval cfg h mid :=
    fun re hre happ => by
      cases hre
      cases happ
  unfold reactionOf
  split
  · exact ⟨rfl, List.Subset.refl h, hnone⟩
  next mid hmid =>
    split
    · exact ⟨rfl, List.Subset.refl h, hnone⟩
    · refine (readReactions_spec cfg mid).mono (fun _ _ _ hg => hg) ?_
      rintro r h' s' ⟨rfl, ⟨new, rfl⟩, re, rfl, happ⟩
      refine ⟨rfl, fun x hx => List.mem_append_right new hx, fun re' hre hap => ?_⟩
      cases hre
      exact ⟨mid, hmid, happ hap⟩

theorem through_iff {direction : Direction} {last inval : ℚ} :
    through direction last inval = true ↔ match direction with
      | .up => last ≤ inval
      | .down => inval ≤ last := by
  cases direction <;> simp [through]

/-- Filling or dropping one proposal, on the quotes it was given. -/
theorem fillEntry_spec {q u : Option Quote} {r : Reaction} (ht : Todo (p :: ps) s)
    (hok : ∀ ask stop, (∃ qq, q = some qq ∧ qq.ask = ask) → 0 < ask → ask ≤ p.maxEntryPrice →
      (if p.instrument = .shares then ∃ g inval, stop = some (g.trigger, g.limit) ∧
        shareStop cfg p ask inval = .ok g else stop = none) →
      Rechecked cfg s p ask → EntryOk cfg now window h s p ask stop) :
    Always Adm (DeskWrite cfg (.deskWatch now window)) (TurnEnd ps)
      (fillEntry cfg p q u r now rep) h s := by
  unfold fillEntry
  split
  · exact drop_spec ht (by decide)
  next qq hqq =>
    obtain ⟨hq, hask⟩ := Option.filter_eq_some_iff.mp hqq
    obtain ⟨hpos, hlimit⟩ : 0 < qq.ask ∧ qq.ask ≤ p.maxEntryPrice := by simpa using hask
    refine always_scan_bind (fun call? _ => ?_) fun _ _ => ht.sound
    split
    · exact ht.sound
    next call =>
      refine always_scan_bind (fun inval _ => ?_) fun _ _ => ht.sound
      split
      next hshares =>
        split
        · exact drop_spec ht (by decide)
        · exact ht.sound
        next stop hstop =>
          refine buy_spec ht fun hre => hok _ _ ⟨qq, hq, rfl⟩ hpos hlimit ?_ hre
          rw [if_pos hshares]
          exact ⟨stop, inval, rfl, hstop⟩
      next hshares =>
        split
        · exact drop_spec ht (by decide)
        · refine buy_spec ht fun hre => hok _ _ ⟨qq, hq, rfl⟩ hpos hlimit ?_ hre
          rw [if_neg hshares]

theorem stale_false {q : Option Quote} (hst : stale q now = false) :
    ∀ qq, q = some qq → Fresh? now qq := by
  rintro qq rfl
  simpa [stale, Fresh?] using hst

theorem due_reviewed {r : Reaction} (hdue : due p r now = true)
    (happ : r.approve = true → ∃ mid, p.messageId = some mid ∧ ReadApproval cfg h mid) :
    (∃ d, p.vetoDeadline = some d ∧ d ≤ now) ∨
      ∃ mid, p.messageId = some mid ∧ ReadApproval cfg h mid := by
  rcases Bool.or_eq_true_iff.mp hdue with ha | hd
  · exact Or.inr (happ ha)
  · cases hdl : p.vetoDeadline with
    | none => simp [hdl] at hd
    | some d => exact Or.inl ⟨d, rfl, by simpa [hdl] using hd⟩

/-- One turn of the entry loop. -/
theorem entry_spec (hrth : phaseFor now (sessionWindow cfg now window) = .rth)
    (ht : Todo (p :: ps) s) :
    Always Adm (DeskWrite cfg (.deskWatch now window)) (TurnEnd ps) (entry cfg now rep p) h s := by
  unfold entry
  split
  · exact ht.tail
  next posted hposted =>
    split
    · exact drop_spec ht (by decide)
    next hopen =>
      obtain ⟨hday, hcut⟩ := not_or.mp hopen
      refine reactionOf_spec.bind ?_ fun e h' s' hr => hr.1 ▸ ht.sound
      rintro r h₁ s₁ ⟨rfl, _, happ⟩
      split
      · exact ht.tail
      next hdue =>
        have hdue' : due p r now = true := by simpa using hdue
        have hreviewed := due_reviewed hdue' (happ r rfl)
        refine always_askQuotes_bind fun answer _ => ?_
        split
        · refine (drop_spec ht (by decide)).bind (fun _ _ _ hr => hr) fun _ _ _ hr => hr
        · exact ht.tail
        · exact ht.sound
        next quotes _ =>
          split
          · exact ht.tail
          next hstale =>
            obtain ⟨hst, hst'⟩ := Bool.or_eq_false_iff.mp (Bool.eq_false_iff.mpr hstale)
            refine fillEntry_spec ht fun ask stop hask hpos hlimit hstop hre => ?_
            obtain ⟨qq, hq, hqa⟩ := hask
            refine ⟨hrth, not_le.mp hcut, ⟨posted, hposted, not_lt.mp hday⟩, ?_,
              ⟨quotes, qq, ⟨_, List.mem_cons_self⟩, hq, hqa, stale_false hst qq hq,
                stale_false hst'⟩, hpos, hlimit, hstop, hre⟩
            rcases hreviewed with hd | ⟨mid, hmid, hread⟩
            · exact Or.inl hd
            · exact Or.inr ⟨mid, hmid, hread.mono fun e he => List.mem_cons_of_mem _ he⟩

theorem entries_spec (hrth : phaseFor now (sessionWindow cfg now window) = .rth) (hs : Sound s) :
    Always Adm (DeskWrite cfg (.deskWatch now window)) (fun _ _ s' => Sound s')
      (entries cfg now rep) h s := by
  unfold entries
  refine always_scan_bind (fun ps hps => ?_) fun _ _ => hs
  obtain rfl : s.pending = ps := Except.ok.inj hps
  exact always_foldlM (fun rest _ s => Todo rest s)
    (fun p ps rep h s ht => entry_spec hrth ht) (fun _ _ _ ht => ht.sound) _ _ _ _
    (Todo.ofFilter hs fun p hp => by simpa using hp)

/-! ## Exits -/

/-- Positions still to look at: open as they were read, and the quotes
they are looked at with. -/
structure StillOpen (quotes : Quotes) (xs : List PaperPosition) (h : History) (s : Store) :
    Prop where
  sound : Sound s
  read : ReadQuotes h quotes
  ids : (xs.map (·.proposalId)).Nodup
  isOpen : ∀ x ∈ xs, x ∈ s.openPositions

variable {x : PaperPosition} {xs : List PaperPosition} {quotes : Quotes}

theorem StillOpen.tail (ho : StillOpen quotes (x :: xs) h s) : StillOpen quotes xs h s where
  sound := ho.sound
  read := ho.read
  ids := (List.nodup_cons.mp ho.ids).2
  isOpen := fun y hy => ho.isOpen y (List.mem_cons_of_mem x hy)

theorem StillOpen.mono (ho : StillOpen quotes xs h s) (hsub : h ⊆ h') : StillOpen quotes xs h' s :=
  { ho with read := ho.read.mono hsub }

/-- A statement on the other tables keeps the ledger sound. -/
theorem Sound.of_same (hs : Sound s) (hcalls : s'.calls = s.calls)
    (hprops : s'.proposals = s.proposals) (houts : s'.proposalOutcomes = s.proposalOutcomes)
    (hfills : s'.paperFills = s.paperFills) : Sound s' :=
  ⟨hs.wf.of_same hcalls hprops houts hfills, hs.clean.of_same hprops houts hfills⟩

theorem StillOpen.upsertMark (ho : StillOpen quotes xs h s) (symbol : String) (price : ℚ)
    (now : Instant) : StillOpen quotes xs h (s.upsertMark symbol price now) where
  sound := ho.sound.of_same rfl rfl rfl rfl
  read := ho.read
  ids := ho.ids
  isOpen := ho.isOpen

/-- A fill of another proposal leaves a position open. -/
theorem Sound.open_addFill {f : PaperFill} (hs : Sound s) (hs' : Sound (s.addFill f))
    (hx : x ∈ s.openPositions) (hne : f.proposalId ≠ x.proposalId) :
    x ∈ (s.addFill f).openPositions := by
  obtain ⟨p, hp, b, hl, rfl⟩ := hs.mem_openPositions.mp hx
  exact hs'.mem_openPositions.mpr ⟨p, hp, b, hl.addFill_ne hne, rfl⟩

/-- Selling one position leaves the others open. -/
theorem StillOpen.sell {f : PaperFill} (ho : StillOpen quotes (x :: xs) h s) (hs' : Sound (s.addFill f))
    (hf : f.proposalId = x.proposalId) : StillOpen quotes xs h (s.addFill f) where
  sound := hs'
  read := ho.read
  ids := ho.tail.ids
  isOpen := fun y hy => ho.sound.open_addFill hs' (ho.tail.isOpen y hy) fun he =>
    (List.nodup_cons.mp ho.ids).1 (List.mem_map.mpr ⟨_, hy, (hf.symm.trans he).symm⟩)

/-- The price of an exit. -/
theorem exitReason_price {direction : Direction} {target inval price : ℚ} {u t : Quote}
    {today : Date} {reason : FillReason}
    (he : exitReason cfg x direction target inval u t today = .ok (some (reason, price))) :
    price = t.bid ∨ price = shareTrigger x.stopTrigger inval := by
  unfold exitReason at he
  split at he
  · obtain ⟨limit, _, he⟩ := except_bind_ok he
    split at he
    · cases he
      split
      · exact Or.inr rfl
      · exact Or.inl rfl
    · split at he
      · cases he
        exact Or.inl rfl
      · cases he
  · split at he
    · cases he
      exact Or.inl rfl
    · split at he
      · cases he
        exact Or.inl rfl
      · obtain ⟨expiry, _, he⟩ := except_bind_ok he
        obtain ⟨dte, _, he⟩ := except_bind_ok he
        split at he
        · cases he
          exact Or.inl rfl
        · cases he

theorem otherReason_price {wanted : Bool} {cid : ℕ} {bid price : ℚ} {reason : FillReason}
    (he : (otherReason cfg now wanted cid bid).eval s = .ok (some (reason, price))) :
    price = bid := by
  have hasked : ∀ r, (if wanted then some (FillReason.pmExit, bid) else none) = some r →
      r.2 = bid := by
    intro r hr
    split at hr
    · cases hr
      rfl
    · cases hr
  unfold otherReason at he
  dsimp only at he
  split at he
  · exact hasked _ (Except.ok.inj he)
  · obtain ⟨res, _, he⟩ := Reads.eval_bind_ok he
    have he := Except.ok.inj he
    split at he
    · cases he
      rfl
    · exact hasked _ he

/-- The end of one turn of the exit loop. -/
abbrev ExitEnd (quotes : Quotes) (xs : List PaperPosition) : Except Exc α → History → Store → Prop :=
  turn (StillOpen quotes xs) fun _ _ s => Sound s

/-- One whole sale of one position. -/
theorem sell_spec {reason : FillReason} {price : ℚ} (ho : StillOpen quotes (x :: xs) h s)
    (hat : SaleAt h s x price) :
    Always Adm (DeskWrite cfg (.deskWatch now window)) (ExitEnd quotes xs)
      (sell x reason price now rep) h s := by
  obtain ⟨p, hp, b, hl, rfl⟩ := ho.sound.mem_openPositions.mp (ho.isOpen x List.mem_cons_self)
  have hw : ∀ h', SaleAt h' s (p.position b) price →
      DeskWrite cfg (.deskWatch now window) h' s (s.addFill _) := fun _ hat' =>
    .sell p b price reason hp hl hat'
  have hs' : Sound (s.addFill ⟨p.id, now, .sell, b.quantity, price, reason, none, none⟩) :=
    Sound.of_touch ho.sound.wf ((hw h hat).wf ho.sound.wf)
      (fun q hq _ => ho.sound.clean q hq) rfl hp (hl.sell rfl rfl hl.fits) (fun b hb => by cases hb)
      fun q l hqp hlq => hlq.addFill_ne fun he => hqp he.symm
  unfold sell recordFill
  refine always_update_bind (hw h hat) ?_
  refine always_askPost_bind fun _ => ?_
  exact (ho.sell hs' rfl).mono fun e he => List.mem_cons_of_mem _ (List.mem_cons_of_mem _ he)

/-- One turn of the exit loop: mark the position and sell it, or not. -/
theorem exitPosition_spec {wanted : List ℕ} (ho : StillOpen quotes (x :: xs) h s) :
    Always Adm (DeskWrite cfg (.deskWatch now window)) (ExitEnd quotes xs)
      (exitPosition cfg now quotes wanted rep x) h s := by
  unfold exitPosition
  split
  next u t hu ht =>
    split
    · exact ho.tail
    next hstale =>
      obtain ⟨hsu, hst⟩ := Bool.or_eq_false_iff.mp (Bool.eq_false_iff.mpr hstale)
      unfold upsertMark
      refine always_update_bind (.mark x _ (ho.isOpen x List.mem_cons_self) ⟨quotes, u, t, ho.read,
        hu, ht, stale_false hsu u rfl, stale_false hst t rfl, rfl⟩) ?_
      have ho' : StillOpen quotes (x :: xs) (.wrote s
          (s.upsertMark x.symbol (markPrice x u t) now) :: h) _ :=
        (ho.upsertMark x.symbol (markPrice x u t) now).mono (List.subset_cons_self _ _)
      refine always_scan_bind (fun cid _ => ?_) fun _ _ => ho'.sound
      refine always_scan_bind (fun call? hcall => ?_) fun _ _ => ho'.sound
      split
      · exact ho'.sound
      next call =>
        have hmem := (call?_some (Except.ok.inj hcall)).1
        refine always_scan_bind (fun inval hinval => ?_) fun _ _ => ho'.sound
        refine always_check_bind (fun hit hhit => ?_) fun _ _ => ho'.sound
        split
        next reason price =>
          refine sell_spec ho' ?_
          rcases exitReason_price hhit with hp | hp
          · exact Or.inl ⟨quotes, t, ho'.read, ht, hp⟩
          · obtain rfl := Except.ok.inj hinval
            exact Or.inr ⟨call, hmem, hp⟩
        · refine always_scan_bind (fun other hother => ?_) fun _ _ => ho'.sound
          split
          next reason price =>
            exact sell_spec ho' (Or.inl ⟨quotes, t, ho'.read, ht, otherReason_price hother⟩)
          · exact ho'.tail
  · exact ho.tail

theorem finishRequests_spec {requests : List ExitRequest} (hs : Sound s) :
    Always Adm (DeskWrite cfg (.deskWatch now window)) (fun _ _ s' => Sound s')
      (finishRequests now requests rep) h s := by
  unfold finishRequests
  refine always_scan_bind (fun xs _ => ?_) fun _ _ => hs
  refine always_foldlM (fun _ _ s => Sound s) (fun r rs rep h s hs => ?_) (fun _ _ _ hs => hs)
    _ _ _ _ hs
  unfold finishRequest
  split
  · refine always_askPost_bind fun _ => ?_
    unfold markExitDone
    exact always_update_bind (.exitDone r.id) (hs.of_same rfl rfl rfl rfl)
  · split
    · exact hs
    · unfold markExitDone
      exact always_update_bind (.exitDone r.id) (hs.of_same rfl rfl rfl rfl)

theorem exits_spec (hs : Sound s) :
    Always Adm (DeskWrite cfg (.deskWatch now window)) (fun _ _ s' => Sound s')
      (exits cfg now rep) h s := by
  unfold exits
  refine always_scan_bind (fun xs hxs => ?_) fun _ _ => hs
  obtain rfl : s.openPositions = xs := Except.ok.inj hxs
  refine always_scan_bind (fun requests _ => ?_) fun _ _ => hs
  split
  · exact finishRequests_spec hs
  · refine always_askQuotes_bind fun answer _ => ?_
    split
    · exact hs
    · exact hs
    · exact hs
    next quotes _ =>
      refine Always.bind (R := fun _ _ s' => Sound s') ?_
        (fun rep h s hs => finishRequests_spec hs) fun _ _ _ hr => hr
      exact always_foldlM (StillOpen quotes) (fun x xs rep h s ho => exitPosition_spec ho)
        (fun _ _ _ ho => ho.sound) _ _ _ _
        ⟨hs, ⟨_, List.mem_cons_self⟩, hs.wf.openPositions_nodup, fun x hx => hx⟩

/-- **A pass of the watch** fills, drops, marks and sells, each on what it
has just read, and nothing outside the session. -/
theorem runDeskWatch_spec (hs : Sound s) :
    Always Adm (DeskWrite cfg (.deskWatch now window)) (fun _ _ s' => Sound s')
      (runDeskWatch cfg now window) h s := by
  unfold runDeskWatch
  split
  · exact hs
  next hphase =>
    exact (entries_spec (not_not.mp hphase) hs).bind (fun rep h s hs => exits_spec hs)
      fun _ _ _ hr => hr

/-! ## Scoring -/

/-- Items still to score: the calls among them are in the table. -/
structure Scorable (items : List Item) (s : Store) : Prop where
  sound : Sound s
  calls : ∀ item ∈ items, item.kind = .call → ∃ c ∈ s.calls, c.id = item.itemId

theorem Scorable.tail {item : Item} {items : List Item} (hi : Scorable (item :: items) s) :
    Scorable items s :=
  ⟨hi.sound, fun it hit => hi.calls it (List.mem_cons_of_mem item hit)⟩

theorem loadOpenItems_ok {items : List Item} (hl : loadOpenItems.eval s = .ok items) :
    ∀ item ∈ items, item.kind = .call → ∃ c ∈ s.calls, c.id = item.itemId := by
  obtain ⟨pitches, _, hl⟩ := Reads.eval_bind_ok hl
  obtain ⟨calls, hcalls, hl⟩ := Reads.eval_bind_ok hl
  cases hl
  intro item hitem hkind
  rcases List.mem_append.mp hitem with hitem | hitem
  · obtain ⟨p, _, rfl⟩ := List.mem_map.mp hitem
    cases hkind
  · obtain ⟨c, hc, rfl⟩ := List.mem_map.mp hitem
    rw [← Except.ok.inj hcalls] at hc
    exact ⟨c, (List.mem_filter.mp hc).1, rfl⟩

theorem score_spec (hs : Sound s) :
    Always Adm (DeskWrite cfg .score) (fun _ _ s' => Sound s') score h s := by
  refine always_score (I := fun _ items _ s' => Scorable items s') (fun _ => hs)
    (fun _ _ hl _ => ⟨hs, loadOpenItems_ok hl⟩) ?_ (fun _ _ _ _ hi => hi.sound)
  intro earliest item items h s' _ hi
  cases hres : scoredOn s earliest item with
  | error e => exact hi.sound
  | ok res =>
    cases res with
    | none => exact hi.tail
    | some r =>
      refine .resolved (fun hnone => ?_) hi.tail
      obtain ⟨hkind, hid⟩ := resolve_item hres
      have hw : DeskWrite cfg .score h s' (s'.withResolution r) := .resolve r hnone fun hk => by
        rw [hid]
        exact hi.calls item List.mem_cons_self (hkind.symm.trans hk)
      rw [addResolution_of hnone]
      exact ⟨hw, hi.sound.of_same rfl rfl rfl rfl, hi.tail.calls⟩

/-! ## Every operation, every run -/

/-- **Every operation makes only the writes listed for it, and leaves the
ledger sound.** -/
theorem Op.spec (op : Op) (hs : Sound s) :
    Always Adm (DeskWrite cfg op) (fun _ _ s' => Sound s') (op.prog cfg) h s := by
  have hend : ∀ {γ : Type} {prog : DeskM γ},
      Always Adm (DeskWrite cfg op) (fun _ _ s' => Sound s') prog h s →
      Always Adm (DeskWrite cfg op) (fun _ _ s' => Sound s')
        (do let _ ← prog; return () : DeskM Unit) h s :=
    fun hp => hp.bind (fun _ _ _ hr => hr) fun _ _ _ hr => hr
  cases op with
  | submitCall now cin => exact hend ((submitCall_spec hs).mono (fun _ _ _ hg => hg) fun _ _ _ hr => hr.1)
  | extendCall now callId target inval days thesis => exact hend (extendCall_spec hs)
  | tightenCall now callId text => exact hend (tightenCall_spec hs)
  | requestExit now symbol reason => exact hend (requestExitFor_spec hs)
  | postProposals now window => exact hend (postProposals_spec hs)
  | expireStale now => exact hend (expireStaleProposals_spec hs)
  | deskWatch now window => exact hend (runDeskWatch_spec hs)
  | score => exact hend (score_spec hs)

theorem Fresh.sound (hf : Fresh s) : Sound s := by
  have hp : ∀ p, p ∉ s.proposals := fun p hp => by
    rw [hf.proposals] at hp
    cases hp
  have hc : ∀ c, c ∉ s.calls := fun c hc => by
    rw [hf.calls] at hc
    cases hc
  refine ⟨⟨by rw [hf.calls]; exact List.nodup_nil, fun c h => absurd h (hc c),
    fun c h => absurd h (hc c), by rw [hf.proposals]; exact List.nodup_nil,
    fun p h => absurd h (hp p), ?_, ?_, fun p h => absurd h (hp p), fun p h => absurd h (hp p)⟩,
    fun p h => absurd h (hp p)⟩
  · rw [hf.outcomes]
    exact fun o ho => by cases ho
  · rw [hf.fills]
    exact fun f hf => by cases hf

theorem World.sound (hw : World s s') (hs : Sound s) : Sound s' := by
  obtain ⟨_, _, _, _, _, rfl⟩ := hw
  exact hs.of_same rfl rfl rfl rfl

/-- **Every run leaves a sound ledger.** -/
theorem Run.sound {init : Store} {log : List Entry} (hrun : Run cfg Adm init log s)
    (hinit : Sound init) : Sound s :=
  hrun.induct (I := fun _ s => Sound s) hinit
    (fun _ _ o _ _ _ _ hs hruns => (o.spec hs).runs hruns) fun _ _ _ hs hw => hw.sound hs

section

variable {init : Store} {log : List Entry} {J : Store → Prop}

/-- The operation's own writes, from a well-formed ledger with `J`. -/
theorem Op.keeping {o : Op} (hs : Sound s) (hJ : J s)
    (hwrite : ∀ h a b, Told Adm h → WF a → J a → DeskWrite cfg o h a b → J b) :
    Always Adm (fun h a b => (WF a ∧ J a) ∧ Told Adm h ∧ DeskWrite cfg o h a b)
      (fun _ _ s' => Sound s' ∧ J s') (o.prog cfg) [] s :=
  (((o.spec hs).told Told.nil).inv (J := fun s => WF s ∧ J s)
    (fun _ _ _ ha hw => ⟨hw.2.wf ha.1, hwrite _ _ _ hw.1 ha.1 ha.2 hw.2⟩) ⟨hs.wf, hJ⟩).mono
      (fun _ _ _ hg => hg) fun _ _ _ hr => ⟨hr.2.2, hr.1.2⟩

/-- **Invariants of runs.** What every write of a well-formed ledger keeps,
and the rest of the engine does not touch, holds after every run. -/
theorem Run.keeps (hrun : Run cfg Adm init log s) (hinit : Sound init) (h0 : J init)
    (hwrite : ∀ op h a b, Told Adm h → WF a → J a → DeskWrite cfg op h a b → J b)
    (hworld : ∀ a b, J a → World a b → J b) : J s := by
  have hboth : Sound s ∧ J s :=
    hrun.induct (I := fun _ s => Sound s ∧ J s) ⟨hinit, h0⟩
      (fun _ _ _ _ _ _ _ hs hruns => (Op.keeping hs.1 hs.2 (hwrite _)).runs hruns)
      fun _ _ _ hs hw => ⟨hw.sound hs.1, hworld _ _ hs.2 hw⟩
  exact hboth.2

/-- The same in every state the desk can be found in. -/
theorem Reached.keeps (hr : Reached cfg Adm init s) (hinit : Sound init) (h0 : J init)
    (hwrite : ∀ op h a b, Told Adm h → WF a → J a → DeskWrite cfg op h a b → J b)
    (hworld : ∀ a b, J a → World a b → J b) : WF s ∧ J s := by
  obtain ⟨log, s₀, o, p, h, hrun, hsteps⟩ := hr
  have hs := hrun.sound hinit
  have hJ := hrun.keeps hinit h0 hwrite hworld
  exact Always.steps_inv (J := fun s => WF s ∧ J s) (Op.keeping hs hJ (hwrite o))
    (fun _ _ _ ha hw => ⟨hw.2.2.wf ha.1, hwrite o _ _ _ hw.2.1 ha.1 ha.2 hw.2.2⟩) ⟨hs.wf, hJ⟩
    hsteps

/-- What a run wrote: each statement is one of those listed for its
operation, made from a well-formed ledger. -/
theorem Run.wrote (hrun : Run cfg Adm init log s) (hinit : Sound init) :
    ∀ e ∈ log, ∀ a b, .wrote a b ∈ e.hist → ∃ h post, e.hist = post ++ .wrote a b :: h ∧
      Told Adm h ∧ WF a ∧ DeskWrite cfg e.op h a b := by
  refine hrun.induct (I := fun log _ => ∀ e ∈ log, ∀ a b, .wrote a b ∈ e.hist → ∃ h post,
    e.hist = post ++ .wrote a b :: h ∧ Told Adm h ∧ WF a ∧ DeskWrite cfg e.op h a b)
    (fun e he => by cases he) ?_ fun _ _ _ hI _ => hI
  intro log s o r h s' hrun hI hruns e he a b hmem
  rcases List.mem_cons.mp he with rfl | he
  · obtain ⟨h', post, ⟨hw, ht, hdw⟩, hsplit⟩ := (Op.keeping (J := fun _ => True)
      (hrun.sound hinit) trivial fun _ _ _ _ _ _ _ => trivial).wrote hruns hmem
    exact ⟨h', post, hsplit, ht, hw.1, hdw⟩
  · exact hI e he a b hmem

/-- **Runs whose writes are all allowed.** What every allowed write keeps
holds at the end, and before and after each statement of the run. -/
theorem Run.along {C : Op → Store → Store → Prop} (hrun : Run cfg Adm init log s)
    (hinit : Sound init) (h0 : J init)
    (hwrite : ∀ op h a b, Told Adm h → WF a → J a → DeskWrite cfg op h a b → C op a b → J b)
    (hworld : ∀ a b, J a → World a b → J b)
    (hC : ∀ e ∈ log, ∀ a b, .wrote a b ∈ e.hist → C e.op a b) : Throughout J log s := by
  refine hrun.induct (I := fun log s => (∀ e ∈ log, ∀ a b, .wrote a b ∈ e.hist → C e.op a b) →
    Throughout J log s)
    (fun _ => ⟨h0, fun e he => by cases he⟩) ?_ ?_ hC
  · intro log s o r h s' hrun hI hruns hC
    obtain ⟨hJ, hlog⟩ := hI fun e he => hC e (List.mem_cons_of_mem _ he)
    have hs := hrun.sound hinit
    obtain ⟨⟨_, hJ'⟩, hhist⟩ := (Op.keeping (J := fun _ => True) hs trivial
      fun _ _ _ _ _ _ _ => trivial).along (J := fun s => WF s ∧ J s) (C := C o)
      (fun h a b ha hw hc => ⟨hw.2.2.wf ha.1, hwrite o h a b hw.2.1 ha.1 ha.2 hw.2.2 hc⟩)
      ⟨hs.wf, hJ⟩ hruns (hC ⟨o, h, s, s'⟩ List.mem_cons_self)
    refine ⟨hJ', fun e he a b hmem => ?_⟩
    rcases List.mem_cons.mp he with rfl | he
    · obtain ⟨⟨_, ha⟩, _, hb⟩ := hhist a b hmem
      exact ⟨ha, hb⟩
    · exact hlog e he a b hmem
  · intro log a b hI hw hC
    obtain ⟨hJ, hlog⟩ := hI hC
    exact ⟨hworld _ _ hJ hw, hlog⟩

/-- What every write keeps holds all along a run. -/
theorem Run.throughout (hrun : Run cfg Adm init log s) (hinit : Sound init) (h0 : J init)
    (hwrite : ∀ op h a b, Told Adm h → WF a → J a → DeskWrite cfg op h a b → J b)
    (hworld : ∀ a b, J a → World a b → J b) : Throughout J log s :=
  hrun.along (C := fun _ _ _ => True) hinit h0
    (fun op h a b ht hw ha hdw _ => hwrite op h a b ht hw ha hdw) hworld fun _ _ _ _ _ => trivial

/-- **Order along runs.** A relation that every store has to itself, that
every allowed write carries on and that the rest of the engine does not
touch relates every earlier store of a run to every later one. -/
theorem Run.ordered {T : Store → Store → Prop} {C : Op → Store → Store → Prop}
    (hrun : Run cfg Adm init log s) (hinit : Sound init) (h0 : J init)
    (hwrite : ∀ op h a b, Told Adm h → WF a → J a → DeskWrite cfg op h a b → J b)
    (hworld : ∀ a b, J a → World a b → J b) (hrefl : ∀ a, WF a → J a → T a a)
    (hstep : ∀ op h a b r, WF a → J a → DeskWrite cfg op h a b → C op a b → T r a → T r b)
    (hstepWorld : ∀ a b r, WF a → World a b → T r a → T r b)
    (hC : ∀ e ∈ log, ∀ a b, .wrote a b ∈ e.hist → C e.op a b) :
    (visited log).Pairwise fun later earlier => T earlier later := by
  refine (hrun.induct (I := fun log s => (Sound s ∧ J s) ∧
    ((∀ e ∈ log, ∀ a b, .wrote a b ∈ e.hist → C e.op a b) →
      (visited log).Pairwise (fun later earlier => T earlier later) ∧ ∀ r ∈ visited log, T r s))
    ⟨⟨hinit, h0⟩, fun _ => ⟨List.Pairwise.nil, fun r hr => by cases hr⟩⟩ ?_ ?_).2 hC |>.1
  · intro log s o r h s' hrun ⟨⟨hs, hJ⟩, hI⟩ hruns
    have hspec : Always Adm (fun h a b => (WF a ∧ J a) ∧ Told Adm h ∧ DeskWrite cfg o h a b)
        (fun _ _ s' => Sound s' ∧ J s') (o.prog cfg) [] s := Op.keeping hs hJ (hwrite o)
    refine ⟨hspec.runs hruns, fun hC => ?_⟩
    obtain ⟨hpair, hlast⟩ := hI fun e he => hC e (List.mem_cons_of_mem _ he)
    have hCo := hC ⟨o, h, s, s'⟩ List.mem_cons_self
    have hkeep : ∀ h a b, (WF a ∧ J a) → ((WF a ∧ J a) ∧ Told Adm h ∧ DeskWrite cfg o h a b) →
        WF b ∧ J b := fun h a b ha hw => ⟨hw.2.2.wf ha.1, hwrite o h a b hw.2.1 ha.1 ha.2 hw.2.2⟩
    obtain ⟨hnew, hnewLast, _⟩ := hspec.ordered (T := T) (C := C o) hkeep
      (fun a ha => hrefl a ha.1 ha.2)
      (fun h a b r ha hw hc hr => hstep o h a b r ha.1 ha.2 hw.2.2 hc hr) ⟨hs.wf, hJ⟩ hruns hCo
    -- what was so of the stores before stays so at each store of the operation
    have hold : ∀ r ∈ visited log, T r s' ∧ ∀ t ∈ states h, T r t := by
      intro r hr
      obtain ⟨⟨hend, _⟩, hhist⟩ := hspec.along (J := fun t => T r t ∧ (WF t ∧ J t)) (C := C o)
        (fun h a b ha hw hc => ⟨hstep o h a b r ha.2.1 ha.2.2 hw.2.2 hc ha.1, hkeep h a b ha.2 hw⟩)
        ⟨hlast r hr, hs.wf, hJ⟩ hruns hCo
      refine ⟨hend, fun t ht => ?_⟩
      obtain ⟨a, b, hmem, rfl | rfl⟩ := mem_states ht
      · exact (hhist _ b hmem).1.1
      · exact (hhist a _ hmem).2.1
    have hvis : visited (⟨o, h, s, s'⟩ :: log) = states h ++ visited log := rfl
    rw [hvis]
    refine ⟨List.pairwise_append.mpr ⟨hnew, hpair, fun t ht r hr => (hold r hr).2 t ht⟩, ?_⟩
    intro r hr
    rcases List.mem_append.mp hr with hr | hr
    · exact hnewLast r hr
    · exact (hold r hr).1
  · intro log a b ⟨⟨hs, hJ⟩, hI⟩ hw
    refine ⟨⟨hw.sound hs, hworld _ _ hJ hw⟩, fun hC => ?_⟩
    obtain ⟨hpair, hlast⟩ := hI hC
    exact ⟨hpair, fun r hr => hstepWorld a b r hs.wf hw (hlast r hr)⟩

/-- A statement is between two neighbours of the stores visited. -/
theorem visited_wrote {T : Store → Store → Prop} {e : Entry}
    (hall : (visited log).Pairwise fun later earlier => T earlier later) (he : e ∈ log)
    {a b : Store} (hmem : .wrote a b ∈ e.hist) : T a b := by
  obtain ⟨pre, post, hsplit⟩ := states_wrote hmem
  have hsub := hall.sublist (List.sublist_flatten_of_mem (List.mem_map.mpr ⟨e, he, rfl⟩))
  rw [hsplit] at hsub
  exact (List.pairwise_cons.mp (List.pairwise_append.mp hsub).2.1).1 a List.mem_cons_self

end

end TradeDesk.Desk
