import TradeDesk.Desk.Funded
import TradeDesk.Desk.Stops

/-!
# What a pass of the watch judges

`DeskWrite` lists the rows a pass may write. Here each of them comes with
what it was judged on: a fill with the quotes last read, the call its
proposal's chain of extensions is at and that call's invalidation in
effect (`Opening`); a sale with the quotes of the exit half and the rule
that fired (`Cause`); a request marked done with the book it was found
closed in (`WatchWrite`). And each look at an open position ends in one of
three ways (`Looked`): it had no fresh quotes, nothing was due, or it was
sold whole.

The entry and the exit half each make a step lemma over one turn of their
loop; `DeskWrite` and `Sound` come from the loop specifications, joined to
these by `Always.and`.
-/

namespace TradeDesk.Desk

open TradeDesk.Async

variable {cfg : Settings} {Adm : ∀ q, Answer q → Prop} {α : Type}
variable {h h' : History} {a s s' : Store} {p : Proposal} {ps : List Proposal} {now : Instant}
variable {window : Option MarketWindow} {rep : WatchReport} {x y : PaperPosition}
variable {xs : List PaperPosition} {quotes : Quotes}

@[simp] theorem lastQuotes_quotes (symbols : List String) (quotes : Quotes) :
    lastQuotes (.asked (.quotes symbols) (.ok quotes) :: h) = some quotes := rfl

@[simp] theorem lastQuotes_post (n : Notice) (b : Bool) :
    lastQuotes (.asked (.post n) b :: h) = lastQuotes h := rfl

/-! ## The rules of an exit -/

/-- The position's own rule fires at this last price of the underlying. -/
def LevelFires (cfg : Settings) (x : PaperPosition) (direction : Direction)
    (target inval last : ℚ) (today : Date) : Prop :=
  if x.instrument = .shares then last ≤ shareTrigger x.stopTrigger inval ∨ target ≤ last
  else through direction last inval = true ∨ reached direction last target = true ∨
    ∃ expiry dte, osiExpiry cfg x.symbol = .ok expiry ∧ cfg.rules.optionCloseAtDte = .ok dte ∧
      expiry - today ≤ dte

/-- **The exit rule names a reason exactly where the position's own rule
fires.** -/
theorem exitReason_iff {direction : Direction} {target inval : ℚ} {u t : Quote} {today : Date}
    {hit : Option (FillReason × ℚ)}
    (he : exitReason cfg x direction target inval u t today = .ok hit) :
    hit.isSome = true ↔ LevelFires cfg x direction target inval u.last today := by
  unfold exitReason at he
  unfold LevelFires
  by_cases hshares : x.instrument = .shares
  · rw [if_pos hshares] at he ⊢
    obtain ⟨limit, _, he⟩ := except_bind_ok he
    split at he
    next hstop =>
      cases he
      exact ⟨fun _ => .inl hstop, fun _ => rfl⟩
    next hstop =>
      split at he
      next htarget =>
        cases he
        exact ⟨fun _ => .inr htarget, fun _ => rfl⟩
      next htarget =>
        cases he
        exact ⟨fun hc => (by cases hc), fun hc => absurd hc (not_or.mpr ⟨hstop, htarget⟩)⟩
  · rw [if_neg hshares] at he ⊢
    split at he
    next hthrough =>
      cases he
      exact ⟨fun _ => .inl hthrough, fun _ => rfl⟩
    next hthrough =>
      split at he
      next hreached =>
        cases he
        exact ⟨fun _ => .inr (.inl hreached), fun _ => rfl⟩
      next hreached =>
        obtain ⟨expiry, hexpiry, he⟩ := except_bind_ok he
        obtain ⟨dte, hdte, he⟩ := except_bind_ok he
        split at he
        next hclose =>
          cases he
          exact ⟨fun _ => .inr (.inr ⟨expiry, dte, hexpiry, hdte, hclose⟩), fun _ => rfl⟩
        next hclose =>
          cases he
          refine ⟨fun hc => (by cases hc), ?_⟩
          rintro (hc | hc | ⟨expiry', dte', hexpiry', hdte', hc⟩)
          · exact absurd hc hthrough
          · exact absurd hc hreached
          · rw [hexpiry] at hexpiry'
            rw [hdte] at hdte'
            cases hexpiry'
            cases hdte'
            exact absurd hc hclose

/-- Why a position is sold at this price: its own rule, or where that is
silent a resolved call or a request. -/
inductive Cause (cfg : Settings) (now : Instant) (a : Store) (x : PaperPosition) (call : Call)
    (u t : Quote) : FillReason → ℚ → Prop
  | rule {reason : FillReason} {price : ℚ} :
      exitReason cfg x call.direction call.target (a.effective call) u t (cfg.et.date now) =
        .ok (some (reason, price)) → Cause cfg now a x call u t reason price
  | other {reason : FillReason} {price : ℚ} :
      exitReason cfg x call.direction call.target (a.effective call) u t (cfg.et.date now) =
        .ok none → reason = .callResolved ∨ reason = .pmExit → Cause cfg now a x call u t reason price

/-- Its current call is resolved, and the hour for it has come. -/
def ResolvedDue (cfg : Settings) (now : Instant) (s : Store) (x : PaperPosition) : Prop :=
  resolvedExitFrom ≤ cfg.et.time now ∧ (s.resolution? .call (s.currentCall x.callId)).isSome = true

/-- The PM has asked for its exit, and that is not done. -/
def Requested (s : Store) (x : PaperPosition) : Prop :=
  ∃ r ∈ s.exitRequests, r.doneAt = none ∧ r.proposalId = some x.proposalId

/-- The other reasons never raise, and name one of two. -/
theorem otherReason_eval {wanted : Bool} {bid : ℚ} (hwanted : wanted = true ↔ Requested s x) :
    ∃ other, (otherReason cfg now wanted (s.currentCall x.callId) bid).eval s = .ok other ∧
      (other.isSome = true ↔ ResolvedDue cfg now s x ∨ Requested s x) ∧
      ∀ reason price, other = some (reason, price) → reason = .callResolved ∨ reason = .pmExit := by
  have hasked : (if wanted then some (FillReason.pmExit, bid) else none).isSome = true ↔
      Requested s x := by
    rw [← hwanted]
    cases wanted <;> simp
  have hreason : ∀ reason price, (if wanted then some (FillReason.pmExit, bid) else none) =
      some (reason, price) → reason = .callResolved ∨ reason = .pmExit := by
    intro reason price he
    split at he
    · cases he
      exact .inr rfl
    · cases he
  unfold otherReason ResolvedDue
  dsimp only
  by_cases htime : cfg.et.time now < resolvedExitFrom
  · rw [if_pos htime]
    refine ⟨_, rfl, ?_, hreason⟩
    rw [hasked]
    exact ⟨.inr, fun hc => hc.resolve_left fun hr => absurd htime (not_lt.mpr hr.1)⟩
  · rw [if_neg htime]
    refine ⟨_, rfl, ?_, ?_⟩
    · by_cases hres : (s.resolution? .call (s.currentCall x.callId)).isSome = true
      · rw [if_pos hres]
        exact ⟨fun _ => .inl ⟨not_lt.mp htime, hres⟩, fun _ => rfl⟩
      · rw [if_neg hres, hasked]
        exact ⟨.inr, fun hc => hc.resolve_left fun hr => hres hr.2⟩
    · intro reason price he
      split at he
      · cases he
        exact .inl rfl
      · exact hreason reason price he

/-! ## What a pass writes -/

/-- What a purchase at this ask was let through on. -/
def Opening (cfg : Settings) (p : Proposal) (call : Call) (inval ask : ℚ) (u : Option Quote)
    (stop : Option (ℚ × ℚ)) : Prop :=
  if p.instrument = .shares then ∃ g, stop = some (g.trigger, g.limit) ∧
    shareStop cfg p ask inval = .ok g
  else stop = none ∧ ∀ v, u = some v → through call.direction v.last inval = false

/-- The row of a purchase. -/
def purchase (p : Proposal) (now : Instant) (ask : ℚ) (stop : Option (ℚ × ℚ)) : PaperFill :=
  ⟨p.id, now, .buy, p.quantity, ask, .entry, stop.map (·.1), stop.map (·.2)⟩

/-- The row of a sale. -/
def sale (x : PaperPosition) (now : Instant) (reason : FillReason) (price : ℚ) : PaperFill :=
  ⟨x.proposalId, now, .sell, x.quantity, price, reason, none, none⟩

inductive WatchWrite (cfg : Settings) (now : Instant) : History → Store → Store → Prop
  /-- A second outcome, which the table rejects. -/
  | rejected {h : History} {a : Store} : WatchWrite cfg now h a a
  | outcome {h : History} {a : Store} (o : ProposalOutcome) :
      WatchWrite cfg now h a (a.withOutcome o)
  | fill {h : History} {a : Store} (p : Proposal) (quotes : Quotes) (q : Quote) (call : Call)
      (stop : Option (ℚ × ℚ)) :
      p ∈ a.proposals → HasLife a p .pending → lastQuotes h = some quotes →
      quotes.get? p.symbol = some q → a.call? (a.currentCall p.callId) = some call →
      Opening cfg p call (a.effective call) q.ask (quotes.get? p.underlying) stop →
      WatchWrite cfg now h a (a.addFill (purchase p now q.ask stop))
  | mark {h : History} {a : Store} (symbol : String) (price : ℚ) :
      WatchWrite cfg now h a (a.upsertMark symbol price now)
  | sell {h : History} {a : Store} (x : PaperPosition) (quotes : Quotes) (u t : Quote)
      (call : Call) (reason : FillReason) (price : ℚ) :
      x ∈ a.openPositions → lastQuotes h = some quotes → quotes.get? x.underlying = some u →
      quotes.get? x.symbol = some t → a.call? (a.currentCall x.callId) = some call →
      Cause cfg now a x call u t reason price →
      WatchWrite cfg now h a (a.addFill (sale x now reason price))
  | done {h : History} {a : Store} (r : ExitRequest) :
      (∃ r₀ ∈ a.exitRequests, r₀.id = r.id ∧ r₀.proposalId = r.proposalId) →
      (∀ x ∈ a.openPositions, r.proposalId ≠ some x.proposalId) →
      WatchWrite cfg now h a (a.markExitDone r.id now)

/-! ## Entries -/

theorem recordOutcome_watch {o : Outcome} {vetoed approved : Bool} {pid : ℕ} :
    Always Adm (WatchWrite cfg now) (fun _ _ _ => True)
      (recordOutcome pid now o vetoed approved) h s := by
  cases hno : s.hasOutcome pid with
  | false => exact always_tryUpdate (Store.addOutcome_of hno) (.outcome _) trivial
  | true =>
    have hrej : s.addOutcome ⟨pid, now, o, vetoed, approved⟩ = .error .integrityError := by
      unfold Store.addOutcome
      rw [if_pos hno]
    unfold recordOutcome Prog.tryUpdate
    refine ⟨?_, ?_⟩
    · show WatchWrite cfg now h s ((s.addOutcome _).toOption.getD s)
      rw [hrej]
      exact .rejected
    · show Always _ _ _ (Prog.check ((s.addOutcome _).map fun _ => ())) _ _
      exact (always_check _).mpr trivial

theorem drop_watch {r : Reaction} {o : Outcome} :
    Always Adm (WatchWrite cfg now) (fun _ _ _ => True) (drop p r now o rep) h s := by
  unfold drop
  exact recordOutcome_watch.bind (fun _ _ _ _ => trivial) fun _ _ _ _ => trivial

theorem buy_watch {call call' : Call} {q : Quote} {stop : Option (ℚ × ℚ)} {r : Reaction}
    (hp : p ∈ s.proposals) (hl : HasLife s p .pending) (hquotes : lastQuotes h = some quotes)
    (hq : quotes.get? p.symbol = some q) (hcall : s.call? (s.currentCall p.callId) = some call)
    (hopen : Opening cfg p call (s.effective call) q.ask (quotes.get? p.underlying) stop) :
    Always Adm (WatchWrite cfg now) (fun _ _ _ => True)
      (buy cfg p call' q.ask stop r now rep) h s := by
  unfold buy
  refine always_scan_bind (fun checked _ => ?_) fun _ _ => trivial
  split
  · exact drop_watch
  · trivial
  · unfold recordFill
    refine always_update_bind (.fill p quotes q call stop hp hl hquotes hq hcall hopen) ?_
    refine recordOutcome_watch.bind (fun _ _ _ _ => ?_) fun _ _ _ _ => trivial
    exact always_askPost_bind fun _ => trivial

theorem fillEntry_watch {r : Reaction} (ht : Todo (p :: ps) s)
    (hquotes : lastQuotes h = some quotes) :
    Always Adm (WatchWrite cfg now) (fun _ _ _ => True)
      (fillEntry cfg p (quotes.get? p.symbol) (quotes.get? p.underlying) r now rep) h s := by
  obtain ⟨hp, hl⟩ := ht.head
  unfold fillEntry
  split
  · exact drop_watch
  next q hq =>
    have hq := (Option.filter_eq_some_iff.mp hq).1
    refine always_scan_bind (fun call? hcall => ?_) fun _ _ => trivial
    rw [Reads.eval_bind, ht.sound.wf.currentCallId_eval] at hcall
    have hcall : s.call? (s.currentCall p.callId) = call? := Except.ok.inj hcall
    cases call? with
    | none => trivial
    | some call =>
      refine always_scan_bind (fun inval hinval => ?_) fun _ _ => trivial
      obtain rfl : s.effective call = inval := Except.ok.inj hinval
      split
      next hshares =>
        split
        · exact drop_watch
        · trivial
        next g hg =>
          refine buy_watch hp hl hquotes hq hcall ?_
          unfold Opening
          rw [if_pos hshares]
          exact ⟨g, rfl, hg⟩
      next hshares =>
        split
        · exact drop_watch
        next hthrough =>
          refine buy_watch hp hl hquotes hq hcall ?_
          unfold Opening
          rw [if_neg hshares]
          refine ⟨rfl, ?_⟩
          intro v hv
          rw [hv] at hthrough
          simpa using hthrough

/-- One turn of the entry loop. -/
theorem entry_watch (ht : Todo (p :: ps) s) :
    Always Adm (WatchWrite cfg now) (fun _ _ _ => True) (entry cfg now rep p) h s := by
  unfold entry
  split
  · trivial
  · split
    · exact drop_watch
    · refine reactionOf_spec.bind ?_ fun _ _ _ _ => trivial
      rintro r h₁ s₁ ⟨rfl, _⟩
      split
      · trivial
      · refine always_askQuotes_bind fun answer _ => ?_
        split
        · exact drop_watch.bind (fun _ _ _ _ => trivial) fun _ _ _ _ => trivial
        · trivial
        · trivial
        next quotes _ =>
          split
          · trivial
          · exact fillEntry_watch ht rfl

/-- The entry half. -/
theorem entries_watch (hrth : phaseFor now (sessionWindow cfg now window) = .rth) (hs : Sound s) :
    Always Adm (WatchWrite cfg now) (fun _ _ s' => Sound s') (entries cfg now rep) h s := by
  unfold entries
  refine always_scan_bind (fun ps hps => ?_) fun _ _ => hs
  obtain rfl : s.pending = ps := Except.ok.inj hps
  refine always_foldlM (fun rest _ s => Todo rest s) ?_ (fun _ _ _ ht => ht.sound) _ _ _ _
    (Todo.ofFilter hs fun p hp => by simpa using hp)
  intro p ps rep h s ht
  exact ((entry_spec hrth ht).and (entry_watch ht)).mono (fun _ _ _ hg => hg.2) fun _ _ _ hr => hr.1

/-! ## Exits -/

/-- The position has a fresh quote, and so has its underlying. -/
structure FreshPair (quotes : Quotes) (now : Instant) (x : PaperPosition) (u t : Quote) : Prop where
  underlying : quotes.get? x.underlying = some u
  own : quotes.get? x.symbol = some t
  underlyingFresh : Fresh? now u
  ownFresh : Fresh? now t

/-- The position is to be sold: its own rule fires, its call is resolved, or
its exit was asked for. -/
def Due (cfg : Settings) (now : Instant) (s : Store) (x : PaperPosition) (u : Quote) : Prop :=
  (∃ call, s.call? (s.currentCall x.callId) = some call ∧
    LevelFires cfg x call.direction call.target (s.effective call) u.last (cfg.et.date now)) ∨
  ResolvedDue cfg now s x ∨ Requested s x

/-- How a look at a position ends. -/
inductive Looked (cfg : Settings) (now : Instant) (quotes : Quotes) (s : Store)
    (x : PaperPosition) : Store → Prop
  | unquoted : (∀ u t, ¬ FreshPair quotes now x u t) → Looked cfg now quotes s x s
  | kept (u t : Quote) : FreshPair quotes now x u t → ¬ Due cfg now s x u →
      Looked cfg now quotes s x (s.upsertMark x.symbol (markPrice x u t) now)
  | sold (u t : Quote) (reason : FillReason) (price : ℚ) : FreshPair quotes now x u t →
      Due cfg now s x u →
      Looked cfg now quotes s x
        ((s.upsertMark x.symbol (markPrice x u t) now).addFill (sale x now reason price))

/-- The exit rule has an answer for the position at any prices. -/
def Judged (cfg : Settings) (now : Instant) (x : PaperPosition) : Prop :=
  ∀ direction target inval u t, ∃ hit,
    exitReason cfg x direction target inval u t (cfg.et.date now) = .ok hit

/-- The end of a look: only the exit rule can raise. -/
def LookEnd (cfg : Settings) (now : Instant) (quotes : Quotes) (s : Store) (x : PaperPosition) :
    Except Exc α → History → Store → Prop
  | .ok _, h', s' => Looked cfg now quotes s x s' ∧ lastQuotes h' = some quotes
  | .error _, _, _ => ¬ Judged cfg now x

theorem not_stale {q : Quote} (hq : Fresh? now q) : stale (some q) now = false := by
  unfold Fresh? at hq
  simpa [stale] using hq

/-- **A look at an open position** sells it exactly if that is due. -/
theorem exitPosition_watch {wanted : List ℕ} (ho : StillOpen quotes (x :: xs) h s)
    (hquotes : lastQuotes h = some quotes)
    (hwanted : wanted.contains x.proposalId = true ↔ Requested s x) :
    Always Adm (WatchWrite cfg now) (LookEnd cfg now quotes s x)
      (exitPosition cfg now quotes wanted rep x) h s := by
  have hopen := ho.isOpen x List.mem_cons_self
  obtain ⟨call, hcall, hid, _⟩ := ho.sound.wf.currentCall_of_open hopen
  have hfound : s.call? (s.currentCall x.callId) = some call :=
    hid ▸ ho.sound.wf.call?_mem hcall
  unfold exitPosition
  split
  next u t hu ht =>
    split
    next hstale =>
      refine ⟨.unquoted fun u' t' hf => ?_, hquotes⟩
      have hu' := hu.symm.trans hf.underlying
      have ht' := ht.symm.trans hf.own
      cases hu'
      cases ht'
      rw [not_stale hf.underlyingFresh, not_stale hf.ownFresh] at hstale
      cases hstale
    next hstale =>
      obtain ⟨hsu, hst⟩ := Bool.or_eq_false_iff.mp (Bool.eq_false_iff.mpr hstale)
      have hf : FreshPair quotes now x u t :=
        ⟨hu, ht, stale_false hsu u rfl, stale_false hst t rfl⟩
      unfold upsertMark
      refine always_update_bind (.mark x.symbol (markPrice x u t)) ?_
      -- the mark touches nothing the rest of the look reads
      have hwf := (ho.upsertMark x.symbol (markPrice x u t) now).sound.wf
      refine always_scan_bind (fun cid hcid => ?_) fun e he => ?_
      swap
      · rw [hwf.currentCallId_eval] at he
        cases he
      rw [hwf.currentCallId_eval] at hcid
      obtain rfl : s.currentCall x.callId = cid := Except.ok.inj hcid
      refine always_scan_bind (fun call? hcall? => ?_) fun e he => ?_
      swap
      · cases he
      obtain rfl : call? = some call := (Except.ok.inj hcall?).symm.trans hfound
      refine always_scan_bind (fun inval hinval => ?_) fun e he => ?_
      swap
      · cases he
      obtain rfl : s.effective call = inval := Except.ok.inj hinval
      refine always_check_bind (fun hit hhit => ?_) fun e he => ?_
      swap
      · intro hj
        obtain ⟨hit, hhit⟩ := hj call.direction call.target (s.effective call) u t
        rw [he] at hhit
        cases hhit
      have hrule := exitReason_iff hhit
      have hsell : ∀ reason price, Cause cfg now s x call u t reason price → Due cfg now s x u →
          Always Adm (WatchWrite cfg now) (LookEnd cfg now quotes s x)
            (sell x reason price now rep) (.wrote s (s.upsertMark x.symbol (markPrice x u t) now) :: h)
            (s.upsertMark x.symbol (markPrice x u t) now) := by
        intro reason price hcause hdue
        unfold sell recordFill
        refine always_update_bind (.sell x quotes u t call reason price hopen hquotes hu ht hfound
          ?_) ?_
        · cases hcause with
          | rule he => exact .rule he
          | other he hr => exact .other he hr
        · exact always_askPost_bind fun _ => ⟨.sold u t reason price hf hdue, hquotes⟩
      cases hit with
      | some hit =>
        obtain ⟨reason, price⟩ := hit
        exact hsell reason price (.rule hhit) (.inl ⟨call, hfound, hrule.mp rfl⟩)
      | none =>
        have hsilent : ¬ LevelFires cfg x call.direction call.target (s.effective call) u.last
            (cfg.et.date now) := fun hc => by cases hrule.mpr hc
        obtain ⟨other, heval, hother, hreasons⟩ : ∃ other,
            (otherReason cfg now (wanted.contains x.proposalId) (s.currentCall x.callId) t.bid).eval
              (s.upsertMark x.symbol (markPrice x u t) now) = .ok other ∧ _ :=
          otherReason_eval (s := s.upsertMark x.symbol (markPrice x u t) now) hwanted
        refine always_scan_bind (fun other' hother' => ?_) fun e he => ?_
        swap
        · cases he.symm.trans heval
        obtain rfl : other = other' := Except.ok.inj (heval.symm.trans hother')
        cases other with
        | some hit =>
          obtain ⟨reason, price⟩ := hit
          exact hsell reason price (.other hhit (hreasons reason price rfl))
            (.inr (hother.mp rfl))
        | none =>
          refine ⟨.kept u t hf ?_, hquotes⟩
          rintro (⟨call', hcall', hfires⟩ | hrest)
          · cases hfound.symm.trans hcall'
            exact hsilent hfires
          · cases hother.mpr hrest
  next hnone =>
    exact ⟨.unquoted fun u t hf => hnone u t hf.underlying hf.own, hquotes⟩

/-- The requests still to finish are in the table, and the book has not
moved since it was read. -/
structure ToFinish (stillOpen : List ℕ) (rs : List ExitRequest) (s : Store) : Prop where
  book : s.openPositions.map (·.proposalId) = stillOpen
  rows : ∀ r ∈ rs, ∃ r₀ ∈ s.exitRequests, r₀.id = r.id ∧ r₀.proposalId = r.proposalId

theorem ToFinish.tail {stillOpen : List ℕ} {r : ExitRequest} {rs : List ExitRequest}
    (hf : ToFinish stillOpen (r :: rs) s) : ToFinish stillOpen rs s :=
  ⟨hf.book, fun r' hr' => hf.rows r' (List.mem_cons_of_mem r hr')⟩

theorem ToFinish.done {stillOpen : List ℕ} {rs : List ExitRequest} {rid : ℕ}
    (hf : ToFinish stillOpen rs s) : ToFinish stillOpen rs (s.markExitDone rid now) := by
  refine ⟨hf.book, fun r hr => ?_⟩
  obtain ⟨r₀, hr₀, hid, hpid⟩ := hf.rows r hr
  refine ⟨_, List.mem_map.mpr ⟨r₀, hr₀, rfl⟩, ?_⟩
  split
  · exact ⟨hid, hpid⟩
  · exact ⟨hid, hpid⟩

/-- The book does not change while requests are finished. -/
theorem finishRequests_watch {rs : List ExitRequest}
    (hrows : ∀ r ∈ rs, ∃ r₀ ∈ s.exitRequests, r₀.id = r.id ∧ r₀.proposalId = r.proposalId) :
    Always Adm (WatchWrite cfg now)
      (fun r _ s' => (∃ rep', r = .ok rep') ∧ s' = { s with exitRequests := s'.exitRequests })
      (finishRequests now rs rep) h s := by
  unfold finishRequests
  refine always_scan_bind (fun xs hxs => ?_) fun e he => (by cases he)
  obtain rfl : s.openPositions = xs := Except.ok.inj hxs
  refine always_foldlM
    (fun rest _ t => ToFinish (s.openPositions.map (·.proposalId)) rest t ∧
      t = { s with exitRequests := t.exitRequests })
    (fun r rs rep h t ht => ?_) (fun _ _ _ ht => ⟨⟨_, rfl⟩, ht.2⟩) _ _ _ _ ⟨⟨rfl, hrows⟩, rfl⟩
  obtain ⟨ht, hsame⟩ := ht
  have hnext : ToFinish (s.openPositions.map (·.proposalId)) rs (t.markExitDone r.id now) ∧
      t.markExitDone r.id now =
        { s with exitRequests := (t.markExitDone r.id now).exitRequests } := by
    refine ⟨ht.tail.done, ?_⟩
    rw [hsame]
    rfl
  unfold finishRequest
  split
  next hnone =>
    refine always_askPost_bind fun _ => ?_
    unfold markExitDone
    refine always_update_bind (.done r (ht.rows r List.mem_cons_self) ?_) hnext
    intro x _
    rw [hnone]
    exact fun hc => by cases hc
  next pid hpid =>
    split
    · exact ⟨ht.tail, hsame⟩
    next hclosed =>
      unfold markExitDone
      refine always_update_bind (.done r (ht.rows r List.mem_cons_self) ?_) hnext
      intro x hx he
      rw [hpid] at he
      rw [← ht.book] at hclosed
      exact hclosed (List.mem_map.mpr ⟨x, hx, (Option.some.inj he).symm⟩)

/-- The position was sold whole at that time. -/
def SoldWhole (now : Instant) (s : Store) (x : PaperPosition) : Prop :=
  ∃ f, s.sells x.proposalId = [f] ∧ f.quantity = x.quantity ∧ f.at_ = now

/-- What the exit half owed a position of the book it found. -/
structure Seen (cfg : Settings) (now : Instant) (quotes : Quotes) (s₀ s : Store)
    (x : PaperPosition) : Prop where
  sold : ∀ u t, FreshPair quotes now x u t → Due cfg now s₀ x u → SoldWhole now s x
  kept : (∀ u t, FreshPair quotes now x u t → ¬ Due cfg now s₀ x u) → x ∈ s.openPositions

/-- The exit half on its way through the book it found. -/
structure Looking (cfg : Settings) (now : Instant) (quotes : Quotes) (s₀ : Store)
    (rest : List PaperPosition) (h : History) (s : Store) : Prop where
  still : StillOpen quotes rest h s
  last : lastQuotes h = some quotes
  same : s = { s₀ with paperFills := s.paperFills, paperMarks := s.paperMarks }
  sub : ∀ x ∈ rest, x ∈ s₀.openPositions
  seen : ∀ x ∈ s₀.openPositions, x ∈ rest ∨ Seen cfg now quotes s₀ s x

/-- A look at another position changes nothing for this one. -/
theorem Seen.carry {s₀ t : Store} (hs : Seen cfg now quotes s₀ s x)
    (hsells : t.sells x.proposalId = s.sells x.proposalId)
    (hopen : x ∈ s.openPositions → x ∈ t.openPositions) : Seen cfg now quotes s₀ t x := by
  refine ⟨fun u t hf hd => ?_, fun hno => hopen (hs.kept hno)⟩
  obtain ⟨f, hsold, hrest⟩ := hs.sold u t hf hd
  exact ⟨f, hsells.trans hsold, hrest⟩

/-- What is due is read off tables the exit half does not write. -/
theorem Due.of_same {s₀ : Store} {u : Quote}
    (hsame : s = { s₀ with paperFills := s.paperFills, paperMarks := s.paperMarks }) :
    Due cfg now s x u ↔ Due cfg now s₀ x u := by
  rw [hsame]
  rfl

/-- An open position has no sale. -/
theorem Sound.sells_of_open (hs : Sound s) (hx : x ∈ s.openPositions) :
    s.sells x.proposalId = [] := by
  obtain ⟨p, _, b, hl, rfl⟩ := hs.mem_openPositions.mp hx
  exact hl.sells

theorem sells_sale {reason : FillReason} {price : ℚ} (i : ℕ) :
    (s.addFill (sale x now reason price)).sells i =
      s.sells i ++ if x.proposalId = i then [sale x now reason price] else [] := by
  rw [Store.sells_addFill]
  simp [sale]

/-- One turn of the exit loop, seen from the whole book. -/
theorem Looking.turn {s₀ : Store} (hl : Looking cfg now quotes s₀ (y :: xs) h s)
    (hnodup : (s₀.openPositions.map (·.proposalId)).Nodup)
    (hlook : Looked cfg now quotes s y s') (hlast : lastQuotes h' = some quotes)
    (hstill : StillOpen quotes xs h' s') : Looking cfg now quotes s₀ xs h' s' := by
  have hyopen := hl.still.isOpen y List.mem_cons_self
  have hy₀ := hl.sub y List.mem_cons_self
  have hdue : ∀ u, Due cfg now s y u ↔ Due cfg now s₀ y u := fun u => Due.of_same hl.same
  have hother : ∀ x ∈ s₀.openPositions, x ≠ y → y.proposalId ≠ x.proposalId := fun x hx hne he =>
    hne (List.inj_on_of_nodup_map hnodup hx hy₀ he.symm)
  -- the position looked at, and then the others
  have hseen : Seen cfg now quotes s₀ s' y ∧ ∀ x ∈ s₀.openPositions, x ≠ y →
      s'.sells x.proposalId = s.sells x.proposalId ∧
        (x ∈ s.openPositions → x ∈ s'.openPositions) := by
    cases hlook with
    | unquoted hno =>
      exact ⟨⟨fun u t hf => absurd hf (hno u t), fun _ => hyopen⟩, fun _ _ _ => ⟨rfl, fun hx => hx⟩⟩
    | kept u t hf hnot =>
      refine ⟨⟨fun u' t' hf' hd => ?_, fun _ => hyopen⟩, fun _ _ _ => ⟨rfl, fun hx => hx⟩⟩
      cases hf.underlying.symm.trans hf'.underlying
      exact absurd ((hdue u).mpr hd) hnot
    | sold u t reason price hf hd =>
      refine ⟨⟨fun _ _ _ _ => ⟨sale y now reason price, ?_, rfl, rfl⟩, fun hno => ?_⟩, ?_⟩
      · rw [sells_sale, if_pos rfl]
        exact congrArg (· ++ _) (hl.still.sound.sells_of_open hyopen)
      · exact absurd ((hdue u).mp hd) (hno u t hf)
      · intro x hx hne
        have hne := hother x hx hne
        refine ⟨?_, fun hxopen => ?_⟩
        · rw [sells_sale, if_neg hne, List.append_nil]
          rfl
        · exact (hl.still.upsertMark y.symbol (markPrice y u t) now).sound.open_addFill hstill.sound
            hxopen hne
  have hsame : s' = { s₀ with paperFills := s'.paperFills, paperMarks := s'.paperMarks } := by
    cases hlook with
    | unquoted => exact hl.same
    | kept u t | sold u t =>
      rw [hl.same]
      rfl
  refine ⟨hstill, hlast, hsame, fun x hx => hl.sub x (List.mem_cons_of_mem y hx), fun x hx => ?_⟩
  by_cases hxy : x = y
  · exact .inr (hxy ▸ hseen.1)
  · obtain ⟨hsells, hopen⟩ := hseen.2 x hx hxy
    rcases hl.seen x hx with hmem | hs
    · exact .inl ((List.mem_cons.mp hmem).resolve_left hxy)
    · exact .inr (hs.carry hsells hopen)

/-- The read of the exit half: the first thing asked in it, and answered. -/
def ExitRead (h h' : History) (quotes : Quotes) : Prop :=
  ∃ post symbols, h' = post ++ .asked (.quotes symbols) (.ok quotes) :: h

/-- What the exit half leaves, from a book on which the exit rule does not
raise. -/
def ExitsEnd (cfg : Settings) (now : Instant) (h : History) (s : Store) :
    Except Exc α → History → Store → Prop :=
  fun r h' s' => ∀ quotes, ExitRead h h' quotes → (∀ x ∈ s.openPositions, Judged cfg now x) →
    (∃ rep', r = .ok rep') ∧ ∀ x ∈ s.openPositions, Seen cfg now quotes s s' x

/-- Two histories that grew from one by the same event grew by it once. -/
theorem event_unique {e e' : Event Store Query Answer} {new new' : History}
    (he : new ++ e :: h = new' ++ e' :: h) : e = e' := by
  have hlen : new.length = new'.length := by
    have := congrArg List.length he
    simp only [List.length_append, List.length_cons] at this
    omega
  exact (List.cons.inj (List.append_inj he hlen).2).1

theorem wanted_iff {requests : List ExitRequest} (hread : s.pendingExitRequests = requests) :
    (requests.filterMap (·.proposalId)).contains x.proposalId = true ↔ Requested s x := by
  rw [← hread, List.contains_iff_mem, List.mem_filterMap]
  unfold Store.pendingExitRequests Requested
  constructor
  · rintro ⟨r, hr, hpid⟩
    obtain ⟨hr, hdone⟩ := List.mem_filter.mp hr
    exact ⟨r, hr, by simpa using hdone, hpid⟩
  · rintro ⟨r, hr, hdone, hpid⟩
    exact ⟨r, List.mem_filter.mpr ⟨hr, by simpa using hdone⟩, hpid⟩

/-- **The exit half** looks at every position of the book once, on one read
of its quotes. -/
theorem exits_watch (hs : Sound s) :
    Always Adm (WatchWrite cfg now) (ExitsEnd cfg now h s) (exits cfg now rep) h s := by
  unfold exits
  refine always_scan_bind (fun xs hxs => ?_) fun e he => (by cases he)
  obtain rfl : s.openPositions = xs := Except.ok.inj hxs
  refine always_scan_bind (fun requests hrequests => ?_) fun e he => (by cases he)
  have hread : s.pendingExitRequests = requests := Except.ok.inj hrequests
  have hrows : ∀ t : Store, t.exitRequests = s.exitRequests → ∀ r ∈ requests,
      ∃ r₀ ∈ t.exitRequests, r₀.id = r.id ∧ r₀.proposalId = r.proposalId := by
    intro t ht r hr
    rw [← hread] at hr
    exact ⟨r, ht ▸ (List.mem_filter.mp hr).1, rfl, rfl⟩
  split
  next hempty =>
    refine (finishRequests_watch (hrows s rfl)).mono (fun _ _ _ hg => hg) ?_
    rintro r h' s' ⟨hok, _⟩ quotes _ _
    refine ⟨hok, fun x hx => ?_⟩
    rw [hempty] at hx
    cases hx
  · refine always_askQuotes_bind fun answer _ => ?_
    have hfailed : ∀ (e : BrokerFault) (symbols : List String) (r : Except Exc WatchReport),
        ExitsEnd cfg now h s r (.asked (.quotes symbols) (.error e) :: h) s := by
      rintro e symbols r quotes ⟨post, symbols', he⟩
      have he : [] ++ _ :: h = post ++ _ :: h := he
      cases event_unique he
    split
    · exact hfailed _ _ _
    · exact hfailed _ _ _
    · exact hfailed _ _ _
    next quotes _ =>
      have hloop : Always Adm (WatchWrite cfg now) (fun r h' s' => match r with
          | .ok _ => Looking cfg now quotes s [] h' s'
          | .error _ => ¬ ∀ x ∈ s.openPositions, Judged cfg now x)
          (s.openPositions.foldlM
            (exitPosition cfg now quotes (requests.filterMap (·.proposalId))) rep)
          (.asked (.quotes (sortedSymbols (s.openPositions.map (·.underlying) ++
            s.openPositions.map (·.symbol)))) (.ok quotes) :: h) s := by
        refine always_foldlM (fun rest h' s' => Looking cfg now quotes s rest h' s') ?_
          (fun _ _ _ hl => hl) _ _ _ _ ⟨⟨hs, ⟨_, List.mem_cons_self⟩, hs.wf.openPositions_nodup,
            fun x hx => hx⟩, rfl, rfl, fun x hx => hx, fun x hx => .inl hx⟩
        intro y ys rep' h₁ s₁ hl
        have hwanted : (requests.filterMap (·.proposalId)).contains y.proposalId = true ↔
            Requested s₁ y := by
          rw [wanted_iff hread, hl.same]
          rfl
        have hspec : Always Adm (DeskWrite cfg (.deskWatch now none)) (ExitEnd quotes ys)
            (exitPosition cfg now quotes (requests.filterMap (·.proposalId)) rep' y) h₁ s₁ :=
          exitPosition_spec hl.still
        refine (hspec.and (exitPosition_watch hl.still hl.last hwanted)).mono
          (fun _ _ _ hg => hg.2) ?_
        rintro r h₂ s₂ ⟨hstill, hend⟩
        cases r with
        | ok rep'' => exact hl.turn hs.wf.openPositions_nodup hend.1 hend.2 hstill
        | error e => exact fun hall => hend (hall y (hl.sub y List.mem_cons_self))
      refine (Always.bind (S := fun r _ s' => (∀ x ∈ s.openPositions, Judged cfg now x) →
        (∃ rep', r = .ok rep') ∧ ∀ x ∈ s.openPositions, Seen cfg now quotes s s' x) hloop ?_
          fun e _ _ hno hall => absurd hall hno).appends.mono (fun _ _ _ hg => hg) ?_
      · intro rep' h₁ s₁ hl
        refine (finishRequests_watch (hrows s₁ (by rw [hl.same]))).mono (fun _ _ _ hg => hg) ?_
        rintro r h₂ s₂ ⟨hok, hsame⟩ _
        refine ⟨hok, fun x hx => ?_⟩
        rcases hl.seen x hx with hmem | hseen
        · cases hmem
        · refine hseen.carry ?_ fun hopen => ?_
          · rw [hsame]
            rfl
          · rw [hsame]
            exact hopen
      · rintro r h₂ s₂ ⟨⟨new, rfl⟩, hend⟩ quotes' ⟨post, symbols, he⟩ hall
        cases event_unique he
        exact hend hall

/-- **A pass writes nothing but what its halves judged.** -/
theorem runDeskWatch_watch (hs : Sound s) :
    Always Adm (WatchWrite cfg now) (fun _ _ _ => True) (runDeskWatch cfg now window) h s := by
  unfold runDeskWatch
  split
  · trivial
  next hphase =>
    refine (entries_watch (not_not.mp hphase) hs).bind (fun rep h s hs => ?_) fun _ _ _ _ => trivial
    exact (exits_watch hs).mono (fun _ _ _ hg => hg) fun _ _ _ _ => trivial

end TradeDesk.Desk
