import TradeDesk.Desk.Pass

/-!
# A fill that is already an exit

An entry is let through on the ask, the limit, the invalidation and the
book; the exit rule looks at the underlying's last price, the target, the
stop and the days to expiry. A fill on the quotes of one pass is out of the
exit rule's reach on those quotes exactly if four things hold that no gate
of the entry asks for (`Clear`): the underlying was quoted, its last price
is short of the target, above the stop these shares get at this ask, and
the contract has more days left than it is closed at (`fills_stay_iff`).

A pass is followed through its history: `booked` lists its fills, each with
what the pass had done before it and the store it was made in.
-/

namespace TradeDesk.Desk

open TradeDesk.Async

variable {cfg : Settings} {Adm : ∀ q, Answer q → Prop} {h h' : History} {a b s s' : Store}
variable {init : Store} {log : List Entry} {now : Instant} {window : Option MarketWindow}
variable {p : Proposal} {x : PaperPosition} {r : Except Exc WatchReport}

/-! ## The fills of a history -/

/-- A fill of a pass: what the pass had done, the store then, and the row. -/
structure Booked where
  before : History
  store : Store
  fill : PaperFill

/-- The store right after it. -/
def Booked.after (e : Booked) : Store := e.store.addFill e.fill

/-- The fills of a history, most recent first. -/
def booked : History → List Booked
  | [] => []
  | .asked _ _ :: h => booked h
  | .wrote a b :: h => (b.paperFills.drop a.paperFills.length).map (⟨h, a, ·⟩) ++ booked h

/-- The rows a statement of a pass adds are one fill, or none. -/
theorem WatchWrite.added (hw : WatchWrite cfg now h a b) {f : PaperFill}
    (hf : f ∈ b.paperFills.drop a.paperFills.length) : b = a.addFill f := by
  have hone : ∀ g, f ∈ (a.addFill g).paperFills.drop a.paperFills.length →
      a.addFill g = a.addFill f := by
    intro g hg
    unfold Store.addFill at hg
    dsimp only at hg
    rw [List.drop_left] at hg
    rw [List.mem_singleton.mp hg]
  cases hw with
  | rejected | outcome | mark | done =>
    have hnone : f ∈ a.paperFills.drop a.paperFills.length := hf
    rw [List.drop_length] at hnone
    cases hnone
  | fill | sell => exact hone _ hf

/-- A fill of the history is a statement of it. -/
theorem mem_booked {e : Booked} : ∀ {h : History}, e ∈ booked h → ∃ post b,
    h = post ++ .wrote e.store b :: e.before ∧ e.fill ∈ b.paperFills.drop e.store.paperFills.length
  | .asked q x :: h, hmem => by
    obtain ⟨post, b, hsplit, hf⟩ := mem_booked (h := h) hmem
    exact ⟨.asked q x :: post, b, by rw [hsplit]; rfl, hf⟩
  | .wrote a b :: h, hmem => by
    rcases List.mem_append.mp hmem with hmem | hmem
    · obtain ⟨f, hf, rfl⟩ := List.mem_map.mp hmem
      exact ⟨[], b, rfl, hf⟩
    · obtain ⟨post, b', hsplit, hf⟩ := mem_booked (h := h) hmem
      exact ⟨.wrote a b :: post, b', by rw [hsplit]; rfl, hf⟩

/-! ## The two predicates -/

/-- The quotes the fill was made on have the position's own and its
underlying's, and on them the exit rule has nothing against the position
the fill opens. -/
def Stays (cfg : Settings) (now : Instant) (e : Booked) : Prop :=
  ∃ x ∈ e.after.openPositions, x.proposalId = e.fill.proposalId ∧
    ∃ quotes u t call, lastQuotes e.before = some quotes ∧
      quotes.get? x.underlying = some u ∧ quotes.get? x.symbol = some t ∧
      e.store.call? (e.store.currentCall x.callId) = some call ∧
      exitReason cfg x call.direction call.target (e.store.effective call) u t
        (cfg.et.date now) = .ok none

/-- Of a proposal to be filled at this ask: the underlying's last price is
short of the target, and above the stop of these shares; an option has more
days left than it is closed at. -/
def ClearAt (cfg : Settings) (now : Instant) (p : Proposal) (call : Call) (inval last ask : ℚ) :
    Prop :=
  if p.instrument = .shares then
    last < call.target ∧ ∃ g, shareStop cfg p ask inval = .ok g ∧ g.trigger < last
  else reached call.direction last call.target = false ∧
    ∃ expiry dte, osiExpiry cfg p.symbol = .ok expiry ∧ cfg.rules.optionCloseAtDte = .ok dte ∧
      dte < expiry - cfg.et.date now

/-- The underlying was quoted, and all is clear at its last price. -/
def Clear (cfg : Settings) (now : Instant) (e : Booked) : Prop :=
  ∃ p ∈ e.store.proposals, p.id = e.fill.proposalId ∧
    ∃ quotes u q call, lastQuotes e.before = some quotes ∧
      quotes.get? p.underlying = some u ∧ quotes.get? p.symbol = some q ∧
      e.store.call? (e.store.currentCall p.callId) = some call ∧
      ClearAt cfg now p call (e.store.effective call) u.last q.ask

/-! ## They agree on what an entry lets through -/

/-- The stop of a share entry is the trigger the exits will use. -/
theorem shareStop_trigger {ask inval : ℚ} {g : StopGeometry}
    (hg : shareStop cfg p ask inval = .ok g) : shareTrigger (some g.trigger) inval = g.trigger := by
  obtain ⟨_, _, hg⟩ := except_bind_ok hg
  exact max_eq_left (entryStop_ok hg).1

/-- The exit rule on shares that have just got their stop. -/
theorem exitReason_shares {direction : Direction} {target inval : ℚ} {u t : Quote} {today : Date}
    {g : StopGeometry} (hshares : x.instrument = .shares) (hstop : x.stopTrigger = some g.trigger)
    (htrigger : shareTrigger (some g.trigger) inval = g.trigger) :
    exitReason cfg x direction target inval u t today = .ok none ↔
      u.last < target ∧ g.trigger < u.last := by
  have hlimit : exitLimit cfg x (shareTrigger x.stopTrigger inval) = .ok x.stopLimit := by
    unfold exitLimit
    rw [hstop, htrigger]
    exact if_neg (lt_irrefl _)
  unfold exitReason
  rw [if_pos hshares]
  dsimp only
  rw [hlimit, hstop, htrigger]
  show (if u.last ≤ g.trigger then _ else _ : Except Exc (Option (FillReason × ℚ))) = _ ↔ _
  by_cases hunder : u.last ≤ g.trigger
  · rw [if_pos hunder]
    exact ⟨fun hc => (by cases hc), fun hc => absurd hc.2 (not_lt.mpr hunder)⟩
  · rw [if_neg hunder]
    by_cases hover : target ≤ u.last
    · rw [if_pos hover]
      exact ⟨fun hc => (by cases hc), fun hc => absurd hc.1 (not_lt.mpr hover)⟩
    · rw [if_neg hover]
      exact ⟨fun _ => ⟨not_le.mp hover, not_le.mp hunder⟩, fun _ => rfl⟩

/-- The exit rule on an option whose underlying is not through the
invalidation. -/
theorem exitReason_option {direction : Direction} {target inval : ℚ} {u t : Quote} {today : Date}
    (hoption : x.instrument ≠ .shares) (hthrough : through direction u.last inval = false) :
    exitReason cfg x direction target inval u t today = .ok none ↔
      reached direction u.last target = false ∧
        ∃ expiry dte, osiExpiry cfg x.symbol = .ok expiry ∧ cfg.rules.optionCloseAtDte = .ok dte ∧
          dte < expiry - today := by
  unfold exitReason
  rw [if_neg hoption, hthrough, if_neg Bool.false_ne_true]
  by_cases hreached : reached direction u.last target = true
  · rw [if_pos hreached, hreached]
    exact ⟨fun hc => (by cases hc), fun hc => (by cases hc.1)⟩
  · rw [if_neg hreached]
    have hshort : reached direction u.last target = false := by simpa using hreached
    constructor
    · intro he
      obtain ⟨expiry, hexpiry, he⟩ := except_bind_ok he
      obtain ⟨dte, hdte, he⟩ := except_bind_ok he
      split at he
      · cases he
      next hopen => exact ⟨hshort, expiry, dte, hexpiry, hdte, not_le.mp hopen⟩
    · rintro ⟨_, expiry, dte, hexpiry, hdte, hopen⟩
      rw [hexpiry, hdte]
      show (if expiry - today ≤ dte then _ else _ : Except Exc (Option (FillReason × ℚ))) = _
      rw [if_neg (not_le.mpr hopen)]
      rfl

/-- **What a fill leaves to chance.** The position it opens is no exit on
its own quotes exactly if the fill was clear. -/
theorem stays_iff {e : Booked} (hwf : WF e.after)
    (hw : WatchWrite cfg now e.before e.store e.after) (hside : e.fill.side = .buy) :
    Stays cfg now e ↔ Clear cfg now e := by
  obtain ⟨before, a, f⟩ := e
  have hfill : ∃ p quotes q call stop, p ∈ a.proposals ∧ HasLife a p .pending ∧
      lastQuotes before = some quotes ∧ quotes.get? p.symbol = some q ∧
      a.call? (a.currentCall p.callId) = some call ∧
      Opening cfg p call (a.effective call) q.ask (quotes.get? p.underlying) stop ∧
      f = purchase p now q.ask stop := by
    generalize hb : Booked.after ⟨before, a, f⟩ = b at hw
    have hfills : b.paperFills = a.paperFills ++ [f] := hb ▸ rfl
    cases hw with
    | rejected | outcome | mark | done =>
      have hself : a.paperFills = a.paperFills ++ [f] := hfills
      have := congrArg List.length hself
      rw [List.length_append, List.length_singleton] at this
      omega
    | fill p quotes q call stop hp hl hquotes hq hcall hopen =>
      exact ⟨p, quotes, q, call, stop, hp, hl, hquotes, hq, hcall, hopen,
        (List.singleton_inj.mp (List.append_cancel_left hfills)).symm⟩
    | sell x =>
      rw [← List.singleton_inj.mp (List.append_cancel_left hfills)] at hside
      cases hside
  obtain ⟨p, quotes, q, call, stop, hp, hl, hquotes, hq, hcall, hopen, rfl⟩ := hfill
  -- the rule on the position opened, at any last price of the underlying
  have hrule : ∀ u t, quotes.get? p.underlying = some u →
      (exitReason cfg (p.position (purchase p now q.ask stop)) call.direction call.target
        (a.effective call) u t (cfg.et.date now) = .ok none ↔
        ClearAt cfg now p call (a.effective call) u.last q.ask) := by
    intro u t hu
    unfold Opening at hopen
    unfold ClearAt
    by_cases hshares : p.instrument = .shares
    · rw [if_pos hshares] at hopen ⊢
      obtain ⟨g, rfl, hg⟩ := hopen
      rw [exitReason_shares hshares rfl (shareStop_trigger hg), hg]
      refine and_congr_right fun _ => ⟨fun hlast => ⟨g, rfl, hlast⟩, ?_⟩
      rintro ⟨g', hg', hlast⟩
      cases hg'
      exact hlast
    · rw [if_neg hshares] at hopen ⊢
      exact exitReason_option hshares (hopen.2 u hu)
  have hposition : p.position (purchase p now q.ask stop) ∈
      (a.addFill (purchase p now q.ask stop)).openPositions :=
    hwf.mem_openPositions.mpr ⟨p, hp, _, _, hl.fill rfl rfl rfl, rfl, rfl⟩
  constructor
  · rintro ⟨x, hx, hid, quotes', u, t, call', hquotes', hu, ht, hcall', hnone⟩
    obtain rfl := hwf.position_unique hposition hx hid
    cases hquotes.symm.trans hquotes'
    cases hcall.symm.trans hcall'
    exact ⟨p, hp, rfl, quotes, u, q, call, hquotes, hu, hq, hcall, (hrule u t hu).mp hnone⟩
  · rintro ⟨p', hp', hid, quotes', u, q', call', hquotes', hu, hq', hcall', hclear⟩
    have hsame : p'.id = p.id := hid
    have hids : (a.proposals.map (·.id)).Nodup := hwf.proposalIds
    obtain rfl := List.inj_on_of_nodup_map hids hp' hp hsame
    cases hquotes.symm.trans hquotes'
    cases hcall.symm.trans hcall'
    cases hq.symm.trans hq'
    exact ⟨_, hposition, rfl, quotes, u, q, call, hquotes, hu, hq, hcall, (hrule u q hu).mpr hclear⟩

/-! ## Through a pass -/

/-- A pass changes no call and no proposal. -/
structure SameDesk (s t : Store) : Prop where
  calls : t.calls = s.calls
  tightenings : t.callTightenings = s.callTightenings
  proposals : t.proposals = s.proposals

theorem WatchWrite.sameDesk (hw : WatchWrite cfg now h a b) (hs : SameDesk s a) : SameDesk s b := by
  cases hw with
  | rejected | outcome | fill | mark | sell | done => exact ⟨hs.calls, hs.tightenings, hs.proposals⟩

/-- A pass takes no fill back. -/
theorem WatchWrite.fills_kept (hw : WatchWrite cfg now h a b) : a.paperFills ⊆ b.paperFills := by
  cases hw with
  | rejected | outcome | mark | done => exact List.Subset.refl _
  | fill | sell => exact List.subset_append_left _ _

/-- The fill is a statement of a pass from `s` that left `s'`. -/
structure InPass (cfg : Settings) (now : Instant) (s s' : Store) (e : Booked) : Prop where
  wrote : WatchWrite cfg now e.before e.store e.after
  wf : WF e.store
  wfAfter : WF e.after
  desk : SameDesk s e.store
  kept : e.after.paperFills ⊆ s'.paperFills

theorem booked_inPass (hs : Sound s)
    (hpass : Runs Adm (runDeskWatch cfg now window) [] s r h s') :
    ∀ e ∈ booked h, InPass cfg now s s' e := by
  intro e he
  have hspec : Always Adm (DeskWrite cfg (.deskWatch now window)) (fun _ _ s' => Sound s')
      (runDeskWatch cfg now window) [] s := runDeskWatch_spec hs
  have hboth := (hspec.and (runDeskWatch_watch hs)).inv (J := fun t => WF t ∧ SameDesk s t)
    (fun _ _ _ ha hw => ⟨DeskWrite.wf hw.1 ha.1, hw.2.sameDesk ha.2⟩)
    ⟨hs.wf, rfl, rfl, rfl⟩
  obtain ⟨post, b, hsplit, hf⟩ := mem_booked he
  obtain ⟨new, hnew, hG⟩ := Always.steps_wrote (c := ⟨_, [], s⟩) hboth hpass
  rw [List.append_nil] at hnew
  obtain ⟨⟨hwf, hdesk⟩, hdw, hw⟩ := hG post e.store b e.before (hnew ▸ hsplit)
  rw [List.append_nil] at hdw hw
  obtain rfl := hw.added hf
  refine ⟨hw, hwf, hdw.wf hwf, hdesk, ?_⟩
  -- fills only grow on the way to the end of the pass
  obtain ⟨_, hlast, _⟩ := hboth.ordered (T := fun t t' => t.paperFills ⊆ t'.paperFills)
    (C := fun _ _ => True) (K := fun _ => True) (fun _ _ _ _ _ => trivial)
    (fun _ _ => List.Subset.refl _)
    (fun _ _ _ _ _ hg _ hr => List.Subset.trans hr hg.2.2.fills_kept) trivial hpass fun _ _ _ => trivial
  have hmem : Event.wrote e.store e.after ∈ h := by
    rw [hsplit]
    exact List.mem_append_right _ List.mem_cons_self
  obtain ⟨pre, post', hstates⟩ := states_wrote hmem
  refine hlast e.after ?_
  rw [hstates]
  exact List.mem_append_right _ List.mem_cons_self

/-- The two fills were made at the same quotes of the position's contract
and of its underlying. -/
def SamePrices (e e' : Booked) : Prop :=
  ∃ x ∈ e.after.openPositions, x.proposalId = e.fill.proposalId ∧
    ∃ quotes quotes', lastQuotes e.before = some quotes ∧ lastQuotes e'.before = some quotes' ∧
      quotes'.get? x.underlying = quotes.get? x.underlying ∧
      quotes'.get? x.symbol = quotes.get? x.symbol

/-- No fill of the pass is an exit already, and none is sold by the exit
rule in the same pass at the same prices. -/
structure FillsStay (cfg : Settings) (now : Instant) (h : History) : Prop where
  stays : ∀ e ∈ booked h, e.fill.side = .buy → Stays cfg now e
  unsold : ∀ e ∈ booked h, e.fill.side = .buy → ∀ e' ∈ booked h, e'.fill.side = .sell →
    e'.fill.proposalId = e.fill.proposalId → SamePrices e e' →
    e'.fill.reason = .callResolved ∨ e'.fill.reason = .pmExit

/-- Every fill of the pass was clear. -/
def FillsClear (cfg : Settings) (now : Instant) (h : History) : Prop :=
  ∀ e ∈ booked h, e.fill.side = .buy → Clear cfg now e

/-- The purchases of one proposal are one row. -/
theorem WF.buys_unique (hs : WF s) {f g : PaperFill} (hf : f ∈ s.buys p.id)
    (hg : g ∈ s.buys p.id) (hp : p ∈ s.proposals) : f = g := by
  obtain ⟨l, hl⟩ := hs.lives p hp
  rw [hl.buys] at hf hg
  cases l <;> simp_all [Life.buys]

/-- The purchase a position stems from. -/
theorem WF.bought_of_open (hs : WF s) (hx : x ∈ s.openPositions) :
    ∃ p ∈ s.proposals, ∃ f ∈ s.buys p.id, x = p.position f := by
  obtain ⟨p, hp, l, f, hl, hentry, rfl⟩ := hs.mem_openPositions.mp hx
  refine ⟨p, hp, f, ?_, rfl⟩
  rw [hl.buys]
  cases l <;> simp_all [Life.buys, Life.entry?]

/-- A position that stays at the prices it was filled at is not sold by the
exit rule at the same prices. -/
theorem Stays.unsold {e e' : Booked} (hstays : Stays cfg now e) (hs' : WF s')
    (he : InPass cfg now s s' e) (he' : InPass cfg now s s' e') (hsell : e'.fill.side = .sell)
    (hid : e'.fill.proposalId = e.fill.proposalId) (hsame : SamePrices e e')
    (hprops : s'.proposals = s.proposals) :
    e'.fill.reason = .callResolved ∨ e'.fill.reason = .pmExit := by
  obtain ⟨x, hx, hxid, quotes, u, t, call, hquotes, hu, ht, hcall, hnone⟩ := hstays
  obtain ⟨y, hy, hyid, quotes₁, quotes₂, hq₁, hq₂, hsu, hst⟩ := hsame
  obtain rfl := he.wfAfter.position_unique hx hy (hyid.trans hxid.symm)
  cases hquotes.symm.trans hq₁
  obtain ⟨before', a', f'⟩ := e'
  have hw := he'.wrote
  generalize hb : Booked.after ⟨before', a', f'⟩ = b at hw
  have hfills : b.paperFills = a'.paperFills ++ [f'] := hb ▸ rfl
  cases hw with
  | rejected | outcome | mark | done =>
    have hself : a'.paperFills = a'.paperFills ++ [f'] := hfills
    have := congrArg List.length hself
    rw [List.length_append, List.length_singleton] at this
    omega
  | fill =>
    rw [← List.singleton_inj.mp (List.append_cancel_left hfills)] at hsell
    cases hsell
  | sell z quotes' u' t' call' reason price hz hquotes' hu' ht' hcall' hcause =>
    obtain rfl : sale z now reason price = f' :=
      List.singleton_inj.mp (List.append_cancel_left hfills)
    cases hq₂.symm.trans hquotes'
    -- the position sold is the position bought
    obtain ⟨p, hp, f, hf, rfl⟩ := he.wfAfter.bought_of_open hx
    obtain ⟨p', hp', f', hf', rfl⟩ := he'.wf.bought_of_open hz
    have hp₀ : p ∈ s'.proposals := by
      rw [hprops, ← he.desk.proposals]
      exact hp
    have hp₁ : p' ∈ s'.proposals := by
      rw [hprops, ← he'.desk.proposals]
      exact hp'
    have hsameId : p'.id = p.id := (show p'.id = e.fill.proposalId from hid).trans hxid.symm
    obtain rfl := hs'.proposal_unique hp₁ hp₀ hsameId
    have hkeep : ∀ {r : Store} {g : PaperFill}, r.paperFills ⊆ s'.paperFills → g ∈ r.buys p'.id →
        g ∈ s'.buys p'.id := by
      intro r g hsub hg
      obtain ⟨hg, hP⟩ := List.mem_filter.mp hg
      exact List.mem_filter.mpr ⟨hsub hg, hP⟩
    have hbefore : a'.paperFills ⊆ s'.paperFills := fun g hg =>
      he'.kept (List.mem_append_left _ hg)
    obtain rfl := hs'.buys_unique (hkeep he.kept hf) (hkeep hbefore hf') hp₀
    -- at the same prices, on the same call
    rw [hsu, hu] at hu'
    rw [hst, ht] at ht'
    cases hu'
    cases ht'
    have hcalls : a'.calls = e.store.calls := he'.desk.calls.trans he.desk.calls.symm
    have htight : a'.callTightenings = e.store.callTightenings :=
      he'.desk.tightenings.trans he.desk.tightenings.symm
    have hcur : ∀ i, a'.currentCall i = e.store.currentCall i := by
      intro i
      unfold Store.currentCall Store.extension?
      rw [hcalls]
    have hcall? : ∀ i, a'.call? i = e.store.call? i := by
      intro i
      unfold Store.call?
      rw [hcalls]
    have heff : ∀ c, a'.effective c = e.store.effective c := by
      intro c
      unfold Store.effective Store.lastTightening?
      rw [htight]
    rw [hcur, hcall?] at hcall'
    cases hcall.symm.trans hcall'
    cases hcause with
    | rule hrule =>
      rw [heff, hnone] at hrule
      cases hrule
    | other _ hreason => exact hreason

/-- **When a fill is no exit yet.** In every pass, whatever run led to it,
the fills stay on their own quotes exactly if each of them was clear. -/
theorem fills_stay_iff (hrun : Run cfg Adm init log s) (hf : Fresh init)
    (hpass : Runs Adm (runDeskWatch cfg now window) [] s r h s') :
    FillsStay cfg now h ↔ FillsClear cfg now h := by
  have hs := hrun.sound hf.sound
  have hin := booked_inPass hs hpass
  have hstays : ∀ e ∈ booked h, e.fill.side = .buy → (Stays cfg now e ↔ Clear cfg now e) :=
    fun e he hside => stays_iff (hin e he).wfAfter (hin e he).wrote hside
  constructor
  · intro hall e he hside
    exact (hstays e he hside).mp (hall.stays e he hside)
  · intro hall
    have hspec : Always Adm (DeskWrite cfg (.deskWatch now window)) (fun _ _ s' => Sound s')
        (runDeskWatch cfg now window) [] s := runDeskWatch_spec hs
    have hs' : Sound s' := hspec.runs hpass
    have hsame : SameDesk s s' := Always.steps_inv (c := ⟨_, [], s⟩) (runDeskWatch_watch hs)
      (J := SameDesk s) (fun _ _ _ ha hw => hw.sameDesk ha) ⟨rfl, rfl, rfl⟩ hpass
    refine ⟨fun e he hside => (hstays e he hside).mpr (hall e he hside), ?_⟩
    intro e he hside e' he' hsell hid hprices
    exact ((hstays e he hside).mpr (hall e he hside)).unsold hs'.wf (hin e he) (hin e' he') hsell
      hid hprices hsame.proposals

/-! ## A wide spread -/

/-- AAA last traded at 46, under the stop, and is offered at 50. -/
def wideSpread (now : Instant) : (q : Query) → Answer q
  | .quotes _ => .ok [("AAA", ⟨"AAA", 46, 45, 50, now⟩)]
  | .optionChain _ _ _ _ => .ok []
  | .reactionUsers _ _ => .reply 200 (.users [])
  | .post _ => true
  | .postMessage _ => some "m1"

/-- A share proposal on AAA is posted, its veto window over by 10:15. -/
def proposed : Store :=
  Script.play deskSettings [submitAt 9 50 "47" 2 .shares, postAt 9 51] openingStore

theorem proposed_run : ∃ log, Run deskSettings AnyAnswer openingStore log proposed := by
  obtain ⟨log, hrun, _⟩ := Script.goes_on [submitAt 9 50 "47" 2 .shares, postAt 9 51] opening_run
  exact ⟨log, hrun⟩

/-- A pass over it at 10:15. -/
def passAt (ω : (q : Query) → Answer q) : Config Store Query Answer Exc WatchReport :=
  runWith ω (runDeskWatch deskSettings (fromMonday 10 15) none) [] proposed

theorem passAt_runs (ω : (q : Query) → Answer q) : ∃ r, Runs AnyAnswer
    (runDeskWatch deskSettings (fromMonday 10 15) none) [] proposed r (passAt ω).hist
      (passAt ω).store := by
  obtain ⟨r, hr⟩ := runWith_ended ω (runDeskWatch deskSettings (fromMonday 10 15) none) [] proposed
  have hsteps : Steps AnyAnswer ⟨runDeskWatch deskSettings (fromMonday 10 15) none, [], proposed⟩
      (passAt ω) := runWith_steps (fun _ => trivial) _ [] proposed
  refine ⟨r, ?_⟩
  unfold Runs
  rw [← Prog.ended?_some hr]
  exact hsteps

/-- The pass buys at 50 and, at the same quotes, sells at its stop. -/
theorem sold_at_once : ¬ ∀ cfg Adm init log s now window r h s',
    Run cfg Adm init log s → Fresh init → Runs Adm (runDeskWatch cfg now window) [] s r h s' →
    FillsStay cfg now h := by
  intro hall
  obtain ⟨log, hrun⟩ := proposed_run
  obtain ⟨r, hpass⟩ := passAt_runs (wideSpread (fromMonday 10 15))
  have hstay := hall _ _ _ _ _ _ _ _ _ _ hrun openingStore_fresh hpass
  have hbooked : (booked (passAt (wideSpread (fromMonday 10 15))).hist).map (fun e =>
      (e.fill.side, e.fill.proposalId, e.fill.reason)) =
      [(.sell, 1, .stop), (.buy, 1, .entry)] := by
    decide +kernel
  have hprices : (booked (passAt (wideSpread (fromMonday 10 15))).hist).map (fun e =>
      lastQuotes e.before) = List.replicate 2
        (some [("AAA", ⟨"AAA", 46, 45, 50, fromMonday 10 15⟩)]) := by
    decide +kernel
  have hopened : ((booked (passAt (wideSpread (fromMonday 10 15))).hist).map fun e =>
      e.after.openPositions.map (·.proposalId)) = [[], [1]] := by
    decide +kernel
  obtain ⟨sold, rest, hlist, hsold, hrest⟩ := List.map_eq_cons_iff.mp hbooked
  obtain ⟨bought, older, hlist', hbought, hnil⟩ := List.map_eq_cons_iff.mp hrest
  obtain rfl := List.map_eq_nil_iff.mp hnil
  rw [hlist, hlist'] at hprices hopened
  simp only [List.map_cons, List.map_nil, List.replicate, List.cons.injEq, and_true,
    Prod.mk.injEq] at hprices hopened hsold hbought
  obtain ⟨x, hx, hid⟩ : ∃ x ∈ bought.after.openPositions, x.proposalId = 1 := by
    have hmem : (1 : ℕ) ∈ bought.after.openPositions.map (·.proposalId) := by
      rw [hopened.2]
      exact List.mem_singleton.mpr rfl
    obtain ⟨x, hx, hid⟩ := List.mem_map.mp hmem
    exact ⟨x, hx, hid⟩
  have hreason := hstay.unsold bought (by rw [hlist, hlist']; simp) hbought.1 sold
    (by rw [hlist]; simp) hsold.1 (hsold.2.1.trans hbought.2.1.symm)
    ⟨x, hx, hid.trans hbought.2.1.symm, _, _, hprices.2, hprices.1, rfl, rfl⟩
  rw [hsold.2.2] at hreason
  rcases hreason with hc | hc <;> cases hc

/-- At a price that stands the same proposal is bought and held. -/
theorem fills_stay_held : ∃ r, Runs AnyAnswer
    (runDeskWatch deskSettings (fromMonday 10 15) none) [] proposed r
      (passAt (quoting (fromMonday 10 15) 50)).hist (passAt (quoting (fromMonday 10 15) 50)).store ∧
    (passAt (quoting (fromMonday 10 15) 50)).store.openPositions.length = 1 ∧
    (FillsStay deskSettings (fromMonday 10 15) (passAt (quoting (fromMonday 10 15) 50)).hist ↔
      FillsClear deskSettings (fromMonday 10 15) (passAt (quoting (fromMonday 10 15) 50)).hist) := by
  obtain ⟨log, hrun⟩ := proposed_run
  obtain ⟨r, hpass⟩ := passAt_runs (quoting (fromMonday 10 15) 50)
  exact ⟨r, hpass, by decide +kernel, fills_stay_iff hrun openingStore_fresh hpass⟩

end TradeDesk.Desk
