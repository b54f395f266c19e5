import TradeDesk.Desk.Book

/-!
# What each operation may write

`DeskWrite cfg op h a b`: operation `op`, having done `h`, takes the store
from `a` to `b` in one statement. One constructor a statement, with
everything the code has checked by then: the gates of a submission, the
book it was sized against, the reactions and quotes an entry was filled
on. The specifications of the operations (`Desk/Specs.lean`) show that
they write nothing else; every property of a run is then a case analysis
over these constructors.

`DeskWrite.wf` is the first: each statement keeps the ledger well formed.
-/

namespace TradeDesk

/-- The invalidation in effect for a call: its last tightening's, if any. -/
def Store.effective (s : Store) (call : Call) : ℚ :=
  match s.lastTightening? call.id with
  | none => call.invalidation
  | some t => t.invalidation

namespace Desk

open TradeDesk.Async

/-! ## Evidence -/

/-- The history holds this answer to a quote request. -/
def ReadQuotes (h : History) (quotes : Quotes) : Prop :=
  ∃ symbols, .asked (.quotes symbols) (.ok quotes) ∈ h

/-- No older than the freshness limit. -/
def Fresh? (now : Instant) (q : Quote) : Prop := now - q.quoteTime ≤ quoteMaxAge

/-- The prices of a call stand on the right sides of the last price. -/
def LevelsOk (direction : Direction) (last target inval : ℚ) : Prop :=
  match direction with
  | .up => last < target ∧ inval < last
  | .down => target < last ∧ last < inval

/-- What a submission has checked of the call it inserts. -/
structure NewCallOk (cfg : Settings) (now : Instant) (cin : CallIn) (a : Store) (c : NewCall) :
    Prop where
  madeAt : c.madeAt = now
  session : c.session = cfg.et.date now
  original : c.extendsCallId = none
  direction : c.direction = cin.direction
  legacy : c.origin = .legacy ↔ cin.legacy = true
  funding : c.funding = if c.origin = .legacy then .none else cin.funding
  target : 0 < c.target
  invalidation : 0 < c.invalidation
  levels : LevelsOk c.direction c.refPrice c.target c.invalidation
  /-- No call on the name and direction is open. -/
  alone : c.origin ≠ .legacy → a.openCall? c.symbol c.direction false = none
  cap : c.origin ≠ .legacy → ∃ cap, cfg.rules.getInt .strategy "desk_max_new_calls_per_day" =
    .ok cap ∧ (a.callsMadeOn c.session : ℤ) < cap

/-- Where the limit of a proposal comes from: the model's own positive
price, or as far as a chase above a quoted ask may go. -/
def LimitFrom (cfg : Settings) (h : History) (price : ℚ) : Prop :=
  0 < price ∨ ∃ quotes symbol q chase, ReadQuotes h quotes ∧ quotes.get? symbol = some q ∧
    cfg.rules.get .strategy "max_entry_chase_pct" = .ok chase ∧
    price = cents (q.ask * (1 + chase / 100))

/-- What funding has checked of a plan, on the store the call was not in. -/
structure PlanOk (cfg : Settings) (cin : CallIn) (h : History) (before : Store)
    (symbol bench : String) (plan : Plan) : Prop where
  quantity : 1 ≤ plan.quantity
  direction : cin.direction = .down ↔ plan.instrument = .put
  limit : LimitFrom cfg h plan.maxEntry
  nonzero : plan.maxEntry ≠ 0
  book : ∃ book correlated, (bookState none).eval before = .ok book ∧
    checkBook book symbol bench (plan.maxEntry * plan.quantity * mult plan.instrument)
      (plan.instrument != .shares) correlated cfg.rules cfg.reserve = .ok ()

/-- What an entry fill rests on. -/
structure EntryOk (cfg : Settings) (now : Instant) (window : Option MarketWindow) (h : History)
    (a : Store) (p : Proposal) (ask : ℚ) (stop : Option (ℚ × ℚ)) : Prop where
  session : phaseFor now (sessionWindow cfg now window) = .rth
  cutoff : cfg.et.time now < entryCutoff
  posted : ∃ t, p.postedAt = some t ∧ cfg.et.date now ≤ cfg.et.date t
  /-- The veto window is over, or an approval was read with the vetoes. -/
  reviewed : (∃ d, p.vetoDeadline = some d ∧ d ≤ now) ∨
    ∃ mid, p.messageId = some mid ∧ ReadApproval cfg h mid
  quoted : ∃ quotes q, ReadQuotes h quotes ∧ quotes.get? p.symbol = some q ∧ q.ask = ask ∧
    Fresh? now q ∧ ∀ u, quotes.get? p.underlying = some u → Fresh? now u
  positive : 0 < ask
  limit : ask ≤ p.maxEntryPrice
  stopped : if p.instrument = .shares then ∃ g inval, stop = some (g.trigger, g.limit) ∧
      shareStop cfg p ask inval = .ok g else stop = none
  book : ∃ book bench correlated, (bookState (some p.id)).eval a = .ok book ∧
    checkBook book p.underlying bench (ask * p.quantity * mult p.instrument)
      (p.instrument != .shares) correlated cfg.rules cfg.reserve = .ok ()

/-- What a sale is made at: the bid, or the trigger of a stop. -/
def SaleAt (h : History) (a : Store) (x : PaperPosition) (price : ℚ) : Prop :=
  (∃ quotes t, ReadQuotes h quotes ∧ quotes.get? x.symbol = some t ∧ price = t.bid) ∨
    ∃ call ∈ a.calls, price = shareTrigger x.stopTrigger (a.effective call)

/-- What a position is marked at: a fresh bid, or a fresh last price. -/
def MarkAt (now : Instant) (h : History) (x : PaperPosition) (price : ℚ) : Prop :=
  ∃ quotes u t, ReadQuotes h quotes ∧ quotes.get? x.underlying = some u ∧
    quotes.get? x.symbol = some t ∧ Fresh? now u ∧ Fresh? now t ∧ price = markPrice x u t

/-- The operations that may end a proposal unfilled. -/
def Op.mayDrop : Op → Bool
  | .postProposals _ _ | .expireStale _ | .deskWatch _ _ => true
  | _ => false

/-! ## The writes -/

inductive DeskWrite (cfg : Settings) : Op → History → Store → Store → Prop
  | call {now : Instant} {cin : CallIn} {h : History} {a : Store} (c : NewCall) :
      NewCallOk cfg now cin a c → DeskWrite cfg (.submitCall now cin) h a (a.addCall c)
  | proposal {now : Instant} {cin : CallIn} {h : History} {a : Store} (c : NewCall) (plan : Plan) :
      NewCallOk cfg now cin a c → c.funding ≠ .none →
      PlanOk cfg cin h a c.symbol c.benchmark plan →
      DeskWrite cfg (.submitCall now cin) h (a.addCall c)
        ((a.addCall c).addProposal (nextId (a.calls.map (·.id))) now plan.instrument plan.symbol
          c.symbol plan.quantity plan.maxEntry plan.atrPct)
  | extension {now : Instant} {callId : ℕ} {target inval : String} {days : ℤ} {thesis : String}
      {h : History} {a : Store} (old : Call) (t i last spy bench : ℚ) :
      old ∈ a.calls → old.id = callId → old.origin ≠ .legacy → old.extendsCallId = none →
      a.extension? callId = none → (∃ r, a.resolution? .call callId = some r ∧ r.how = .horizon) →
      (∃ x ∈ a.openPositions, a.currentCall x.callId = callId) → 0 < t → 0 < i →
      LevelsOk old.direction last t i →
      DeskWrite cfg (.extendCall now callId target inval days thesis) h a
        (a.addCall (extensionOf cfg now old thesis t i last spy bench days))
  | tighten {now : Instant} {callId : ℕ} {text : String} {h : History} {a : Store} (call : Call)
      (new last : ℚ) :
      call ∈ a.calls → call.id = callId → call.origin ≠ .legacy →
      a.resolution? .call callId = none →
      (∃ x ∈ a.openPositions, a.currentCall x.callId = callId) → 0 < new →
      between call.direction (a.effective call) new last →
      DeskWrite cfg (.tightenCall now callId text) h a (a.addTightening callId new now)
  | exitRequest {now : Instant} {symbol reason : String} {h : History} {a : Store} (sym : String)
      (proposalId : Option ℕ) :
      DeskWrite cfg (.requestExit now symbol reason) h a
        (a.addExitRequest sym proposalId reason now)
  | posted {now : Instant} {window : Option MarketWindow} {h : History} {a : Store} (p : Proposal)
      (veto : ℤ) (mid : String) :
      p ∈ a.proposals → HasLife a p .pending → cfg.et.date now ≤ cfg.et.date p.createdAt →
      vetoWindow cfg.rules = .ok veto →
      DeskWrite cfg (.postProposals now window) h a
        (a.stampPosted p.id now (vetoDeadline cfg veto now) (some mid))
  | dropped {op : Op} {h : History} {a : Store} (p : Proposal) (o : ProposalOutcome) :
      op.mayDrop = true → op.time? = some o.at_ → p ∈ a.proposals → HasLife a p .pending →
      o.proposalId = p.id → o.outcome ≠ .filled → DeskWrite cfg op h a (a.withOutcome o)
  | buy {now : Instant} {window : Option MarketWindow} {h : History} {a : Store} (p : Proposal)
      (ask : ℚ) (stop : Option (ℚ × ℚ)) :
      p ∈ a.proposals → HasLife a p .pending → EntryOk cfg now window h a p ask stop →
      DeskWrite cfg (.deskWatch now window) h a
        (a.addFill ⟨p.id, now, .buy, p.quantity, ask, .entry, stop.map (·.1), stop.map (·.2)⟩)
  | filled {now : Instant} {window : Option MarketWindow} {h : History} {a : Store}
      (p : Proposal) (e : PaperFill) (o : ProposalOutcome) :
      p ∈ a.proposals → HasLife a p (.filling e) → o.proposalId = p.id → o.outcome = .filled →
      DeskWrite cfg (.deskWatch now window) h a (a.withOutcome o)
  | mark {now : Instant} {window : Option MarketWindow} {h : History} {a : Store}
      (x : PaperPosition) (price : ℚ) :
      x ∈ a.openPositions → MarkAt now h x price →
      DeskWrite cfg (.deskWatch now window) h a (a.upsertMark x.symbol price now)
  | sell {now : Instant} {window : Option MarketWindow} {h : History} {a : Store} (p : Proposal)
      (e : PaperFill) (price : ℚ) (reason : FillReason) :
      p ∈ a.proposals → HasLife a p (.held e) → SaleAt h a (p.position e) price →
      DeskWrite cfg (.deskWatch now window) h a
        (a.addFill ⟨p.id, now, .sell, e.quantity, price, reason, none, none⟩)
  | exitDone {now : Instant} {window : Option MarketWindow} {h : History} {a : Store}
      (requestId : ℕ) :
      DeskWrite cfg (.deskWatch now window) h a (a.markExitDone requestId now)
  | resolve {h : History} {a : Store} (r : Resolution) :
      a.resolution? r.kind r.itemId = none →
      (r.kind = .call → ∃ c ∈ a.calls, c.id = r.itemId) →
      DeskWrite cfg .score h a (a.withResolution r)

section

variable {cfg : Settings} {op : Op} {h : History} {a b : Store}

theorem resolution?_some {i : ℕ} {k : ItemKind} {r : Resolution}
    (h : a.resolution? k i = some r) : a.resolved k i = true := by
  unfold Store.resolution? at h
  exact List.any_eq_true.mpr ⟨r, List.mem_of_find?_eq_some h, by simpa using List.find?_some h⟩

theorem resolution?_none {i : ℕ} {k : ItemKind} (h : a.resolution? k i = none) :
    a.resolved k i = false := by
  unfold Store.resolved
  rw [List.any_eq_false]
  intro r hr
  have := List.find?_eq_none.mp h r hr
  simpa using this

theorem addResolution_of {r : Resolution} (h : a.resolution? r.kind r.itemId = none) :
    a.addResolution r = a.withResolution r := by
  unfold Store.addResolution
  rw [resolution?_none h, if_neg (by decide)]

/-- **Every statement keeps the ledger well formed.** -/
theorem DeskWrite.wf (hw : DeskWrite cfg op h a b) (ha : WF a) : WF b := by
  cases hw with
  | call c hc =>
    exact ha.addCall fun i hi => by
      rw [hc.original] at hi
      cases hi
  | @proposal now cin h a c plan hc hf hplan =>
    -- the call the proposal belongs to is the row just inserted
    exact ha.addProposal (List.mem_append_right _ (List.mem_singleton.mpr rfl)) rfl hc.original rfl
      (by rw [← hplan.direction, ← hc.direction]) (by have := hplan.quantity; omega)
  | extension old t i last spy bench hold hid _ hnone hext _ _ _ _ _ =>
    refine ha.addCall fun j hj => ?_
    obtain rfl : old.id = j := Option.some.inj hj
    exact ⟨hid ▸ hext, old, hold, rfl, hnone, rfl, rfl⟩
  | tighten call new last _ _ _ _ _ _ _ => exact ha.of_same rfl rfl rfl rfl
  | exitRequest sym pid => exact ha.of_same rfl rfl rfl rfl
  | posted p veto mid _ _ _ _ => exact ha.stampPosted
  | dropped p o _ _ hp hl hop hne =>
    exact ha.withOutcome (hl.noOutcome rfl hop) hp hop (hl.drop hop hne)
  | buy p ask stop hp hl _ => exact ha.addFill hp rfl (hl.fill rfl rfl rfl)
  | filled p e o hp hl hop hfilled =>
    exact ha.withOutcome (hl.noOutcome rfl hop) hp hop (hl.settle hop hfilled)
  | mark x price _ _ => exact ha.of_same rfl rfl rfl rfl
  | sell p e price reason hp hl _ => exact ha.addFill hp rfl (hl.sell rfl rfl hl.fits)
  | exitDone rid => exact ha.of_same rfl rfl rfl rfl
  | resolve r _ _ => exact ha.of_same rfl rfl rfl rfl

end

end Desk

end TradeDesk
