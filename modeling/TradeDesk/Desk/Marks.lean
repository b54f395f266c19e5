import TradeDesk.Desk.Accounting
import TradeDesk.Desk.Times

/-!
# Marks outlive positions

`paper_marks` has one row a symbol, written while a position in it is
open and never taken away. So a position opened in a symbol that was held
before is worth what the old one was last marked at, until the exit half
of a pass marks it again. The marks of a run are fair, and its entries
leave the book's equity alone, exactly when every entry finds no mark of
its symbol, or finds the price it pays (`fairMarks_iff`).
-/

namespace TradeDesk.Desk

open TradeDesk.Async

variable {cfg : Settings} {op : Op} {Adm : ∀ q, Answer q → Prop} {h : History} {a b s : Store}
variable {init : Store} {log : List Entry} {p : Proposal} {x : PaperPosition} {E : ℚ}
variable {now : Instant}

/-- At its entry price, or at a mark no older than the position. -/
def FairlyMarked (s : Store) (x : PaperPosition) : Prop :=
  markedAt s.paperMarks x.symbol x.entryPrice = x.entryPrice ∨
    ∃ m, s.mark? x.symbol = some m ∧ x.openedAt ≤ m.at_

def FairMarks (s : Store) : Prop := ∀ x ∈ s.openPositions, FairlyMarked s x

/-- The statement, if it fills an entry, finds no mark of the symbol or
finds the price it pays. -/
def FreshlyMarked (a b : Store) : Prop :=
  ∀ p ∈ a.proposals, ∀ f, f.proposalId = p.id → f.side = .buy → b = a.addFill f →
    ∀ m, a.mark? p.symbol = some m → m.price = f.price

/-- In every state of the run the marks are fair, and no entry fill moves
the equity `book_state` reports. -/
structure FairRun (log : List Entry) (s : Store) : Prop where
  states : Throughout FairMarks log s
  fills : EveryWrite (fun a b => ∀ f, f.side = .buy → b = a.addFill f → ∀ x y,
    (bookState none).eval a = .ok x → (bookState none).eval b = .ok y → y.equity = x.equity) log

/-! ## The table of marks -/

theorem markedAt_eq (s : Store) (symbol : String) (entry : ℚ) :
    markedAt s.paperMarks symbol entry = match s.mark? symbol with
      | some m => m.price
      | none => entry := rfl

/-- A price is its own mark when there is none, or that one. -/
theorem markedAt_iff {symbol : String} {entry : ℚ} :
    markedAt s.paperMarks symbol entry = entry ↔ ∀ m, s.mark? symbol = some m → m.price = entry := by
  rw [markedAt_eq]
  cases s.mark? symbol with
  | none => exact ⟨fun _ m hm => (by cases hm), fun _ => rfl⟩
  | some m => exact ⟨fun he m' hm => Option.some.inj hm ▸ he, fun hm => hm m rfl⟩

theorem mark?_upsertMark_self (s : Store) (symbol : String) (price : ℚ) (now : Instant) :
    ∃ m, (s.upsertMark symbol price now).mark? symbol = some m ∧ m.at_ = now := by
  unfold Store.upsertMark
  split
  next hsome =>
    obtain ⟨m, hm⟩ := Option.isSome_iff_exists.mp hsome
    have hms : m.symbol = symbol := by simpa using List.find?_some hm
    refine ⟨{ m with price, at_ := now }, ?_, rfl⟩
    unfold Store.mark? at hm ⊢
    rw [List.find?_map]
    have hcomp : ((fun m : PaperMark => m.symbol == symbol) ∘ fun m =>
        if m.symbol = symbol then { m with price, at_ := now } else m) =
        fun m => m.symbol == symbol := by
      funext m
      simp only [Function.comp]
      split <;> rfl
    rw [hcomp, hm, Option.map_some, if_pos hms]
  next hnone =>
    have hnone' : s.paperMarks.find? (fun m => m.symbol == symbol) = none := by
      simpa [Store.mark?] using hnone
    refine ⟨⟨symbol, price, now⟩, ?_, rfl⟩
    unfold Store.mark?
    rw [List.find?_append, hnone']
    simp

theorem mark?_upsertMark_ne {symbol other : String} {price : ℚ} (hne : other ≠ symbol) :
    (s.upsertMark symbol price now).mark? other = s.mark? other := by
  unfold Store.upsertMark
  split
  · unfold Store.mark?
    rw [List.find?_map]
    have hcomp : ((fun m : PaperMark => m.symbol == other) ∘ fun m =>
        if m.symbol = symbol then { m with price, at_ := now } else m) =
        fun m => m.symbol == other := by
      funext m
      simp only [Function.comp]
      split <;> rfl
    rw [hcomp]
    cases hf : s.paperMarks.find? (fun m => m.symbol == other) with
    | none => rfl
    | some m =>
      have hms : m.symbol = other := by simpa using List.find?_some hf
      rw [Option.map_some, if_neg fun he => hne (hms.symm.trans he)]
  · unfold Store.mark?
    rw [List.find?_append, List.find?_cons_of_neg (by simpa using fun he => hne he.symm)]
    simp

/-! ## An entry fill and the book's equity -/

/-- An entry fill moves equity by what the new position is marked at, less
what it cost. -/
theorem bookEquity_fill {f : PaperFill} (hw : WF a) (hp : p ∈ a.proposals)
    (hl : HasLife a p .pending) (hf : f.proposalId = p.id) (hside : f.side = .buy)
    (hq : f.quantity = p.quantity) :
    (a.addFill f).bookEquity E = a.bookEquity E +
      (markedAt a.paperMarks p.symbol f.price - f.price) * f.quantity * mult p.instrument := by
  have ht := Touch.fill hp hl hf hside hq
  have hcash := ht.cash (E := E) hw
  have hvalue := ht.marketValue hw rfl
  simp only [Life.flow, Life.entry?, Option.toList_none, Option.toList_some, List.map_nil,
    List.sum_nil, List.map_singleton, List.sum_singleton, add_zero] at hcash hvalue
  have hpos : a.markedValue (p.position f) =
      markedAt a.paperMarks p.symbol f.price * f.quantity * mult p.instrument := rfl
  unfold Store.bookEquity
  rw [hcash, hvalue, hpos]
  ring

/-- It leaves equity alone exactly when it finds no mark but its price. -/
theorem bookEquity_fill_iff {f : PaperFill} (hw : WF a) (hp : p ∈ a.proposals)
    (hl : HasLife a p .pending) (hf : f.proposalId = p.id) (hside : f.side = .buy)
    (hq : f.quantity = p.quantity) : (a.addFill f).bookEquity E = a.bookEquity E ↔
      ∀ m, a.mark? p.symbol = some m → m.price = f.price := by
  have hqn : (0 : ℚ) < f.quantity := by
    rw [hq]
    exact_mod_cast hw.quantity p hp
  rw [bookEquity_fill hw hp hl hf hside hq, ← markedAt_iff, add_eq_left, mul_assoc,
    mul_eq_zero, sub_eq_zero]
  exact or_iff_left (ne_of_gt (mul_pos hqn (mult_pos _)))

/-! ## Runs -/

theorem FairMarks.of_same (hf : FairMarks a) (hopen : b.openPositions = a.openPositions)
    (hmarks : b.paperMarks = a.paperMarks) : FairMarks b := by
  intro x hx
  have := hf x (hopen ▸ hx)
  unfold FairlyMarked Store.mark? at this ⊢
  rwa [hmarks]

/-- A position that moved on leaves the others' marks fair; if it opened,
the mark it found must have been its price. -/
theorem FairMarks.touch {l l' : Life} (hfair : FairMarks a) (hw : WF a) (ht : Touch a b p l l')
    (hmarks : b.paperMarks = a.paperMarks)
    (hnew : ∀ e, l'.entry? = some e → ∀ m, a.mark? p.symbol = some m → m.price = e.price) :
    FairMarks b := by
  intro x hx
  have hsame : ∀ y, FairlyMarked a y → FairlyMarked b y := fun y hy => by
    unfold FairlyMarked Store.mark? at hy ⊢
    rwa [hmarks]
  rcases ht.mem_openPositions hw hx with hx | ⟨e, he, rfl⟩
  · exact hsame x (hfair x hx)
  · exact hsame _ (Or.inl (markedAt_iff.mpr (hnew e he)))

theorem opened_mem (hx : x ∈ s.openPositions) : ∃ f ∈ s.paperFills, x.openedAt = f.at_ := by
  unfold Store.openPositions at hx
  obtain ⟨p, _, hx⟩ := List.mem_flatMap.mp (List.mem_filter.mp hx).1
  obtain ⟨f, hf, rfl⟩ := List.mem_map.mp hx
  exact ⟨f, (List.mem_filter.mp hf).1, rfl⟩

/-- A mark taken now is no older than any position. -/
theorem FairMarks.upsertMark {symbol : String} {price : ℚ} (hfair : FairMarks a)
    (ht : Timely now a) : FairMarks (a.upsertMark symbol price now) := by
  intro x hx
  have hx' : x ∈ a.openPositions := hx
  by_cases hs : x.symbol = symbol
  · obtain ⟨m, hm, hat⟩ := mark?_upsertMark_self a symbol price now
    obtain ⟨f, hf, hopened⟩ := opened_mem hx'
    refine Or.inr ⟨m, hs ▸ hm, ?_⟩
    rw [hat, hopened]
    exact ht.fills f hf
  · have hsame : (a.upsertMark symbol price now).mark? x.symbol = a.mark? x.symbol :=
      mark?_upsertMark_ne hs
    rcases hfair x hx' with h | ⟨m, hm, hle⟩
    · left
      rw [markedAt_eq] at h ⊢
      rwa [hsame]
    · exact Or.inr ⟨m, hsame.trans hm, hle⟩

/-- **One statement keeps the marks fair**, if an entry it fills finds no
mark of its symbol or finds the price it pays. -/
theorem DeskWrite.fairMarks (hdw : DeskWrite cfg op h a b) (hw : WF a) (hfair : FairMarks a)
    (htime : ∀ t, op.time? = some t → Timely t a) (hc : FreshlyMarked a b) : FairMarks b := by
  cases hdw with
  | call | extension | tighten | exitRequest | exitDone | dropped | filled | resolve =>
    exact hfair.of_same rfl rfl
  | proposal c plan _ _ _ => exact hfair.of_same (openPositions_addProposal hw) rfl
  | posted p veto mid _ _ _ _ => exact hfair.of_same (openPositions_stampPosted a) rfl
  | mark x price _ _ => exact hfair.upsertMark (htime _ rfl)
  | buy p ask stop hp hl _ =>
    refine hfair.touch hw (Touch.fill hp hl rfl rfl rfl) rfl fun e he m hm => ?_
    obtain rfl := Option.some.inj he
    exact hc p hp _ rfl rfl rfl m hm
  | sell p e price reason hp hl _ =>
    exact hfair.touch hw (Touch.sell hp hl rfl rfl hl.fits) rfl fun e he => by cases he

theorem Fresh.fairMarks (hf : Fresh s) : FairMarks s := by
  intro x hx
  rw [Store.openPositions_eq, hf.proposals] at hx
  cases hx

/-- **When marks are fair.** In a chronological run from an empty ledger
every position is at all times worth its entry price or a mark no older
than itself, and no entry moves the book's equity, exactly if every entry
finds no mark of its symbol or finds the price it pays. -/
theorem fairMarks_iff (hrun : Run cfg Adm init log s) (hf : Fresh init)
    (hbook : init.paperBook = some E) (hchron : Chronological log) :
    FairRun log s ↔ EveryWrite FreshlyMarked log := by
  have hbooks := (hrun.throughout (J := fun s => s.paperBook = some E) hf.sound hbook
    (fun _ _ _ _ _ _ ha hdw => hdw.paperBook.trans ha)
    fun _ _ ha hw => by
      obtain ⟨_, _, _, _, _, rfl⟩ := hw
      exact ha).2
  -- the equity `book_state` reports at an entry fill is the closed form's
  have hequity : ∀ e ∈ log, ∀ a b, .wrote a b ∈ e.hist → ∀ p ∈ a.proposals, ∀ f,
      f.proposalId = p.id → f.side = .buy → b = a.addFill f →
      ((∀ x y, (bookState none).eval a = .ok x → (bookState none).eval b = .ok y →
        y.equity = x.equity) ↔ ∀ m, a.mark? p.symbol = some m → m.price = f.price) := by
    intro e he a b hmem p hp f hid hside hb
    obtain ⟨h, _, _, _, hw, hdw⟩ := hrun.wrote hf.sound e he a b hmem
    obtain ⟨ha, hb'⟩ := hbooks e he a b hmem
    obtain ⟨x, hx, hxe⟩ := bookState_total hw ha none
    obtain ⟨y, hy, hye⟩ := bookState_total (hdw.wf hw) hb' none
    obtain ⟨_, _, q, _, hq, hl, _, hqid, hqn, _⟩ := hdw.entry hside hb
    obtain rfl := hw.proposal_unique hq hp (hqid.symm.trans hid)
    rw [← bookEquity_fill_iff (E := E) hw hp hl hid hside hqn, ← hb]
    constructor
    · intro hall
      rw [← hye, ← hxe]
      exact hall x y hx hy
    · intro heq x' y' hx' hy'
      obtain rfl := Except.ok.inj (hx.symm.trans hx')
      obtain rfl := Except.ok.inj (hy.symm.trans hy')
      rw [hye, hxe]
      exact heq
  constructor
  · intro hfair e he a b hmem p hp f hid hside hb
    exact (hequity e he a b hmem p hp f hid hside hb).mp (hfair.fills e he a b hmem f hside hb)
  · intro hc
    have hstates := hrun.along (J := FairMarks)
      (C := fun op a b => (∀ t, op.time? = some t → Timely t a) ∧ FreshlyMarked a b) hf.sound
      hf.fairMarks (fun _ _ _ _ _ hw hfair hdw hc => hdw.fairMarks hw hfair hc.1 hc.2)
      (fun _ _ hfair hw => by
        obtain ⟨_, _, _, _, _, rfl⟩ := hw
        exact hfair.of_same rfl rfl)
      fun e he a b hmem => ⟨fun t ht => (hrun.timely_wrote hf hchron e he t ht a b hmem).1,
        hc e he a b hmem⟩
    refine ⟨hstates, fun e he a b hmem f hside hb => ?_⟩
    obtain ⟨h, _, _, _, hw, hdw⟩ := hrun.wrote hf.sound e he a b hmem
    obtain ⟨_, _, p, _, hp, _, _, hid, _⟩ := hdw.entry hside hb
    exact (hequity e he a b hmem p hp f hid hside hb).mpr (hc e he a b hmem p hp f hid hside hb)

/-- A position was sold at its stop with AAA marked at 44; two days later a
new one is about to be filled. -/
def aboutToReenter : Store :=
  Script.play deskSettings [scoreAt 57 0, submitAt 57 50 "47" 4 .shares, postAt 57 51] (twoDaysOn
    (Script.play deskSettings (buying ++ [watchAt 10 20 44]) openingStore))

theorem aboutToReenter_run : ∃ log, Run deskSettings AnyAnswer openingStore log aboutToReenter ∧
    (log.map (·.op)).filterMap Op.time? =
      [fromMonday 57 51, fromMonday 57 50, fromMonday 10 20, fromMonday 10 15, fromMonday 9 51,
        fromMonday 9 50] := by
  obtain ⟨log, hrun, hops⟩ := Script.goes_on (buying ++ [watchAt 10 20 44]) opening_run
  obtain ⟨log', hrun', hops'⟩ := Script.goes_on
    [scoreAt 57 0, submitAt 57 50 "47" 4 .shares, postAt 57 51] (hrun.world twoDaysOn_world)
  refine ⟨log', hrun', ?_⟩
  rw [hops', hops]
  rfl

/-- The watch that fills the entry at 50. -/
def reentry : Config Store Query Answer Exc Unit :=
  runWith (watchAt 58 15 50).2 ((watchAt 58 15 50).1.prog deskSettings) [] aboutToReenter

/-- Some write of the history leaves a position valued at a mark older than
itself. -/
def staleMarked (h : History) : Bool :=
  h.any fun e => match e with
    | .asked _ _ => false
    | .wrote _ b => b.openPositions.any fun x =>
      decide (markedAt b.paperMarks x.symbol x.entryPrice ≠ x.entryPrice) &&
        b.paperMarks.all fun m => decide (m.at_ < x.openedAt)

theorem staleMarked_wrote {h : History} (hs : staleMarked h = true) :
    ∃ a b, .wrote a b ∈ h ∧ ¬ FairMarks b := by
  obtain ⟨e, he, hstale⟩ := List.any_eq_true.mp hs
  cases e with
  | asked q x => cases hstale
  | wrote a b =>
    obtain ⟨x, hx, hmark⟩ := List.any_eq_true.mp hstale
    rw [Bool.and_eq_true, decide_eq_true_eq, List.all_eq_true] at hmark
    obtain ⟨hne, hold⟩ := hmark
    refine ⟨a, b, he, fun hfair => ?_⟩
    rcases hfair x hx with heq | ⟨m, hm, hle⟩
    · exact hne heq
    · have := of_decide_eq_true (hold m (List.mem_of_find?_eq_some hm))
      exact absurd hle (not_le.mpr this)

/-- After the entry the new position is worth what the old one was. -/
theorem stale_mark : ¬ ∀ cfg Adm init log s E, Run cfg Adm init log s → Fresh init →
    init.paperBook = some E → Chronological log → FairRun log s := by
  intro hall
  obtain ⟨log, hrun, htimes⟩ := aboutToReenter_run
  have hchron : Chronological (⟨(watchAt 58 15 50).1, reentry.hist, aboutToReenter, reentry.store⟩ ::
      log) := by
    refine chronological_of_ops ?_
    have htime : (watchAt 58 15 50).1.time? = some (fromMonday 58 15) := rfl
    rw [List.map_cons, List.filterMap_cons_some htime, htimes]
    decide +kernel
  have hfair := hall _ _ _ _ _ _ (hrun.play (watchAt 58 15 50) fun _ => trivial) openingStore_fresh
    rfl hchron
  obtain ⟨a, b, hmem, hnot⟩ := staleMarked_wrote (h := reentry.hist) (by decide +kernel)
  exact hnot (hfair.states.2 _ List.mem_cons_self a b hmem).2

/-- Up to there every entry found no mark. -/
theorem fairMarks_iff_before : ∃ log, Run deskSettings AnyAnswer openingStore log aboutToReenter ∧
    aboutToReenter.paperFills.length = 2 ∧
    (FairRun log aboutToReenter ↔ EveryWrite FreshlyMarked log) := by
  obtain ⟨log, hrun, htimes⟩ := aboutToReenter_run
  refine ⟨log, hrun, by decide +kernel, fairMarks_iff hrun openingStore_fresh rfl ?_⟩
  exact chronological_of_ops (by rw [htimes]; decide +kernel)

end TradeDesk.Desk
