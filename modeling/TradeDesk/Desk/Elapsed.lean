import TradeDesk.Desk.BarTable
import TradeDesk.Desk.LoopSpecs
import TradeDesk.Desk.PitchLedger
import TradeDesk.Desk.Scores
import TradeDesk.Desk.Stuck
import TradeDesk.Weekdays

/-!
# Elapsed items are scored

The desk at work on pitches and calls, the universe rewritten at will, and
an evening's `bars_refresh` on every session. The market is a calendar of
SPY sessions, and the broker is assumed to have a bar of each for every
symbol it is asked for.

Whatever the desk does between two evenings, an item that is open was open
before or has its first session still to come or today (`Worked`). So when
the evening asks for an item's symbol and benchmark it has done so on every
evening since the item's own, and the ten bars of a top-up reach back far
enough for the first (`Covered`, carried from evening to evening by
`BarsInv.fetched`). With all bars of its window an elapsed item resolves,
unless its score divides by a reference price of zero, which a call has if
the SPY or benchmark quote it was made on had none.
-/

namespace TradeDesk.Desk

open TradeDesk.Async

/-! ## The market and the broker -/

/-- The horizon has come to its last session. -/
def Elapsed (isSession : Date → Bool) (today session : Date) (horizonDays : ℤ) : Prop :=
  1 ≤ horizonDays ∧ horizonDays ≤ sessionsBetween isSession (session - 1) today

def PricesPositive (b : DailyBar) : Prop := 0 < b.open ∧ 0 < b.high ∧ 0 < b.low ∧ 0 < b.close

/-- What a request for `n` bars is answered with: a bar of each of the last
`n` sessions, at positive prices. The sessions are SPY's. -/
structure Bars (isSession : Date → Bool) (today : Date) (sym : String) (n : ℕ)
    (bars : List DailyBar) : Prop where
  positive : ∀ b ∈ bars, PricesPositive b
  whole : ∀ d, d ≤ today → isSession d = true → sessionsBetween isSession d today < n →
    ∃ b ∈ bars, b.date = d
  market : sym = "SPY" → ∀ b ∈ bars, isSession b.date = true

/-- The evening's list of symbols has this one. -/
def AskedFor (cfg : Settings) (bcfg : BarsConfig) (s : Store) (sym : String) : Prop :=
  ∃ symbols, (do barsSymbols cfg bcfg (← carriedSymbols) : Look _).eval s = .ok symbols ∧
    sym ∈ symbols

/-- Every fetch of the evening succeeds. -/
def BrokerUp (cfg : Settings) (bcfg : BarsConfig) (isSession : Date → Bool) (feed : Feed)
    (today : Date) (s : Store) : Prop :=
  ∀ sym, AskedFor cfg bcfg s sym → ∀ n, ∃ bars, feed sym n = .ok bars ∧
    Bars isSession today sym n bars

/-! ## Runs -/

/-- No item yet, and bars only of what the market did. -/
structure NoItems (isSession : Date → Bool) (s : Store) : Prop where
  fresh : Fresh s
  pitches : s.pitches = []
  ordered : RowsOrdered s.bars
  positive : ∀ row ∈ s.bars, PricesPositive row.2
  market : ∀ row ∈ s.bars, row.1 = "SPY" → isSession row.2.date = true

/-- No session goes by without its evening. -/
def NoneMissed (isSession : Date → Bool) (eve today : Date) : Prop :=
  ∀ d, eve < d → d < today → isSession d = false

/-- Operations one after another under a clock that never goes back. `eve`
is the day of the last evening, or the run's first. -/
inductive BarsRun (cfg : Settings) (bcfg : BarsConfig) (isSession : Date → Bool) :
    Instant → Date → Store → Prop
  | start {clock : Instant} {s : Store} : NoItems isSession s →
      BarsRun cfg bcfg isSession clock (cfg.et.date clock) s
  | desk {clock clock' : Instant} {eve : Date} {s s' : Store} {r : Except Exc Unit} {h : History}
      (o : Op) : BarsRun cfg bcfg isSession clock eve s → clock ≤ clock' →
      (∀ t, o.time? = some t → t = clock') → Runs AnyAnswer (o.prog cfg) [] s r h s' →
      BarsRun cfg bcfg isSession clock' eve s'
  | pitch {clock clock' : Instant} {eve : Date} {s s' : Store} {r : Except Exc Unit} {h : History}
      (o : PitchOp) : BarsRun cfg bcfg isSession clock eve s → clock ≤ clock' → o.At clock' →
      Runs AnyAnswer (o.prog cfg) [] s r h s' → BarsRun cfg bcfg isSession clock' eve s'
  | elsewhere {clock : Instant} {eve : Date} {s : Store} (universeRows : List UniverseRow)
      (accountSnapshots : List AccountSnapshot) : BarsRun cfg bcfg isSession clock eve s →
      BarsRun cfg bcfg isSession clock eve { s with universeRows, accountSnapshots }
  | evening {clock clock' : Instant} {eve : Date} {s s' : Store} {feed : Feed}
      {r : Except Exc (BarsReport × Option ScoreReport)} {h : History} :
      BarsRun cfg bcfg isSession clock eve s → clock ≤ clock' →
      NoneMissed isSession eve (cfg.et.date clock') →
      BrokerUp cfg bcfg isSession feed (cfg.et.date clock') s →
      Runs AnyAnswer (jobBarsRefresh cfg bcfg feed (cfg.et.date clock')) [] s r h s' →
      BarsRun cfg bcfg isSession clock' (cfg.et.date clock') s'

/-- No pitch that was not withdrawn and no call whose horizon has elapsed is
left unresolved. -/
structure AllScored (isSession : Date → Bool) (today : Date) (s : Store) : Prop where
  pitches : ∀ p ∈ s.pitches, p.id ∉ s.pitchWithdrawals →
    Elapsed isSession today p.session p.horizonDays → s.resolved .pitch p.id = true
  calls : ∀ c ∈ s.calls, Elapsed isSession today c.session c.horizonDays →
    s.resolved .call c.id = true

/-! ## Open items -/

section

variable {s s' : Store} {item : Item}

theorem mem_openItems : item ∈ openItems s ↔
    (∃ p ∈ s.pitches, p.id ∉ s.pitchWithdrawals ∧ s.resolved .pitch p.id = false ∧
      item = pitchItem p) ∨
    ∃ c ∈ s.calls, s.resolved .call c.id = false ∧ item = callItem c := by
  unfold openItems
  simp only [List.mem_append, List.mem_map, List.mem_filter, Bool.and_eq_true, Bool.not_eq_true',
    List.contains_eq_mem, decide_eq_false_iff_not]
  refine or_congr (exists_congr fun p => ?_) (exists_congr fun c => ?_)
  · constructor
    · rintro ⟨⟨hp, hw, hr⟩, rfl⟩
      exact ⟨hp, hw, hr, rfl⟩
    · rintro ⟨hp, hw, hr, rfl⟩
      exact ⟨⟨hp, hw, hr⟩, rfl⟩
  · constructor
    · rintro ⟨⟨hc, hr⟩, rfl⟩
      exact ⟨hc, hr, rfl⟩
    · rintro ⟨hc, hr, rfl⟩
      exact ⟨⟨hc, hr⟩, rfl⟩

/-- An open item is one that is not resolved. -/
theorem unresolved_of_open (h : item ∈ openItems s) : s.resolved item.kind item.itemId = false := by
  rcases mem_openItems.mp h with ⟨p, -, -, hr, rfl⟩ | ⟨c, -, hr, rfl⟩
  · exact hr
  · exact hr

/-- With the same tables and no less withdrawn and resolved, no item is new. -/
theorem openItems_subset (hpitches : s'.pitches = s.pitches) (hcalls : s'.calls = s.calls)
    (hwithdrawn : s.pitchWithdrawals ⊆ s'.pitchWithdrawals)
    (hresolved : ∀ k i, s.resolved k i = true → s'.resolved k i = true)
    (h : item ∈ openItems s') : item ∈ openItems s := by
  have hopen : ∀ k i, s'.resolved k i = false → s.resolved k i = false := fun k i h' => by
    by_contra hr
    rw [hresolved k i (by simpa using hr)] at h'
    cases h'
  rcases mem_openItems.mp h with ⟨p, hp, hw, hr, rfl⟩ | ⟨c, hc, hr, rfl⟩
  · exact mem_openItems.mpr (.inl ⟨p, hpitches ▸ hp, fun hmem => hw (hwithdrawn hmem),
      hopen _ _ hr, rfl⟩)
  · exact mem_openItems.mpr (.inr ⟨c, hcalls ▸ hc, hopen _ _ hr, rfl⟩)

/-- Nothing elapsed is open. -/
theorem allScored_of_open {isSession : Date → Bool} {today : Date}
    (h : ∀ item ∈ openItems s, ¬ Elapsed isSession today item.session item.horizonDays) :
    AllScored isSession today s where
  pitches p hp hw he := by
    by_contra hr
    exact h _ (mem_openItems.mpr (.inl ⟨p, hp, hw, by simpa using hr, rfl⟩)) he
  calls c hc he := by
    by_contra hr
    exact h _ (mem_openItems.mpr (.inr ⟨c, hc, by simpa using hr, rfl⟩)) he

end

/-! ## Between two evenings -/

/-- The desk at work on a day: the bars are as they were, and an open item
was open before or has no session before today. A call's reference price is
positive. -/
structure Worked (today : Date) (s s' : Store) : Prop where
  bars : s'.bars = s.bars
  items : ∀ item ∈ openItems s', item ∈ openItems s ∨
    today ≤ item.session ∧ ∀ refs, item.refs = some refs → 0 < refs.1

section

variable {cfg : Settings} {s s' a b : Store} {today : Date} {h : History}

theorem Worked.refl : Worked today s s := ⟨rfl, fun _ h => .inl h⟩

theorem Worked.trans (h₁ : Worked today s a) (h₂ : Worked today a b) : Worked today s b := by
  refine ⟨h₂.bars.trans h₁.bars, fun item hitem => ?_⟩
  rcases h₂.items item hitem with hold | hnew
  · exact h₁.items item hold
  · exact .inr hnew

/-- A statement that makes no item. -/
theorem Worked.of_subset (hbars : b.bars = a.bars)
    (hitems : ∀ item ∈ openItems b, item ∈ openItems a) : Worked today a b :=
  ⟨hbars, fun item hitem => .inl (hitems item hitem)⟩

theorem Worked.resolved (r : Resolution) : Worked today a (a.withResolution r) := by
  refine .of_subset rfl fun item => openItems_subset rfl rfl (List.Subset.refl _) fun k i h => ?_
  unfold Store.resolved Store.withResolution
  rw [List.any_append, Bool.or_eq_true]
  exact .inl h

theorem Worked.addCall {c : NewCall} (hsession : today ≤ c.session) (hpos : 0 < c.refPrice) :
    Worked today a (a.addCall c) := by
  refine ⟨rfl, fun item hitem => ?_⟩
  rcases mem_openItems.mp hitem with hp | ⟨row, hrow, hr, rfl⟩
  · exact .inl (mem_openItems.mpr (.inl hp))
  · rcases List.mem_append.mp hrow with hold | hnew
    · exact .inl (mem_openItems.mpr (.inr ⟨row, hold, hr, rfl⟩))
    · obtain rfl := List.mem_singleton.mp hnew
      refine .inr ⟨hsession, fun refs hrefs => ?_⟩
      cases hrefs
      exact hpos

theorem Worked.addPitch {p : NewPitch} (hsession : today ≤ p.session) :
    Worked today a (a.addPitch p) := by
  refine ⟨rfl, fun item hitem => ?_⟩
  rcases mem_openItems.mp hitem with ⟨row, hrow, hw, hr, rfl⟩ | hc
  · rcases List.mem_append.mp hrow with hold | hnew
    · exact .inl (mem_openItems.mpr (.inl ⟨row, hold, hw, hr, rfl⟩))
    · obtain rfl := List.mem_singleton.mp hnew
      refine .inr ⟨hsession, fun refs hrefs => ?_⟩
      cases hrefs
  · exact .inl (mem_openItems.mpr (.inr hc))

/-- The price a call was made at is above zero, its levels being on both
sides of it. -/
theorem LevelsOk.last_pos {direction : Direction} {last target inval : ℚ}
    (h : LevelsOk direction last target inval) (ht : 0 < target) (hi : 0 < inval) : 0 < last := by
  cases direction with
  | up => exact lt_trans hi h.2
  | down => exact lt_trans ht h.1

/-- **Each statement of the desk.** -/
theorem DeskWrite.worked {op : Op} (hw : DeskWrite cfg op h a b)
    (htoday : ∀ t, op.time? = some t → cfg.et.date t = today) : Worked today a b := by
  cases hw with
  | call c hc =>
    exact .addCall (by rw [hc.session, htoday _ rfl]) (hc.levels.last_pos hc.target hc.invalidation)
  | extension old t i last spy bench _ _ _ _ _ _ _ ht hi hlevels =>
    exact .addCall (le_of_eq (htoday _ rfl).symm) (hlevels.last_pos ht hi)
  | resolve r _ _ => exact .resolved r
  | proposal c plan _ _ _ => exact .of_subset rfl fun _ h => h
  | tighten call new last _ _ _ _ _ _ _ => exact .of_subset rfl fun _ h => h
  | exitRequest sym pid => exact .of_subset rfl fun _ h => h
  | posted p veto mid _ _ _ _ => exact .of_subset rfl fun _ h => h
  | dropped p o _ _ _ _ _ _ => exact .of_subset rfl fun _ h => h
  | buy p ask stop _ _ _ => exact .of_subset rfl fun _ h => h
  | filled p e o _ _ _ _ => exact .of_subset rfl fun _ h => h
  | mark x price _ _ => exact .of_subset rfl fun _ h => h
  | sell p e price reason _ _ _ => exact .of_subset rfl fun _ h => h
  | exitDone rid => exact .of_subset rfl fun _ h => h

/-- A pitch's session is not before the day it is filed on. -/
theorem date_le_referenceSession (et : Zone) (cal : Calendar) (i : Instant) :
    et.date i ≤ referenceSession et cal i := by
  unfold referenceSession Calendar.next
  dsimp only
  split
  · exact le_refl _
  · exact le_add_of_le_of_nonneg (le_of_lt (lt_add_one _)) (Int.natCast_nonneg _)

theorem PitchWrite.sound {o : PitchOp} (hw : PitchWrite cfg o a b) (ha : Sound a) : Sound b := by
  cases hw with
  | file row _ _ _ _ _ => exact ha.of_same rfl rfl rfl rfl
  | withdraw p _ _ _ => exact ha.of_same rfl rfl rfl rfl
  | resolve r _ =>
    unfold Store.addResolution
    split
    · exact ha
    · exact ha.of_same rfl rfl rfl rfl

/-- **Each statement of an analyst's.** -/
theorem PitchWrite.worked {o : PitchOp} {clock : Instant} (hw : PitchWrite cfg o a b)
    (hat : o.At clock) : Worked (cfg.et.date clock) a b := by
  cases hw with
  | file row _ _ _ _ hsession =>
    obtain rfl : row.filedAt = clock := hat
    exact .addPitch (hsession ▸ date_le_referenceSession _ _ _)
  | withdraw p _ _ _ =>
    exact .of_subset rfl fun item =>
      openItems_subset rfl rfl (List.subset_append_left _ _) fun _ _ h => h
  | resolve r _ =>
    unfold Store.addResolution
    split
    · exact .refl
    · exact .resolved r

end

/-! ## What the evenings keep -/

/-- The table is in order, every price positive, and SPY's bars of sessions. -/
structure BarsOk (isSession : Date → Bool) (s : Store) : Prop where
  ordered : RowsOrdered s.bars
  positive : ∀ row ∈ s.bars, PricesPositive row.2
  market : ∀ row ∈ s.bars, row.1 = "SPY" → isSession row.2.date = true

/-- Every session of the item before a date has the bars it is scored on. -/
def Covered (isSession : Date → Bool) (upto : Date) (s : Store) (item : Item) : Prop :=
  ∀ d, isSession d = true → item.session ≤ d → d < upto →
    ∀ sym ∈ ["SPY", item.symbol, item.benchmark], Stored s.bars sym d

structure BarsInv (cfg : Settings) (isSession : Date → Bool) (clock : Instant) (eve : Date)
    (s : Store) : Prop where
  sound : Sound s
  eve_le : eve ≤ cfg.et.date clock
  bars : BarsOk isSession s
  kept : ∀ item ∈ openItems s, Covered isSession eve s item
  refs : ∀ item ∈ openItems s, ∀ refs, item.refs = some refs → 0 < refs.1

/-- The last ten sessions are there. -/
def Recent (isSession : Date → Bool) (today : Date) (s : Store) (sym : String) : Prop :=
  ∀ d, d ≤ today → isSession d = true → sessionsBetween isSession d today < topUpDays →
    Stored s.bars sym d

/-- The bars change, and no date is lost. -/
structure Refreshed (s s' : Store) : Prop where
  frame : ∃ bars, s' = { s with bars }
  stored : ∀ sym d, Stored s.bars sym d → Stored s'.bars sym d

section

variable {cfg : Settings} {bcfg : BarsConfig} {isSession : Date → Bool} {clock clock' : Instant}
  {eve today : Date} {s s' : Store} {feed : Feed} {h : History}

theorem BarsOk.of_bars (hb : BarsOk isSession s) (h : s'.bars = s.bars) : BarsOk isSession s' :=
  ⟨h ▸ hb.ordered, h ▸ hb.positive, h ▸ hb.market⟩

/-- A symbol's bars are in order and positive. -/
theorem BarsOk.series (hb : BarsOk isSession s) (symbol : String) (since : Date) :
    Series (s.barsFor symbol (some since) none) where
  ordered := (hb.ordered.dated symbol (some since)).ordered
  positive _ hmem := hb.positive _ (Store.mem_barsFor.mp hmem).1

/-- A good answer leaves the table as it should be, and the symbol recent. -/
theorem BarsOk.upsert (hb : BarsOk isSession s) {sym : String} {n : ℕ} {bars : List DailyBar}
    (hbars : Bars isSession today sym n bars) : BarsOk isSession (s.upsertBars sym bars) where
  ordered := Store.upsertBars_ordered hb.ordered
  positive row hrow := by
    rcases Store.mem_upsertBars hrow with ⟨b, hmem, rfl⟩ | hold
    · exact hbars.positive b hmem
    · exact hb.positive row hold
  market row hrow hspy := by
    rcases Store.mem_upsertBars hrow with ⟨b, hmem, rfl⟩ | hold
    · exact hbars.market hspy b hmem
    · exact hb.market row hold hspy

theorem Refreshed.upsert (hs : Refreshed s s') (sym : String) (bars : List DailyBar) :
    Refreshed s (s'.upsertBars sym bars) := by
  obtain ⟨⟨rows, rfl⟩, hstored⟩ := hs
  exact ⟨⟨_, rfl⟩, fun x d hd => Store.stored_upsertBars.mpr (.inl (hstored x d hd))⟩

theorem Refreshed.openItems (hs : Refreshed s s') : openItems s' = openItems s := by
  obtain ⟨⟨rows, rfl⟩, -⟩ := hs
  rfl

/-- A full history is at least a top-up. -/
theorem topUpDays_le_fetchDays (have_ : ℕ) (newest : Option Date) :
    topUpDays ≤ fetchDays bcfg today have_ newest := by
  have hge := bcfg.history_ge
  have hfull : topUpDays ≤ bcfg.barsHistoryDays := by
    unfold topUpDays
    omega
  have hboth : ∀ (P : Prop) [Decidable P],
      topUpDays ≤ if P then bcfg.barsHistoryDays else topUpDays := by
    intro P _
    split
    · exact hfull
    · exact le_refl _
  unfold fetchDays
  exact hboth _

/-- **The evening's fetch**, every answer good: all symbols are recent. -/
theorem always_fetch_up {days : String → ℕ} (hdays : ∀ sym, topUpDays ≤ days sym)
    {syms : List String} (hup : ∀ sym ∈ syms, ∀ n, ∃ bars, feed sym n = .ok bars ∧
      Bars isSession today sym n bars) (hb : BarsOk isSession s) (rep : BarsReport)
    (hblind : rep.blind = false) :
    Always AnyAnswer (fun _ _ _ => True) (fun r _ s' => (∃ rep, r = .ok rep ∧ rep.blind = false) ∧
        BarsOk isSession s' ∧ Refreshed s s' ∧ ∀ sym ∈ syms, Recent isSession today s' sym)
      (fetchBars feed days syms rep) h s := by
  refine always_fetchBars (I := fun rest rep s' => rest ⊆ syms ∧ rep.blind = false ∧
      BarsOk isSession s' ∧ Refreshed s s' ∧
      ∀ sym ∈ syms, sym ∈ rest ∨ Recent isSession today s' sym)
    (R := fun r s' => (∃ rep, r = .ok rep ∧ rep.blind = false) ∧ BarsOk isSession s' ∧
      Refreshed s s' ∧ ∀ sym ∈ syms, Recent isSession today s' sym)
    ?_ ?_ syms rep
    ⟨List.Subset.refl _, hblind, hb, ⟨⟨_, rfl⟩, fun _ _ h => h⟩, fun _ h => .inl h⟩
  · rintro sym rest rep s₁ ⟨hsub, hblind, hb, hs, hrecent⟩
    obtain ⟨bars, hfeed, hbars⟩ := hup sym (hsub List.mem_cons_self) (days sym)
    rw [hfeed]
    refine ⟨fun _ => trivial, fun x hx => hsub (List.mem_cons_of_mem _ hx), hblind, hb.upsert hbars,
      hs.upsert sym bars, fun x hx => ?_⟩
    have hkeep : Recent isSession today s₁ x → Recent isSession today (s₁.upsertBars sym bars) x :=
      fun h d hd hsd hn => Store.stored_upsertBars.mpr (.inl (h d hd hsd hn))
    rcases hrecent x hx with hrest | hdone
    · rcases List.mem_cons.mp hrest with rfl | hrest
      · refine .inr fun d hd hsd hn => Store.stored_upsertBars.mpr (.inr ⟨rfl, ?_⟩)
        exact hbars.whole d hd hsd (lt_of_lt_of_le hn (hdays x))
      · exact .inl hrest
    · exact .inr (hkeep hdone)
  · rintro rep s₁ ⟨-, hblind, hb, hs, hrecent⟩
    refine ⟨⟨rep, rfl, hblind⟩, hb, hs, fun sym hsym => ?_⟩
    rcases hrecent sym hsym with hnil | h
    · cases hnil
    · exact h

/-! ## What the evening asks for -/

theorem mem_sortedSet {x : String} {l : List String} : x ∈ sortedSet l ↔ x ∈ l := by
  unfold sortedSet
  rw [List.mem_insertionSort, List.mem_dedup]

/-- An open item's symbol, its benchmark and SPY are asked for. -/
theorem requested_of_open {item : Item} (hitem : item ∈ openItems s) {symbols : List String}
    (heval : (do barsSymbols cfg bcfg (← carriedSymbols) : Look _).eval s = .ok symbols) :
    ∀ sym ∈ ["SPY", item.symbol, item.benchmark], sym ∈ symbols := by
  obtain ⟨extra, hextra, heval⟩ := Reads.eval_bind_ok heval
  obtain rfl : s.carriedSymbols = extra := Except.ok.inj hextra
  obtain ⟨top, -, heval⟩ := Reads.eval_bind_ok heval
  obtain rfl := Except.ok.inj heval
  have hcarried : item.symbol ∈ s.carriedSymbols ∧ item.benchmark ∈ s.carriedSymbols := by
    unfold Store.carriedSymbols
    rcases mem_openItems.mp hitem with ⟨p, hp, -, hr, rfl⟩ | ⟨c, hc, hr, rfl⟩
    · have hmem : p ∈ s.pitches.filter fun p => !s.resolved .pitch p.id :=
        List.mem_filter.mpr ⟨hp, by rw [hr]; rfl⟩
      have hsym := List.mem_map_of_mem (f := fun p : Pitch => p.symbol) hmem
      have hbench := List.mem_map_of_mem (f := fun p : Pitch => p.benchmark) hp
      simp only [List.mem_append]
      exact ⟨.inl (.inl (.inl (.inl hsym))), .inl (.inl (.inr hbench))⟩
    · have hmem : c ∈ s.calls.filter fun c => !s.resolved .call c.id :=
        List.mem_filter.mpr ⟨hc, by rw [hr]; rfl⟩
      have hsym := List.mem_map_of_mem (f := fun c : Call => c.symbol) hmem
      have hbench := List.mem_map_of_mem (f := fun c : Call => c.benchmark) hc
      simp only [List.mem_append]
      exact ⟨.inl (.inl (.inl (.inr hsym))), .inl (.inr hbench)⟩
  intro sym hsym
  rw [mem_sortedSet]
  simp only [List.mem_cons, List.not_mem_nil, or_false] at hsym
  rcases hsym with rfl | rfl | rfl
  · simp
  · exact List.mem_append_right _ hcarried.1
  · exact List.mem_append_right _ hcarried.2

/-- **The evening closes the gap**: what was stored before the last evening
stays, and its day and today are recent. -/
theorem Covered.evening {item : Item} (hk : Covered isSession eve s item) (hs : Refreshed s s')
    (hnone : NoneMissed isSession eve today)
    (hrecent : ∀ sym ∈ ["SPY", item.symbol, item.benchmark], Recent isSession today s' sym) :
    Covered isSession (today + 1) s' item := by
  intro d hsd hle hlt sym hsym
  rcases lt_or_ge d eve with hbefore | hafter
  · exact hs.stored sym d (hk d hsd hle hbefore sym hsym)
  · have hd : d ≤ today := Int.lt_add_one_iff.mp hlt
    refine hrecent sym hsym d hd hsd (lt_of_le_of_lt (sessionsBetween_le_one fun x hx hxt => ?_) ?_)
    · exact hnone x (lt_of_le_of_lt hafter hx) hxt
    · decide

end

/-! ## The score pass -/

/-- The pass adds resolutions and does nothing else. -/
def Rescored (s s' : Store) : Prop := ∃ rs, s' = { s with resolutions := s.resolutions ++ rs }

section

variable {cfg : Settings} {bcfg : BarsConfig} {isSession : Date → Bool} {clock clock' : Instant}
  {eve today : Date} {s s' : Store} {feed : Feed} {h : History} {item : Item}

theorem Rescored.resolved (hs : Rescored s s') {k : ItemKind} {i : ℕ}
    (h : s.resolved k i = true) : s'.resolved k i = true := by
  obtain ⟨rs, rfl⟩ := hs
  unfold Store.resolved
  rw [List.any_append, Bool.or_eq_true]
  exact .inl h

theorem Rescored.openItems (hs : Rescored s s') (hitem : item ∈ openItems s') :
    item ∈ openItems s := by
  have hmono : ∀ k i, s.resolved k i = true → s'.resolved k i = true := fun _ _ h => hs.resolved h
  refine openItems_subset ?_ ?_ ?_ hmono hitem
  all_goals obtain ⟨rs, rfl⟩ := hs
  · rfl
  · rfl
  · exact List.Subset.refl _

theorem Rescored.add (hs : Rescored s s') (r : Resolution) : Rescored s (s'.addResolution r) := by
  unfold Store.addResolution
  split
  · exact hs
  · obtain ⟨rs, rfl⟩ := hs
    exact ⟨rs ++ [r], by unfold Store.withResolution; rw [List.append_assoc]⟩

/-- Once it is added an item is resolved. -/
theorem resolved_added (s : Store) (r : Resolution) :
    (s.addResolution r).resolved r.kind r.itemId = true := by
  unfold Store.addResolution
  split
  next h => exact h
  · unfold Store.resolved Store.withResolution
    simp

private theorem session_between {a today : ℤ} {n : ℕ} (h : n < (today - (a - 1)).toNat) :
    a ≤ a - 1 + 1 + n ∧ a - 1 + 1 + n ≤ today := by omega

/-- The sessions of an item up to today are dates of SPY's series. -/
theorem elapsed_sessions {spy : List DailyBar}
    (hwhole : ∀ d, isSession d = true → item.session ≤ d → d ≤ today → HasBar spy d) :
    ∃ days : List Date, days.length = sessionsBetween isSession (item.session - 1) today ∧
      days.Nodup ∧ ∀ d ∈ days, d ∈ sessionsOf item spy ∧ d ≤ today := by
  refine ⟨((List.range (today - (item.session - 1)).toNat).filter fun n : ℕ =>
    isSession (item.session - 1 + 1 + (n : ℤ))).map fun n : ℕ => item.session - 1 + 1 + (n : ℤ),
    ?_, ?_, ?_⟩
  · unfold sessionsBetween
    rw [List.length_map, List.countP_eq_length_filter]
  · refine (List.nodup_range.filter _).map fun m n hmn => ?_
    have hcast : (m : ℤ) = n := add_left_cancel hmn
    exact_mod_cast hcast
  · intro d hd
    obtain ⟨n, hn, rfl⟩ := List.mem_map.mp hd
    obtain ⟨hlt, hsd⟩ := List.mem_filter.mp hn
    obtain ⟨hlo, hhi⟩ := session_between (List.mem_range.mp hlt)
    obtain ⟨b, hb, hdate⟩ := hwhole _ hsd hlo hhi
    refine ⟨List.mem_filter.mpr ⟨?_, decide_eq_true hlo⟩, hhi⟩
    exact List.mem_map.mpr ⟨b, hb, hdate⟩

/-- The window of an elapsed item is over: before its last session there
are as many sessions as the horizon has, or one of them would be later. -/
theorem window_le {spy : List DailyBar} (hspy : Dated spy)
    (helapsed : Elapsed isSession today item.session item.horizonDays)
    (hwhole : ∀ d, isSession d = true → item.session ≤ d → d ≤ today → HasBar spy d) :
    item.horizonDays ≤ (sessionsOf item spy).length ∧ ∀ d ∈ window item spy, d ≤ today := by
  obtain ⟨hh, hcount⟩ := helapsed
  obtain ⟨days, hlen, hnodup, hdays⟩ := elapsed_sessions hwhole
  rw [← hlen] at hcount
  have hsub : days ⊆ sessionsOf item spy := fun d hd => (hdays d hd).1
  have hall := (List.subperm_of_subset hnodup hsub).length_le
  refine ⟨by omega, fun d hd => ?_⟩
  by_contra hlater
  rw [window_take (by omega)] at hd
  obtain ⟨j, hj, rfl⟩ := List.mem_iff_getElem.mp hd
  rw [List.length_take] at hj
  rw [List.getElem_take] at hlater
  have hordered : (sessionsOf item spy).Pairwise (· < ·) := hspy.ordered.filter _
  -- the sessions up to today all come before the later one
  have hbefore : days ⊆ (sessionsOf item spy).take j := by
    intro x hx
    obtain ⟨hmem, hle⟩ := hdays x hx
    obtain ⟨i, hi, rfl⟩ := List.mem_iff_getElem.mp hmem
    have hij : i < j := by
      by_contra hge
      rcases Nat.lt_or_eq_of_le (Nat.not_lt.mp hge) with hlt | rfl
      · have hlt' := List.pairwise_iff_getElem.mp hordered j i (by omega) hi hlt
        exact hlater (le_of_lt (lt_of_lt_of_le hlt' hle))
      · exact hlater hle
    exact List.mem_iff_getElem.mpr ⟨i, by rw [List.length_take]; omega, List.getElem_take⟩
  have hfew := (List.subperm_of_subset hnodup hbefore).length_le
  rw [List.length_take] at hfew
  omega

/-- **An elapsed item with its bars has an answer.** -/
theorem not_undecided_elapsed {bars spy bench : List DailyBar} (hspy : Dated spy)
    (helapsed : Elapsed isSession today item.session item.horizonDays)
    (hmarket : ∀ b ∈ spy, isSession b.date = true)
    (hwhole : ∀ d, isSession d = true → item.session ≤ d → d ≤ today →
      HasBar spy d ∧ HasBar bars d ∧ HasBar bench d) : ¬ Undecided item bars spy bench := by
  obtain ⟨hlen, hle⟩ := window_le hspy helapsed fun d hsd hlo hhi => (hwhole d hsd hlo hhi).1
  have hwindow : ∀ d ∈ window item spy, HasBar bars d ∧ HasBar bench d := by
    intro d hd
    obtain ⟨hmem, hlo⟩ := List.mem_filter.mp (mem_window hd)
    obtain ⟨b, hb, rfl⟩ := List.mem_map.mp hmem
    exact (hwhole _ (hmarket b hb) (of_decide_eq_true hlo) (hle _ hd)).2
  exact not_undecided helapsed.1 hlen (fun d hd => (hwindow d hd).1) fun d hd => (hwindow d hd).2

/-- What the pass computes for an open item, the evening's bars being there:
an answer, and a resolution if the horizon has elapsed. -/
theorem scoredOn_kept (hb : BarsOk isSession s) (hk : Covered isSession (today + 1) s item)
    (hz : ¬ item.ZeroRef) {earliest : Date} (hearliest : earliest ≤ item.session) :
    ∃ res, scoredOn s earliest item = .ok res ∧
      (Elapsed isSession today item.session item.horizonDays → res ≠ none) := by
  have hbars := hb.series item.symbol earliest
  have hspy := hb.series "SPY" earliest
  have hbench := hb.series item.benchmark earliest
  unfold scoredOn
  rcases resolve_cases item hbars.toDated hspy.toDated hbench.toDated with
    ⟨hnone, hu, -⟩ | ⟨start, r, hstart, -, -, -, hok⟩
  · refine ⟨none, hnone, fun helapsed => absurd hu ?_⟩
    refine not_undecided_elapsed hspy.toDated helapsed (fun b hmem => ?_) fun d hsd hlo hhi => ?_
    · exact hb.market _ (Store.mem_barsFor.mp hmem).1 rfl
    · have hstored := hk d hsd hlo (Int.lt_add_one_iff.mpr hhi)
      have hbar : ∀ sym ∈ ["SPY", item.symbol, item.benchmark],
          HasBar (s.barsFor sym (some earliest) none) d := fun sym hsym =>
        (Store.hasBar_barsFor (le_trans hearliest hlo)).mpr (hstored sym hsym)
      exact ⟨hbar _ (by simp), hbar _ (by simp), hbar _ (by simp)⟩
  · refine ⟨some r, hok fun h => hz ((hstart.zero_iff hbars hspy hbench).mp h), fun _ h => ?_⟩
    cases h

/-- In the middle of the pass: the items behind are open, and those before
are resolved if they have elapsed. -/
structure ScorePass (isSession : Date → Bool) (today earliest : Date) (s : Store) (items : List Item)
    (s' : Store) : Prop where
  rescored : Rescored s s'
  todo : ∀ item ∈ items, item ∈ openItems s ∧ earliest ≤ item.session
  done : (∀ item ∈ openItems s, ¬ item.ZeroRef) → ∀ item ∈ openItems s, item ∈ items ∨
    (Elapsed isSession today item.session item.horizonDays →
      s'.resolved item.kind item.itemId = true)

/-- One item further, in a store that has no resolution less. -/
theorem ScorePass.next {earliest : Date} {items : List Item} {t : Store}
    (hp : ScorePass isSession today earliest s (item :: items) s') (ht : Rescored s t)
    (hmono : ∀ k i, s'.resolved k i = true → t.resolved k i = true)
    (hthis : (∀ item ∈ openItems s, ¬ item.ZeroRef) →
      Elapsed isSession today item.session item.horizonDays →
        t.resolved item.kind item.itemId = true) :
    ScorePass isSession today earliest s items t := by
  refine ⟨ht, fun it hit => hp.todo it (List.mem_cons_of_mem _ hit), fun hz it hit => ?_⟩
  rcases hp.done hz it hit with hmem | hdone
  · rcases List.mem_cons.mp hmem with rfl | hmem
    · exact .inr (hthis hz)
    · exact .inl hmem
  · exact .inr fun he => hmono _ _ (hdone he)

/-- How the pass ends. -/
def ScorePassEnd (isSession : Date → Bool) (today : Date) (s : Store) (r : Except Exc ScoreReport)
    (s' : Store) : Prop :=
  Rescored s s' ∧ ((∀ item ∈ openItems s, ¬ item.ZeroRef) → (∃ rep, r = .ok rep) ∧
    ∀ item ∈ openItems s, Elapsed isSession today item.session item.horizonDays →
      s'.resolved item.kind item.itemId = true)

theorem ScorePass.turn (hb : BarsOk isSession s)
    (hk : ∀ item ∈ openItems s, Covered isSession (today + 1) s item) {earliest : Date}
    {items : List Item} (hp : ScorePass isSession today earliest s (item :: items) s') :
    ScoreTurn (fun _ _ _ => True) (fun items _ s' => ScorePass isSession today earliest s items s')
      (fun e _ s' => ScorePassEnd isSession today s (.error e) s') items h s'
      (scoredOn s earliest item) := by
  obtain ⟨hopen, hearliest⟩ := hp.todo item List.mem_cons_self
  have hscored : (∀ item ∈ openItems s, ¬ item.ZeroRef) → ∃ res, scoredOn s earliest item =
      .ok res ∧ (Elapsed isSession today item.session item.horizonDays → res ≠ none) :=
    fun hz => scoredOn_kept hb (hk item hopen) (hz item hopen) hearliest
  cases hres : scoredOn s earliest item with
  | error e =>
    refine ⟨hp.rescored, fun hz => ?_⟩
    obtain ⟨res, hok, -⟩ := hscored hz
    cases hres.symm.trans hok
  | ok res =>
    cases res with
    | none =>
      refine hp.next hp.rescored (fun _ _ h => h) fun hz he => ?_
      obtain ⟨res, hok, hne⟩ := hscored hz
      exact absurd (Except.ok.inj (hok.symm.trans hres)) (hne he)
    | some r =>
      obtain ⟨hkind, hid⟩ := resolve_item hres
      unfold ScoreTurn
      dsimp only
      split
      · refine ⟨trivial, hp.next (hp.rescored.add r) (fun _ _ => resolved_mono) fun _ _ => ?_⟩
        rw [← hkind, ← hid]
        exact resolved_added _ r
      next hsome =>
        refine hp.next hp.rescored (fun _ _ h => h) fun _ _ => ?_
        obtain ⟨old, hold⟩ := Option.ne_none_iff_exists'.mp hsome
        rw [← hkind, ← hid]
        exact resolution?_some hold

/-- **The score pass**: it only adds resolutions, and where no reference is
zero it comes to an end with every elapsed item resolved. -/
theorem always_score_elapsed (hb : BarsOk isSession s)
    (hk : ∀ item ∈ openItems s, Covered isSession (today + 1) s item) :
    Always AnyAnswer (fun _ _ _ => True) (fun r _ s' => ScorePassEnd isSession today s r s') score h s := by
  have hsame : Rescored s s := ⟨[], by rw [List.append_nil]⟩
  refine always_score (I := fun earliest items _ s' => ScorePass isSession today earliest s items s')
    (fun hempty => ⟨hsame, fun _ => ⟨⟨_, rfl⟩, fun item hitem => ?_⟩⟩)
    (fun earliest items hload hle => ?_) (fun _ _ _ _ _ _ hp => hp.turn hb hk)
    fun _ rep _ _ hp => ⟨hp.rescored, fun hz => ⟨⟨rep, rfl⟩, fun item hitem he => ?_⟩⟩
  · rw [loadOpenItems_eval] at hempty
    rw [Except.ok.inj hempty] at hitem
    cases hitem
  · rw [loadOpenItems_eval] at hload
    obtain rfl := Except.ok.inj hload
    exact ⟨hsame, fun item hitem => ⟨hitem, hle item hitem⟩, fun _ item hitem => .inl hitem⟩
  · rcases hp.done hz item hitem with hnil | hdone
    · cases hnil
    · exact hdone he

/-! ## The evening -/

theorem barsSymbols_eval (extra : List String) (s : Store) :
    ∃ symbols, (barsSymbols cfg bcfg extra).eval s = .ok symbols := by
  unfold barsSymbols liquidHead
  simp only [Reads.eval_bind, Reads.eval_get]
  cases hasof : s.universeAsof with
  | none => exact ⟨_, rfl⟩
  | some asof => exact ⟨_, rfl⟩

/-- What an evening leaves: the bars of every open item's sessions, and then
the scores. -/
structure EveningEnd (isSession : Date → Bool) (today : Date) (s s' : Store) : Prop where
  through : ∃ t scored, BarsOk isSession t ∧ Refreshed s t ∧
    (∀ item ∈ openItems t, Covered isSession (today + 1) t item) ∧
      ScorePassEnd isSession today t scored s'

/-- **The evening's job**: the fetch, then the scores on what it brought. -/
theorem jobBarsRefresh_spec (hi : BarsInv cfg isSession clock eve s)
    (hnone : NoneMissed isSession eve today) (hup : BrokerUp cfg bcfg isSession feed today s) :
    Always AnyAnswer (fun _ _ _ => True) (fun _ _ s' => EveningEnd isSession today s s')
      (jobBarsRefresh cfg bcfg feed today) h s := by
  unfold jobBarsRefresh
  refine always_scan_bind (fun extra hextra => ?_) fun e he => by cases he
  refine always_scan_bind (fun symbols hsymbols => ?_) fun e he => ?_
  · have heval : (do barsSymbols cfg bcfg (← carriedSymbols) : Look _).eval s = .ok symbols := by
      rw [Reads.eval_bind, hextra]
      exact hsymbols
    unfold refreshBars
    refine Always.bind (R := fun r _ t => (∃ rep, r = .ok rep ∧ rep.blind = false) ∧
      BarsOk isSession t ∧ Refreshed s t ∧ ∀ sym ∈ symbols, Recent isSession today t sym) ?_ ?_ ?_
    · refine always_scan_bind (fun counts _ => ?_) fun e he => by cases he
      refine always_scan_bind (fun latest _ => ?_) fun e he => by cases he
      exact always_fetch_up (fun sym => topUpDays_le_fetchDays _ _)
        (fun sym hsym => hup sym ⟨symbols, heval, hsym⟩) hi.bars _ rfl
    · rintro rep h' t ⟨⟨rep', hrep, hblind⟩, hb, hs, hrecent⟩
      cases hrep
      rw [if_neg (by rw [hblind]; decide)]
      have hcovered : ∀ item ∈ openItems t, Covered isSession (today + 1) t item := by
        intro item hitem
        rw [hs.openItems] at hitem
        exact (hi.kept item hitem).evening hs hnone fun sym hsym =>
          hrecent sym (requested_of_open hitem heval sym hsym)
      exact (always_score_elapsed hb hcovered).bind
        (fun scored _ s' hend => ⟨t, _, hb, hs, hcovered, hend⟩)
        fun e _ s' hend => ⟨t, _, hb, hs, hcovered, hend⟩
    · rintro e h' t ⟨⟨rep, hrep, -⟩, -⟩
      cases hrep
  · obtain ⟨symbols, hok⟩ := @barsSymbols_eval cfg bcfg extra s
    cases he.symm.trans hok

/-! ## Every run -/

theorem BarsInv.worked (hi : BarsInv cfg isSession clock eve s) (hclock : clock ≤ clock')
    (hw : Worked (cfg.et.date clock') s s') (hsound : Sound s') :
    BarsInv cfg isSession clock' eve s' := by
  have heve : eve ≤ cfg.et.date clock' := le_trans hi.eve_le (cfg.et.date_mono hclock)
  refine ⟨hsound, heve, hi.bars.of_bars hw.bars, fun item hitem => ?_, fun item hitem => ?_⟩
  · intro d hsd hle hlt sym hsym
    rw [hw.bars]
    rcases hw.items item hitem with hold | ⟨hnew, -⟩
    · exact hi.kept item hold d hsd hle hlt sym hsym
    · exact absurd (le_trans heve (le_trans hnew hle)) (not_le.mpr hlt)
  · rcases hw.items item hitem with hold | ⟨-, hpos⟩
    · exact hi.refs item hold
    · exact hpos

theorem BarsInv.evening (hi : BarsInv cfg isSession clock eve s)
    (hend : EveningEnd isSession (cfg.et.date clock') s s') :
    BarsInv cfg isSession clock' (cfg.et.date clock') s' := by
  obtain ⟨t, scored, hb, ht, hcovered, hs, -⟩ := hend.through
  have hsound : Sound s' := by
    obtain ⟨rows, rfl⟩ := ht.frame
    obtain ⟨rs, rfl⟩ := hs
    exact hi.sound.of_same rfl rfl rfl rfl
  have hopen : ∀ item ∈ openItems s', item ∈ openItems t := fun item => hs.openItems
  have hbars : s'.bars = t.bars := by
    obtain ⟨rs, rfl⟩ := hs
    rfl
  refine ⟨hsound, le_refl _, hb.of_bars hbars, fun item hitem => ?_, fun item hitem => ?_⟩
  · intro d hsd hle hlt
    rw [hbars]
    exact hcovered item (hopen item hitem) d hsd hle (lt_trans hlt (lt_add_one _))
  · have hold := hopen item hitem
    rw [ht.openItems] at hold
    exact hi.refs item hold

theorem NoItems.inv (hn : NoItems isSession s) :
    BarsInv cfg isSession clock (cfg.et.date clock) s := by
  have hnone : ∀ item, item ∉ openItems s := by
    intro item hitem
    unfold openItems at hitem
    rw [hn.pitches, hn.fresh.calls] at hitem
    cases hitem
  exact ⟨hn.fresh.sound, le_refl _, ⟨hn.ordered, hn.positive, hn.market⟩,
    fun item hitem => absurd hitem (hnone item), fun item hitem => absurd hitem (hnone item)⟩

/-- **Every run**: before the last evening's day no open item is short of a
bar. -/
theorem BarsRun.inv (hrun : BarsRun cfg bcfg isSession clock eve s) :
    BarsInv cfg isSession clock eve s := by
  induction hrun with
  | start hn => exact hn.inv
  | @desk clock clock' eve s s' r h o _ hclock htime hruns ih =>
    have hwork : Always AnyAnswer (fun _ _ _ => True)
        (fun _ _ t => Worked (cfg.et.date clock') s t ∧ Sound t) (o.prog cfg) [] s :=
      ((o.spec ih.sound).inv (J := Worked (cfg.et.date clock') s)
        (fun _ a b ha hw => ha.trans (hw.worked fun t ht => by rw [htime t ht])) .refl).mono
        (fun _ _ _ _ => trivial) fun _ _ _ hr => hr
    obtain ⟨hw, hs⟩ := hwork.runs hruns
    exact ih.worked hclock hw hs
  | @pitch clock clock' eve s s' r h o _ hclock hat hruns ih =>
    have hwork : Always AnyAnswer (fun _ _ _ => True)
        (fun _ _ t => (Worked (cfg.et.date clock') s t ∧ Sound t) ∧ True) (o.prog cfg) [] s :=
      (o.spec.inv (J := fun t => Worked (cfg.et.date clock') s t ∧ Sound t)
        (fun _ a b ha hw => ⟨ha.1.trans (hw.worked hat), hw.sound ha.2⟩) ⟨.refl, ih.sound⟩).mono
        (fun _ _ _ _ => trivial) fun _ _ _ hr => hr
    obtain ⟨hw, hs⟩ := (hwork.runs hruns).1
    exact ih.worked hclock hw hs
  | elsewhere universeRows accountSnapshots _ ih =>
    exact ih.worked (le_refl _) (.of_subset rfl fun _ h => h) (ih.sound.of_same rfl rfl rfl rfl)
  | evening _ hclock hnone hup hruns ih =>
    exact ih.evening ((jobBarsRefresh_spec ih hnone hup).runs hruns)

/-- **Every elapsed item gets scored**, by every evening of every run that
finds no open call made on a zero quote of SPY or of its benchmark. -/
theorem elapsed_scored {r : Except Exc (BarsReport × Option ScoreReport)} {h h' : History}
    (hrun : BarsRun cfg bcfg isSession clock eve s)
    (hnone : NoneMissed isSession eve (cfg.et.date clock'))
    (hup : BrokerUp cfg bcfg isSession feed (cfg.et.date clock') s)
    (hruns : Runs AnyAnswer (jobBarsRefresh cfg bcfg feed (cfg.et.date clock')) h s r h' s')
    (hrefs : ∀ c ∈ s.calls, s.resolved .call c.id = false → c.spyRef ≠ 0 ∧ c.benchRef ≠ 0) :
    AllScored isSession (cfg.et.date clock') s' := by
  have hi := hrun.inv
  have hspec := jobBarsRefresh_spec hi hnone hup (h := h)
  obtain ⟨t, scored, -, ht, -, hs, hall⟩ := (hspec.runs hruns).through
  have hzero : ∀ item ∈ openItems t, ¬ item.ZeroRef := by
    intro item hitem
    rw [ht.openItems] at hitem
    rintro ⟨ref, spyRef, benchRef, hitemRefs, hz⟩
    have hpos := hi.refs item hitem _ hitemRefs
    rcases mem_openItems.mp hitem with ⟨p, -, -, -, rfl⟩ | ⟨c, hc, hopen, rfl⟩
    · cases hitemRefs
    · cases hitemRefs
      obtain ⟨hspy, hbench⟩ := hrefs c hc hopen
      rcases hz with hz | hz | hz
      · exact absurd hz (ne_of_gt hpos)
      · exact hspy hz
      · exact hbench hz
  refine allScored_of_open fun item hitem helapsed => ?_
  have hresolved := (hall hzero).2 item (hs.openItems hitem) helapsed
  rw [unresolved_of_open hitem] at hresolved
  cases hresolved

end

/-! ## Two evenings -/

/-- The market of a Monday and the Tuesday after it. -/
private def twoSessions (d : Date) : Bool := d == dayNumber 2026 9 28 || d == dayNumber 2026 9 29

private def yearOfBars : BarsConfig := ⟨[], 400, 260, by decide⟩

/-- Quiet days for every symbol, so far. -/
private def quietFeed (today : Date) : Feed := fun _ _ =>
  .ok ([quietBar 9 28, quietBar 9 29].filter fun b => b.date ≤ today)

/-- A call of two sessions, unfunded, on these quotes. -/
private def callMade : Op := .submitCall (fromMonday 9 50) (callUp "47" 2 .none)

/-- As in `quoting`, but SPY's quote has no last price. -/
private def noSpyPrice : (q : Query) → Answer q
  | .quotes _ => .ok [("AAA", ⟨"AAA", 50, 50, 50, fromMonday 9 50⟩),
      ("SPY", ⟨"SPY", 0, 500, 500, fromMonday 9 50⟩)]
  | .optionChain _ _ _ _ => .ok []
  | .reactionUsers _ _ => .reply 200 (.users [])
  | .post _ => true
  | .postMessage _ => some "m1"

private def monday : Date := dayNumber 2026 9 28

private def tuesday : Date := dayNumber 2026 9 29

private def eveningOf (ω : (q : Query) → Answer q) (today : Date) (s : Store) : Store :=
  (runWith ω (jobBarsRefresh deskSettings yearOfBars (quietFeed today) today) [] s).store

/-- The store after the call and Monday's evening. -/
private def mondayEnd (ω : (q : Query) → Answer q) : Store :=
  eveningOf ω monday (runWith ω (callMade.prog deskSettings) [] openingStore).store

private theorem quiet_up {today : Date} (s : Store) :
    BrokerUp deskSettings yearOfBars twoSessions (quietFeed today) today s := by
  intro sym _ n
  refine ⟨_, rfl, fun b hb => ?_, fun d hd hsd _ => ?_, fun _ b hb => ?_⟩
  · have hq : ∀ b ∈ [quietBar 9 28, quietBar 9 29], PricesPositive b := by
      unfold PricesPositive
      decide +kernel
    exact hq b (List.mem_filter.mp hb).1
  · rcases Bool.or_eq_true_iff.mp hsd with hmon | htue
    · obtain rfl : d = dayNumber 2026 9 28 := by simpa using hmon
      exact ⟨quietBar 9 28, List.mem_filter.mpr ⟨by simp, decide_eq_true hd⟩, rfl⟩
    · obtain rfl : d = dayNumber 2026 9 29 := by simpa using htue
      exact ⟨quietBar 9 29, List.mem_filter.mpr ⟨by simp, decide_eq_true hd⟩, rfl⟩
  · have hq : ∀ b ∈ [quietBar 9 28, quietBar 9 29], twoSessions b.date = true := by
      decide +kernel
    exact hq b (List.mem_filter.mp hb).1

private theorem opening_noItems : NoItems twoSessions openingStore := by
  refine ⟨openingStore_fresh, rfl, ?_, ?_, ?_⟩
  · unfold RowsOrdered RowBefore
    decide +kernel
  · unfold PricesPositive
    decide +kernel
  · decide +kernel

/-- The run up to Tuesday's evening. -/
private theorem monday_run (ω : (q : Query) → Answer q) :
    BarsRun deskSettings yearOfBars twoSessions (fromMonday 17 0) monday (mondayEnd ω) := by
  have hany : ∀ q, AnyAnswer q (ω q) := fun _ => trivial
  have hstart : BarsRun deskSettings yearOfBars twoSessions (fromMonday 9 50) monday openingStore :=
    .start opening_noItems
  obtain ⟨_, _, hcall⟩ := runWith_ends hany (callMade.prog deskSettings) [] openingStore
  have hmade := hstart.desk callMade (le_refl _) (fun t ht => (Option.some.inj ht).symm) hcall
  obtain ⟨_, _, hevening⟩ := runWith_ends hany
    (jobBarsRefresh deskSettings yearOfBars (quietFeed monday) monday) []
    (runWith ω (callMade.prog deskSettings) [] openingStore).store
  refine hmade.evening (by decide) ?_ (quiet_up _) hevening
  intro d hlo hhi
  exact absurd (lt_trans hlo hhi) (lt_irrefl _)

private theorem none_between : NoneMissed twoSessions monday tuesday := by
  intro d hlo hhi
  exact absurd (Int.lt_add_one_iff.mp hhi) (not_le.mpr hlo)

/-- The pass divides by SPY's price when the call was made, and the call is
left as it was, this evening and every evening. -/
theorem elapsed_unscored : ¬ ∀ (cfg : Settings) (bcfg : BarsConfig) (isSession : Date → Bool)
    (clock clock' : Instant) (eve : Date) (s s' : Store) (feed : Feed)
    (r : Except Exc (BarsReport × Option ScoreReport)) (h' : History),
    BarsRun cfg bcfg isSession clock eve s → clock ≤ clock' →
    NoneMissed isSession eve (cfg.et.date clock') →
    BrokerUp cfg bcfg isSession feed (cfg.et.date clock') s →
    Runs AnyAnswer (jobBarsRefresh cfg bcfg feed (cfg.et.date clock')) [] s r h' s' →
    AllScored isSession (cfg.et.date clock') s' := by
  intro hclaim
  have hany : ∀ q, AnyAnswer q (noSpyPrice q) := fun _ => trivial
  obtain ⟨_, _, hevening⟩ := runWith_ends hany
    (jobBarsRefresh deskSettings yearOfBars (quietFeed tuesday) tuesday) [] (mondayEnd noSpyPrice)
  have hall := hclaim _ _ _ (fromMonday 17 0) (fromMonday 41 0) _ _ _ _ _ _
    (monday_run noSpyPrice) (by decide) none_between (quiet_up _) hevening
  have hopen : ∃ c ∈ (eveningOf noSpyPrice tuesday (mondayEnd noSpyPrice)).calls,
      (1 ≤ c.horizonDays ∧ c.horizonDays ≤ sessionsBetween twoSessions (c.session - 1) tuesday) ∧
      (eveningOf noSpyPrice tuesday (mondayEnd noSpyPrice)).resolved .call c.id = false := by
    decide +kernel
  obtain ⟨c, hc, helapsed, hunresolved⟩ := hopen
  have hresolved := hall.calls c hc helapsed
  rw [show (runWith noSpyPrice (jobBarsRefresh deskSettings yearOfBars (quietFeed tuesday) tuesday) []
    (mondayEnd noSpyPrice)).store = eveningOf noSpyPrice tuesday (mondayEnd noSpyPrice) from rfl,
    hunresolved] at hresolved
  cases hresolved

/-- With SPY at 500 the call is scored on Tuesday's evening. -/
theorem elapsed_scored_tuesday :
    AllScored twoSessions tuesday
        (eveningOf (quoting (fromMonday 9 50) 50) tuesday (mondayEnd (quoting (fromMonday 9 50) 50))) ∧
      (eveningOf (quoting (fromMonday 9 50) 50) tuesday
        (mondayEnd (quoting (fromMonday 9 50) 50))).resolved .call 1 = true := by
  have hany : ∀ q, AnyAnswer q (quoting (fromMonday 9 50) 50 q) := fun _ => trivial
  obtain ⟨_, _, hevening⟩ := runWith_ends hany
    (jobBarsRefresh deskSettings yearOfBars (quietFeed tuesday) tuesday) []
    (mondayEnd (quoting (fromMonday 9 50) 50))
  have hscored : AllScored twoSessions (deskSettings.et.date (fromMonday 41 0)) _ :=
    elapsed_scored (monday_run _) none_between (quiet_up _) hevening (by decide +kernel)
  exact ⟨hscored, by decide +kernel⟩

end TradeDesk.Desk
