import TradeDesk.Loops.Tick
import Mathlib.Data.List.Induction

/-!
# The high-water mark

`close_session` reads the latest row of `session_status`, ratchets its mark
with the close and writes the day's row over. Nothing else writes that
table, so the latest row is that of the last close, and its mark the
largest of the seed and every close so far. A tick's intraday value is
recorded in the row and never adopted: the mark of a row is the maximum of
the mark before it and the close.
-/

namespace TradeDesk.Loops

open TradeDesk.Async

variable {l l' : Ledger} {r row : SessionStatusRow} {cfg : LoopSettings} {d : Date} {v k : ℚ}

/-! ## The latest row -/

/-- One turn of `ORDER BY date DESC LIMIT 1`. -/
private def laterOf (best : Option SessionStatusRow) (r : SessionStatusRow) :
    Option SessionStatusRow :=
  match best with
  | none => some r
  | some b => if b.date < r.date then some r else some b

private theorem latest_foldl (l : Ledger) :
    l.latestSessionStatus = l.sessionStatus.foldl laterOf none := rfl

/-- A fold never goes back to an earlier date. -/
private theorem foldl_laterOf {rows : List SessionStatusRow} {best : Option SessionStatusRow} :
    (∀ b, best = some b → ∃ x, rows.foldl laterOf best = some x ∧ b.date ≤ x.date) ∧
      ∀ r ∈ rows, ∃ x, rows.foldl laterOf best = some x ∧ r.date ≤ x.date := by
  induction rows generalizing best with
  | nil => exact ⟨fun b hb => ⟨b, hb, le_rfl⟩, fun r hr => by cases hr⟩
  | cons y ys ih =>
    rw [List.foldl_cons]
    obtain ⟨hbest, hrest⟩ := @ih (laterOf best y)
    have hy : ∃ z, laterOf best y = some z ∧ y.date ≤ z.date ∧ ∀ b, best = some b → b.date ≤ z.date := by
      cases best with
      | none => exact ⟨y, rfl, le_rfl, fun b hb => by cases hb⟩
      | some b =>
        by_cases h : b.date < y.date
        · exact ⟨y, if_pos h, le_rfl, fun b' hb' => Option.some.inj hb' ▸ h.le⟩
        · exact ⟨b, if_neg h, not_lt.mp h, fun b' hb' => Option.some.inj hb' ▸ le_rfl⟩
    obtain ⟨z, hz, hyz, hbz⟩ := hy
    obtain ⟨x, hx, hzx⟩ := hbest z hz
    refine ⟨fun b hb => ⟨x, hx, (hbz b hb).trans hzx⟩, ?_⟩
    intro r hr
    rcases List.mem_cons.mp hr with rfl | hr
    · exact ⟨x, hx, hyz.trans hzx⟩
    · exact hrest r hr

/-- No row is later than the latest. -/
theorem Ledger.latest_max (hr : r ∈ l.sessionStatus) (hlatest : l.latestSessionStatus = some row) :
    r.date ≤ row.date := by
  obtain ⟨x, hx, hle⟩ := foldl_laterOf.2 r hr
  rw [latest_foldl, hx] at hlatest
  obtain rfl := Option.some.inj hlatest
  exact hle

theorem Ledger.latest_none (hlatest : l.latestSessionStatus = none) : l.sessionStatus = [] := by
  cases hrows : l.sessionStatus with
  | nil => rfl
  | cons x xs =>
    obtain ⟨y, hy, _⟩ : ∃ y, l.sessionStatus.foldl laterOf none = some y ∧ x.date ≤ y.date :=
      foldl_laterOf.2 x (hrows ▸ List.mem_cons_self)
    rw [latest_foldl, hy] at hlatest
    cases hlatest

private theorem foldl_laterOf_mem {rows : List SessionStatusRow} {best : Option SessionStatusRow}
    {x : SessionStatusRow} (h : rows.foldl laterOf best = some x) : x ∈ rows ∨ best = some x := by
  induction rows generalizing best with
  | nil => exact .inr h
  | cons y ys ih =>
    rcases ih h with hmem | hbest
    · exact .inl (List.mem_cons_of_mem _ hmem)
    · cases best with
      | none =>
        obtain rfl := Option.some.inj hbest
        exact .inl List.mem_cons_self
      | some b =>
        unfold laterOf at hbest
        dsimp only at hbest
        split at hbest
        · obtain rfl := Option.some.inj hbest
          exact .inl List.mem_cons_self
        · exact .inr hbest

theorem Ledger.latest_mem (hlatest : l.latestSessionStatus = some row) :
    row ∈ l.sessionStatus := by
  rw [latest_foldl] at hlatest
  rcases foldl_laterOf_mem hlatest with hmem | h
  · exact hmem
  · cases h

/-- **A row written on or after the latest date is the latest.** -/
theorem Ledger.latest_write (hlate : ∀ r ∈ l.sessionStatus, r.date ≤ row.date) :
    (l.writeSessionStatus row).latestSessionStatus = some row := by
  rw [latest_foldl]
  unfold Ledger.writeSessionStatus
  dsimp only
  rw [List.foldl_append, List.foldl_cons, List.foldl_nil]
  cases hfold : (l.sessionStatus.filter fun x => x.date != row.date).foldl laterOf none with
  | none => rfl
  | some x =>
    obtain hx | hx := foldl_laterOf_mem hfold
    · obtain ⟨hmem, hne⟩ := List.mem_filter.mp hx
      have hlt : x.date < row.date := lt_of_le_of_ne (hlate x hmem) (by simpa using hne)
      exact if_pos hlt
    · cases hx

/-! ## A close -/

/-- The level of a value against a mark. -/
def levelOf (k v hwm : ℚ) : Level := if v ≤ cents (hwm * k) then .halt else .ok

theorem levelOf_halt {hwm : ℚ} : levelOf k v hwm = .halt ↔ v ≤ cents (hwm * k) := by
  unfold levelOf
  split <;> simp_all

theorem haltThreshold_ok {rules : Rules} (hk : rules.haltMultipleOfHwm = .ok k) (hwm : ℚ) :
    haltThreshold hwm rules = .ok (cents (hwm * k)) := by
  unfold haltThreshold
  rw [hk]
  rfl

theorem isHalted_ok {rules : Rules} (hk : rules.haltMultipleOfHwm = .ok k) (hwm : ℚ) :
    isHalted v hwm rules = .ok (decide (v ≤ cents (hwm * k))) := by
  unfold isHalted
  rw [haltThreshold_ok hk]
  rfl

theorem drawdownPct_ok {hwm : ℚ} (hpos : 0 < hwm) :
    drawdownPct v hwm = .ok (cents ((v - hwm) / hwm * 100)) := if_neg (not_le.mpr hpos)

/-- The row of a close, where the halt rule is there and the close positive. -/
theorem closeRow_ok {rules : Rules} (hk : rules.haltMultipleOfHwm = .ok k) (hv : 0 < v)
    (prior : ℚ) (highs : List ℚ) :
    ∃ row, closeRow rules d v prior highs = .ok row ∧ row.date = d ∧ row.closeValue = v ∧
      row.hwm = max prior v ∧ row.level = levelOf k v row.hwm := by
  have hpos : 0 < max prior v := lt_of_lt_of_le hv (le_max_right _ _)
  unfold closeRow ratchetHwm
  dsimp only
  rw [haltThreshold_ok hk, drawdownPct_ok hpos, isHalted_ok hk]
  refine ⟨_, rfl, rfl, rfl, rfl, ?_⟩
  simp [levelOf]

/-- A tick's level is that of its row's mark. -/
theorem markAgainst_ok {rules : Rules} (hk : rules.haltMultipleOfHwm = .ok k)
    {status : SessionStatusRow} (hpos : 0 < status.hwm) :
    ∃ m, markAgainst rules v (some status) = .ok m ∧ m.level = levelOf k v status.hwm := by
  unfold markAgainst
  dsimp only
  rw [drawdownPct_ok hpos, isHalted_ok hk]
  refine ⟨_, rfl, ?_⟩
  simp [levelOf]

variable {Adm : ∀ q, LoopAnswer q → Prop} {h h' : LoopHistory}

/-- What a close does: the latest row's mark, ratcheted, in the day's row. -/
theorem closeSession_runs (hk : cfg.rules.haltMultipleOfHwm = .ok k) (hv : 0 < v)
    {prior : SessionStatusRow} (hprior : l.latestSessionStatus = some prior)
    {x : Except Exc SessionStatusRow}
    (hrun : Runs Adm (closeSession cfg d v) [] l x h l') :
    ∃ row, x = .ok row ∧ l' = l.writeSessionStatus row ∧ row.date = d ∧ row.closeValue = v ∧
      row.hwm = max prior.hwm v ∧ row.level = levelOf k v row.hwm := by
  refine Always.runs (G := fun _ _ _ => True) (R := fun x _ l' => ∃ row, x = .ok row ∧
    l' = l.writeSessionStatus row ∧ row.date = d ∧ row.closeValue = v ∧
      row.hwm = max prior.hwm v ∧ row.level = levelOf k v row.hwm) ?_ hrun
  unfold closeSession latestSessionStatus
  refine always_scan_bind (fun status hstatus => ?_) fun e he => by cases he
  cases hstatus
  rw [hprior]
  dsimp only
  refine always_scan_bind (fun ticks _ => ?_) fun e he => by cases he
  obtain ⟨row, hrow, hspec⟩ := closeRow_ok (d := d) hk hv prior.hwm
    ((ticks.filter fun t => t.state == .rth).map (·.accountValue))
  refine always_check_bind (fun r hr => ?_) fun e he => by rw [hrow] at he; cases he
  rw [hrow] at hr
  cases hr
  exact always_update_bind trivial ⟨row, rfl, rfl, hspec⟩

/-- What seeding does: one row, whose mark is the seed on the account's
basis. -/
theorem seedHwm_runs {recorded : ℚ} {on : Date} (hnone : l.latestSessionStatus = none)
    {x : Except Exc SessionStatusRow}
    (hrun : Runs Adm (seedHwm cfg recorded on) [] l x h l') :
    ∃ row, l' = l.writeSessionStatus row ∧ row.date = on ∧
      row.hwm = legacyHwmToAccountBasis recorded on cfg.reserve := by
  refine Always.runs (G := fun _ _ _ => True) (R := fun _ _ l' => ∃ row,
    l' = l.writeSessionStatus row ∧ row.date = on ∧
      row.hwm = legacyHwmToAccountBasis recorded on cfg.reserve) ?_ hrun
  unfold seedHwm latestSessionStatus
  refine always_scan_bind (fun status hstatus => ?_) fun e he => by cases he
  cases hstatus
  rw [hnone]
  exact always_update_bind trivial ⟨_, rfl, rfl, rfl⟩

/-! ## A tick and a reconcile leave the mark alone -/

/-- What writes `session_status` no row. -/
def Unmarked (_ : LoopHistory) (a b : Ledger) : Prop := b.sessionStatus = a.sessionStatus

/-- A part of a loop that leaves `session_status` as `rows`. -/
abbrev KeepsMark {α : Type} (Adm : ∀ q, LoopAnswer q → Prop) (rows : List SessionStatusRow)
    (p : LoopM α) : Prop :=
  ∀ h l, l.sessionStatus = rows →
    Always Adm Unmarked (fun _ _ l => l.sessionStatus = rows) p h l

variable {rows : List SessionStatusRow} {α β : Type}

theorem KeepsMark.bind {p : LoopM α} {f : α → LoopM β} (hp : KeepsMark Adm rows p)
    (hf : ∀ a, KeepsMark Adm rows (f a)) : KeepsMark Adm rows (p >>= f) := by
  intro h l hl
  exact (hp h l hl).bind (fun a h l hl => hf a h l hl) fun _ _ _ hl => hl

theorem keepsMark_pure (a : α) : KeepsMark Adm rows (pure a : LoopM α) := fun _ _ hl => hl

theorem keepsMark_raise (e : Exc) : KeepsMark Adm rows (Prog.raise e : LoopM α) := fun _ _ hl => hl

theorem keepsMark_broker {q : LoopQuery} {as : LoopAnswer q → Except Exc α} :
    KeepsMark Adm rows (broker q as) := by
  intro h l hl
  exact always_query_bind fun a _ => (always_check _).mpr hl

theorem keepsMark_update {u : Ledger → Ledger}
    (hu : ∀ l, (u l).sessionStatus = l.sessionStatus) : KeepsMark Adm rows (Prog.update u) := by
  intro h l hl
  exact ⟨hu l, (hu l).trans hl⟩

theorem firstHash_keepsMark {e : Exc} : KeepsMark Adm rows (firstHash e) := by
  unfold firstHash accountHashes
  refine keepsMark_broker.bind ?_
  intro hashes
  cases hashes with
  | nil => exact keepsMark_raise e
  | cons x xs => exact keepsMark_pure x

theorem tickHash_keepsMark {accountHash : Option String} :
    KeepsMark Adm rows (tickHash accountHash) := by
  unfold tickHash
  split
  · exact firstHash_keepsMark
  · split
    · exact firstHash_keepsMark
    · exact keepsMark_pure _

theorem reconcile_keepsMark {accountHash : String} {now : Instant} :
    KeepsMark Adm rows (reconcile cfg accountHash now) := by
  unfold reconcile
  refine keepsMark_broker.bind fun account => keepsMark_broker.bind fun orders => ?_
  have haccount : KeepsMark Adm rows (recordAccount account) := keepsMark_update fun _ => rfl
  have horders : KeepsMark Adm rows (recordOrders accountHash orders now) :=
    keepsMark_update fun _ => rfl
  exact haccount.bind fun _ => horders.bind fun _ => keepsMark_pure _

theorem quotesAreStale_keepsMark {symbols : List String} {now : Instant} :
    KeepsMark Adm rows (quotesAreStale symbols now) := by
  unfold quotesAreStale
  refine keepsMark_broker.bind ?_
  intro first
  cases first with
  | some stale => exact keepsMark_pure _
  | none => exact keepsMark_broker.bind fun _ => keepsMark_pure _

theorem tickStale_keepsMark {phase : SessionPhase} {symbols : List String} {now : Instant} :
    KeepsMark Adm rows (tickStale phase symbols now) := by
  unfold tickStale
  split
  · exact quotesAreStale_keepsMark
  · exact keepsMark_pure _

theorem tickRead_keepsMark {accountHash : Option String} {now : Instant} :
    KeepsMark Adm rows (tickRead cfg accountHash now) := by
  unfold tickRead latestPositions
  refine tickHash_keepsMark.bind fun accountHash => ?_
  intro h l hl
  refine always_scan_bind (fun prior _ => ?_) fun _ _ => hl
  exact (reconcile_keepsMark.bind fun _ => keepsMark_pure _) h l hl

/-- How a tick ends: its row's level is that of the account it read against
the latest row of `session_status`. -/
def TickMarked (rules : Rules) (rows : List SessionStatusRow) (x : Except Exc TickResult)
    (l : Ledger) : Prop :=
  l.sessionStatus = rows ∧ ∀ result view, x = .ok result → result.view = some view →
    ∃ m, markAgainst rules view.account.liquidationValue l.latestSessionStatus = .ok m ∧
      result.row.level = m.level

theorem tickReport_marked {now : Instant} {window : Option MarketWindow}
    {prior : List (String × ℤ)} {view : BookView} (hl : l.sessionStatus = rows) :
    Always Adm Unmarked (fun x _ l => TickMarked cfg.rules rows x l)
      (tickReport cfg now window prior view) h l := by
  have herr : ∀ {e : Exc} {l : Ledger}, l.sessionStatus = rows →
      TickMarked cfg.rules rows (.error e) l := fun hl => ⟨hl, fun _ _ h => by cases h⟩
  unfold tickReport latestSessionStatus
  dsimp only
  refine (tickStale_keepsMark h l hl).bind (fun stale h l hl => ?_) fun _ _ _ hl => herr hl
  refine always_scan_bind (fun status hstatus => ?_) fun _ _ => herr hl
  cases hstatus
  refine always_check_bind (fun marking hmarking => ?_) fun _ _ => herr hl
  refine always_scan_bind (fun alerts _ => ?_) fun _ _ => herr hl
  refine always_check_bind (fun watched _ => ?_) fun _ _ => herr hl
  refine always_update_bind rfl ⟨hl, ?_⟩
  intro result v hresult hview
  cases hresult
  cases hview
  exact ⟨marking, hmarking, rfl⟩

theorem runTick_marked {accountHash : Option String} {now : Instant}
    {window : Option MarketWindow} (hl : l.sessionStatus = rows) :
    Always Adm Unmarked (fun x _ l => TickMarked cfg.rules rows x l)
      (runTick cfg accountHash now window) h l := by
  unfold runTick
  rw [always_bind, always_attempt]
  refine (tickRead_keepsMark h l hl).mono (fun _ _ _ hu => hu) fun x h l hl => ?_
  cases x with
  | ok pv => exact tickReport_marked hl
  | error e =>
    cases e
    case unauthorized =>
      refine always_update_bind rfl ⟨hl, ?_⟩
      intro result v hresult hview
      cases hresult
      cases hview
    all_goals exact ⟨hl, fun _ _ hx => by cases hx⟩

/-! ## Every run -/

/-- The broker may answer anything. -/
def AnyAnswer (q : LoopQuery) (_ : LoopAnswer q) : Prop := True

/-- The mark is seeded, and then the day is closed, the account is swept and
reconciled, in any order. The closes so far are kept. -/
inductive MarkRun (cfg : LoopSettings) (Adm : ∀ q, LoopAnswer q → Prop) (recorded : ℚ)
    (on : Date) : List (Date × ℚ) → Ledger → Prop where
  | seed {l l' : Ledger} {x : Except Exc SessionStatusRow} {h : LoopHistory} :
      l.latestSessionStatus = none → Runs Adm (seedHwm cfg recorded on) [] l x h l' →
      MarkRun cfg Adm recorded on [] l'
  | close {closes : List (Date × ℚ)} {l l' : Ledger} {x : Except Exc SessionStatusRow}
      {h : LoopHistory} (d : Date) (v : ℚ) :
      MarkRun cfg Adm recorded on closes l → Runs Adm (closeSession cfg d v) [] l x h l' →
      MarkRun cfg Adm recorded on (closes ++ [(d, v)]) l'
  | tick {closes : List (Date × ℚ)} {l l' : Ledger} {x : Except Exc TickResult} {h : LoopHistory}
      (accountHash : Option String) (now : Instant) (window : Option MarketWindow) :
      MarkRun cfg Adm recorded on closes l → Runs Adm (runTick cfg accountHash now window) [] l x h l' →
      MarkRun cfg Adm recorded on closes l'
  | reconcile {closes : List (Date × ℚ)} {l l' : Ledger} {x : Except Exc BookView}
      {h : LoopHistory} (accountHash : String) (now : Instant) :
      MarkRun cfg Adm recorded on closes l →
      Runs Adm (Loops.reconcile cfg accountHash now) [] l x h l' →
      MarkRun cfg Adm recorded on closes l'

/-- The mark after these closes. -/
def markAfter (seed : ℚ) (closes : List (Date × ℚ)) : ℚ := (closes.map (·.2)).foldl max seed

/-- The latest row is that of the last close. -/
structure Marked (cfg : LoopSettings) (k seed : ℚ) (on : Date) (closes : List (Date × ℚ))
    (rows : List SessionStatusRow) (row : SessionStatusRow) : Prop where
  upto : ∀ r ∈ rows, r.date ≤ row.date
  hwm : row.hwm = markAfter seed closes
  date : row.date = ((closes.map (·.1)).getLast?).getD on
  level : ∀ d v, closes.getLast? = some (d, v) → row.closeValue = v ∧ row.level = levelOf k v row.hwm

theorem markAfter_concat (seed : ℚ) (closes : List (Date × ℚ)) (d : Date) (v : ℚ) :
    markAfter seed (closes ++ [(d, v)]) = max (markAfter seed closes) v := by
  unfold markAfter
  rw [List.map_append, List.foldl_append]
  rfl

/-- The seed and every close are at or below the mark. -/
theorem le_markAfter {seed : ℚ} {closes : List (Date × ℚ)} :
    seed ≤ markAfter seed closes ∧ ∀ c ∈ closes, c.2 ≤ markAfter seed closes := by
  induction closes using List.reverseRecOn with
  | nil => exact ⟨le_rfl, fun c hc => by cases hc⟩
  | append_singleton closes c ih =>
    rw [markAfter_concat]
    refine ⟨ih.1.trans (le_max_left _ _), ?_⟩
    intro c' hc'
    rcases List.mem_append.mp hc' with hc' | hc'
    · exact (ih.2 c' hc').trans (le_max_left _ _)
    · rw [List.mem_singleton.mp hc']
      exact le_max_right _ _

private theorem latest_of_same (h : l'.sessionStatus = l.sessionStatus) :
    l'.latestSessionStatus = l.latestSessionStatus := by
  rw [latest_foldl, latest_foldl, h]

/-- A write of one date replaces that date's row. -/
private theorem mem_write (h : r ∈ (l.writeSessionStatus row).sessionStatus) :
    r ∈ l.sessionStatus ∨ r = row := by
  rcases List.mem_append.mp h with h | h
  · exact .inl (List.mem_filter.mp h).1
  · exact .inr (List.mem_singleton.mp h)

/-- One close moves the mark on. -/
theorem Marked.close {seed : ℚ} {on : Date} {closes : List (Date × ℚ)} {prior : SessionStatusRow}
    (hm : Marked cfg k seed on closes l.sessionStatus prior) (hdate : prior.date ≤ d)
    (hrow : row.date = d ∧ row.closeValue = v ∧ row.hwm = max prior.hwm v ∧
      row.level = levelOf k v row.hwm) :
    (l.writeSessionStatus row).latestSessionStatus = some row ∧
      Marked cfg k seed on (closes ++ [(d, v)]) (l.writeSessionStatus row).sessionStatus row := by
  obtain ⟨hd, hvalue, hhwm, hlevel⟩ := hrow
  have hupto : ∀ r ∈ l.sessionStatus, r.date ≤ row.date := by
    intro r hr
    rw [hd]
    exact (hm.upto r hr).trans hdate
  refine ⟨Ledger.latest_write hupto, ?_, ?_, ?_, ?_⟩
  · intro r hr
    rcases mem_write hr with hr | rfl
    · exact hupto r hr
    · exact le_rfl
  · rw [markAfter_concat, hhwm, hm.hwm]
  · rw [List.map_append]
    simp [hd]
  · intro d' v' hlast
    rw [List.getLast?_concat] at hlast
    cases hlast
    exact ⟨hvalue, hlevel⟩

/-- The last date of a nondecreasing list is the greatest. -/
private theorem last_le {on : Date} {dates : List Date}
    (h : (on :: (dates ++ [d])).Pairwise (· ≤ ·)) : dates.getLast?.getD on ≤ d := by
  rw [List.pairwise_cons, List.pairwise_append] at h
  cases hlast : dates.getLast? with
  | none => exact h.1 d (List.mem_append_right _ List.mem_cons_self)
  | some e => exact h.2.2.2 e (List.mem_of_getLast? hlast) d List.mem_cons_self

/-- **Every run**: the latest row is the last close's. -/
theorem MarkRun.marked {recorded : ℚ} {on : Date} {closes : List (Date × ℚ)}
    (hk : cfg.rules.haltMultipleOfHwm = .ok k) (hrun : MarkRun cfg Adm recorded on closes l)
    (hdates : (on :: closes.map (·.1)).Pairwise (· ≤ ·)) (hpos : ∀ c ∈ closes, 0 < c.2) :
    ∃ row, l.latestSessionStatus = some row ∧
      Marked cfg k (legacyHwmToAccountBasis recorded on cfg.reserve) on closes l.sessionStatus
        row := by
  induction hrun with
  | @seed l₀ _ _ _ hnone hruns =>
    obtain ⟨row, rfl, hd, hhwm⟩ := seedHwm_runs hnone hruns
    have hempty := Ledger.latest_none hnone
    have hupto : ∀ r ∈ l₀.sessionStatus, r.date ≤ row.date := by
      intro r hr
      rw [hempty] at hr
      cases hr
    refine ⟨row, Ledger.latest_write hupto, ?_, hhwm, hd, fun _ _ h => by cases h⟩
    intro r hr
    rcases mem_write hr with hr | rfl
    · exact hupto r hr
    · exact le_rfl
  | close d v _ hruns ih =>
    rw [List.map_append] at hdates
    obtain ⟨prior, hprior, hm⟩ := ih
      (hdates.sublist ((List.sublist_append_left _ _).cons_cons on)) fun c hc => hpos c (List.mem_append_left _ hc)
    obtain ⟨row, _, rfl, hrow⟩ := closeSession_runs hk
      (hpos (d, v) (List.mem_append_right _ List.mem_cons_self)) hprior hruns
    exact ⟨row, hm.close (hm.date ▸ last_le hdates) hrow⟩
  | tick accountHash now window _ hruns ih =>
    obtain ⟨row, hlatest, hm⟩ := ih hdates hpos
    have hsame := (Always.runs (runTick_marked rfl) hruns).1
    exact ⟨row, (latest_of_same hsame).trans hlatest, hsame ▸ hm⟩
  | reconcile accountHash now _ hruns ih =>
    obtain ⟨row, hlatest, hm⟩ := ih hdates hpos
    have hsame := Always.runs (reconcile_keepsMark _ _ rfl) hruns
    exact ⟨row, (latest_of_same hsame).trans hlatest, hsame ▸ hm⟩

/-- **The mark only rises, and only from a close**: after any run of closes,
ticks and reconciles from a seeded ledger, the latest row's mark is the
largest of the seed and the closes so far. That row is halted exactly if its
close is at or below the halt threshold of its mark, and a tick that reads
the same account value over it says the same. -/
theorem highWaterMark (cfg : LoopSettings) (k recorded : ℚ) (on : Date) (closes : List (Date × ℚ))
    (l : Ledger) (hk : cfg.rules.haltMultipleOfHwm = .ok k)
    (hseed : 0 < legacyHwmToAccountBasis recorded on cfg.reserve)
    (hrun : MarkRun cfg AnyAnswer recorded on closes l)
    (hdates : (on :: closes.map (·.1)).Pairwise (· ≤ ·)) (hpos : ∀ c ∈ closes, 0 < c.2) :
    ∃ row, l.latestSessionStatus = some row ∧
      row.hwm = (closes.map (·.2)).foldl max (legacyHwmToAccountBasis recorded on cfg.reserve) ∧
      (∀ d v, closes.getLast? = some (d, v) →
        row.date = d ∧ row.closeValue = v ∧ (row.level = .halt ↔ v ≤ cents (row.hwm * k))) ∧
      ∀ accountHash now window result view h l',
        Runs AnyAnswer (runTick cfg accountHash now window) [] l (.ok result) h l' →
        result.view = some view →
        (result.row.level = .halt ↔ view.account.liquidationValue ≤ cents (row.hwm * k)) := by
  obtain ⟨row, hlatest, hm⟩ := hrun.marked hk hdates hpos
  have hmark : 0 < row.hwm := by
    rw [hm.hwm]
    exact lt_of_lt_of_le hseed le_markAfter.1
  refine ⟨row, hlatest, hm.hwm, ?_, ?_⟩
  · intro d v hlast
    obtain ⟨hvalue, hlevel⟩ := hm.level d v hlast
    refine ⟨?_, hvalue, ?_⟩
    · rw [hm.date, List.getLast?_map, hlast]
      rfl
    · rw [hlevel]
      exact levelOf_halt
  · intro accountHash now window result view h l' hruns hview
    obtain ⟨hsame, hlevel⟩ := Always.runs (runTick_marked rfl) hruns
    obtain ⟨m, hm₁, hl₁⟩ := hlevel result view rfl hview
    rw [latest_of_same hsame, hlatest] at hm₁
    obtain ⟨m', hm', hl'⟩ := markAgainst_ok (v := view.account.liquidationValue) hk hmark
    rw [hm'] at hm₁
    cases hm₁
    rw [hl₁, hl']
    exact levelOf_halt

/-- A ledger without a mark. -/
def unseeded : Ledger := ⟨[], [], [], []⟩

/-- Where a loop ends over the account of Monday's close. -/
def ended {α : Type} (p : LoopM α) (l : Ledger) : Config Ledger LoopQuery LoopAnswer Exc α :=
  runWith (brokerWith (fromMonday 16 4) []) p [] l

theorem ended_runs {α : Type} (p : LoopM α) (l : Ledger) :
    ∃ x h, Runs AnyAnswer p [] l x h (ended p l).store := by
  obtain ⟨x, hx⟩ := runWith_ended (brokerWith (fromMonday 16 4) []) p [] l
  have hadm : ∀ q, AnyAnswer q (brokerWith (fromMonday 16 4) [] q) := fun _ => trivial
  obtain ⟨h, hruns⟩ := runWith_runs hadm hx rfl
  exact ⟨x, h, hruns⟩

/-- Seeded at 10,000, closed at 12,000 and then at 9,000: the mark is 12,000
and the second close is a halt. -/
def fallenLedger : Ledger :=
  (ended (closeSession engineSettings (dayNumber 2026 9 29) 9000)
    (ended (closeSession engineSettings (dayNumber 2026 9 28) 12000)
      (ended (seedHwm engineSettings 10000 (dayNumber 2026 9 25)) unseeded).store).store).store

theorem highWaterMark_fallen : ∃ row, fallenLedger.latestSessionStatus = some row ∧
    row.hwm = 12000 ∧ row.level = .halt := by
  obtain ⟨_, _, hseed⟩ := ended_runs (seedHwm engineSettings 10000 (dayNumber 2026 9 25)) unseeded
  obtain ⟨_, _, hup⟩ := ended_runs (closeSession engineSettings (dayNumber 2026 9 28) 12000)
    (ended (seedHwm engineSettings 10000 (dayNumber 2026 9 25)) unseeded).store
  obtain ⟨_, _, hdown⟩ := ended_runs (closeSession engineSettings (dayNumber 2026 9 29) 9000) _
  obtain ⟨row, hlatest, hhwm, hlast, _⟩ := highWaterMark engineSettings (80 / 100) 10000
    (dayNumber 2026 9 25) _ _ rfl (by decide +kernel)
    (((MarkRun.seed rfl hseed).close _ _ hup).close _ _ hdown) (by decide) (by decide +kernel)
  refine ⟨row, hlatest, hhwm.trans (by decide +kernel), ?_⟩
  refine (hlast _ _ rfl).2.2.mpr ?_
  rw [hhwm]
  decide +kernel

end TradeDesk.Loops
