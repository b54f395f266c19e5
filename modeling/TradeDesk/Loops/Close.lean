import TradeDesk.Loops.Mark
import Mathlib.Data.List.Nodup

/-!
# Closing a day twice

A close reads its prior mark from the newest row of `session_status`, and
replaces the row of its own date. The two meet when a day is closed again:
the row it replaces is the row it reads. So what is kept is tied to where
the mark was read (`Fair`): on a new day it is always the mark of the day
before (`Fair.newDay`), on a repeated one only if the row on record did not
raise it.

`close_iff` is one close; `CloseRun.closed` carries the rows through a run
of closes, each over whatever the sweeps recorded in between.
-/

namespace TradeDesk.Loops

open TradeDesk.Async

/-- `session_status_for`. -/
def Ledger.sessionStatusFor (l : Ledger) (d : Date) : Option SessionStatusRow :=
  l.sessionStatus.find? fun r => r.date == d

/-- The account values swept in the day's session. -/
def Ledger.highsOn (l : Ledger) (d : Date) : List ℚ :=
  ((l.ticksFor d).filter fun t => t.state == .rth).map (·.accountValue)

variable {l l' : Ledger} {r row prior b : SessionStatusRow} {cfg : LoopSettings} {d : Date}
  {v : ℚ} {closes : List (Date × ℚ)}

/-! ## What the rows are to say -/

/-- The newest row dated before a day. -/
structure LatestBefore (l : Ledger) (d : Date) (b : SessionStatusRow) : Prop where
  mem : b ∈ l.sessionStatus
  before : b.date < d
  latest : ∀ r ∈ l.sessionStatus, r.date < d → r.date ≤ b.date

/-- Each row starts from the mark of the row before it, and says whether it
raised it. -/
def RowsTrue (l : Ledger) : Prop :=
  ∀ r ∈ l.sessionStatus, (∀ b, LatestBefore l r.date b → r.priorHwm = b.hwm) ∧
    (r.ratcheted = true ↔ r.priorHwm < r.hwm)

/-- A close that finds its own date and value already closed changes nothing. -/
def Unchanged (closes : List (Date × ℚ)) (d : Date) (v : ℚ) (l l' : Ledger) : Prop :=
  closes.lookup d = some v → l'.sessionStatusFor d = l.sessionStatusFor d

/-- The mark a close reads is the one it is to start from: that of the row
before its date, and where it repeats a close the one that close started
from; and the next row on record, if there is one, starts from the mark it
leaves. -/
structure Fair (closes : List (Date × ℚ)) (l : Ledger) (d : Date) (v : ℚ) : Prop where
  before : ∀ prior b, l.latestSessionStatus = some prior → LatestBefore l d b → prior.hwm = b.hwm
  again : ∀ prior r, l.latestSessionStatus = some prior → closes.lookup d = some v →
    l.sessionStatusFor d = some r → r.priorHwm = prior.hwm
  next : ∀ prior, l.latestSessionStatus = some prior → ∀ r ∈ l.sessionStatus, d < r.date →
    (∀ x ∈ l.sessionStatus, x.date < r.date → x.date ≤ d) → r.priorHwm = max prior.hwm v

/-! ## One close -/

/-- A row is read off the mark, the close and the day's sweeps. -/
theorem closeRow_fields {p : ℚ} {highs : List ℚ} (h : closeRow cfg.rules d v p highs = .ok row) :
    row.date = d ∧ row.hwm = max p v ∧ row.priorHwm = p ∧
      (row.ratcheted = true ↔ row.priorHwm < row.hwm) := by
  unfold closeRow ratchetHwm at h
  dsimp only at h
  obtain ⟨halt, -, h⟩ := except_bind_ok h
  obtain ⟨drawdown, -, h⟩ := except_bind_ok h
  obtain ⟨halted, -, h⟩ := except_bind_ok h
  cases h
  exact ⟨rfl, rfl, rfl, decide_eq_true_iff⟩

variable {Adm : ∀ q, LoopAnswer q → Prop} {h h' : LoopHistory}

/-- A close that succeeds writes the row of the newest mark. -/
theorem closeSession_ok (hrun : Runs Adm (closeSession cfg d v) [] l (.ok row) h l') :
    ∃ prior, l.latestSessionStatus = some prior ∧ l' = l.writeSessionStatus row ∧
      closeRow cfg.rules d v prior.hwm (l.highsOn d) = .ok row := by
  refine Always.runs (G := fun _ _ _ => True) (R := fun x _ l' => ∀ row, x = .ok row →
    ∃ prior, l.latestSessionStatus = some prior ∧ l' = l.writeSessionStatus row ∧
      closeRow cfg.rules d v prior.hwm (l.highsOn d) = .ok row) ?_ hrun row rfl
  unfold closeSession latestSessionStatus
  refine always_scan_bind (fun status hstatus => ?_) fun e he => by cases he
  cases hstatus
  cases hlatest : l.latestSessionStatus with
  | none =>
    intro row hrow
    cases hrow
  | some prior =>
    dsimp only
    refine always_scan_bind (fun ticks hticks => ?_) fun e he => by cases he
    cases hticks
    refine always_check_bind (fun made hmade => ?_) fun e _ row hrow => by cases hrow
    refine always_update_bind trivial fun row hrow => ?_
    cases hrow
    exact ⟨prior, rfl, rfl, hmade⟩

theorem mem_writeSessionStatus : r ∈ (l.writeSessionStatus row).sessionStatus ↔
    r ∈ l.sessionStatus ∧ r.date ≠ row.date ∨ r = row := by
  unfold Ledger.writeSessionStatus
  simp

theorem writeSessionStatus_dates (h : (l.sessionStatus.map (·.date)).Nodup) :
    ((l.writeSessionStatus row).sessionStatus.map (·.date)).Nodup := by
  unfold Ledger.writeSessionStatus
  dsimp only
  rw [List.map_append, List.nodup_append]
  refine ⟨h.sublist (List.filter_sublist.map _), List.nodup_singleton _, ?_⟩
  intro x hx y hy hxy
  obtain ⟨r, hr, rfl⟩ := List.mem_map.mp hx
  obtain ⟨-, hne⟩ := List.mem_filter.mp hr
  rw [List.mem_singleton.mp hy] at hxy
  simp [hxy] at hne

theorem sessionStatusFor_write : (l.writeSessionStatus row).sessionStatusFor row.date = some row := by
  unfold Ledger.sessionStatusFor Ledger.writeSessionStatus
  dsimp only
  rw [List.find?_append, List.find?_eq_none.mpr, Option.none_or, List.find?_cons_of_pos (by simp)]
  intro x hx
  simpa using (List.mem_filter.mp hx).2

theorem sessionStatusFor_iff (h : (l.sessionStatus.map (·.date)).Nodup) :
    l.sessionStatusFor d = some r ↔ r ∈ l.sessionStatus ∧ r.date = d := by
  unfold Ledger.sessionStatusFor
  constructor
  · intro hfind
    exact ⟨List.mem_of_find?_eq_some hfind, by simpa using List.find?_some hfind⟩
  · rintro ⟨hr, rfl⟩
    cases hfind : l.sessionStatus.find? fun x => x.date == r.date with
    | none => exact absurd (List.find?_eq_none.mp hfind r hr) (by simp)
    | some x =>
      have hdate : x.date = r.date := by simpa using List.find?_some hfind
      rw [List.inj_on_of_nodup_map h (List.mem_of_find?_eq_some hfind) hr hdate]

/-- Up to its own date a written row changes nothing before. -/
theorem latestBefore_write (hle : d ≤ row.date) :
    LatestBefore (l.writeSessionStatus row) d b ↔ LatestBefore l d b := by
  have hmem : ∀ r, r.date < d → (r ∈ (l.writeSessionStatus row).sessionStatus ↔
      r ∈ l.sessionStatus) := by
    intro r hr
    rw [mem_writeSessionStatus]
    constructor
    · rintro (⟨hmem, -⟩ | rfl)
      · exact hmem
      · exact absurd hle (not_le.mpr hr)
    · exact fun hmem => .inl ⟨hmem, ne_of_lt (lt_of_lt_of_le hr hle)⟩
  constructor
  · rintro ⟨hb, hlt, hlatest⟩
    exact ⟨(hmem b hlt).mp hb, hlt, fun r hr hrd => hlatest r ((hmem r hrd).mpr hr) hrd⟩
  · rintro ⟨hb, hlt, hlatest⟩
    exact ⟨(hmem b hlt).mpr hb, hlt, fun r hr hrd => hlatest r ((hmem r hrd).mp hr) hrd⟩

/-- After it, the newest row before a date is the written one where none
lay between, and otherwise the one it was. -/
theorem latestBefore_later (hlt : row.date < d)
    (hb : LatestBefore (l.writeSessionStatus row) d b) :
    b = row ∧ (∀ x ∈ l.sessionStatus, x.date < d → x.date ≤ row.date) ∨ LatestBefore l d b := by
  have hrow : row.date ≤ b.date := hb.latest row (mem_writeSessionStatus.mpr (.inr rfl)) hlt
  have hold : ∀ x ∈ l.sessionStatus, x.date < d → x.date ≤ b.date := by
    intro x hx hxd
    by_cases hdate : x.date = row.date
    · exact hdate.trans_le hrow
    · exact hb.latest x (mem_writeSessionStatus.mpr (.inl ⟨hx, hdate⟩)) hxd
  rcases mem_writeSessionStatus.mp hb.mem with ⟨hmem, -⟩ | rfl
  · exact .inr ⟨hmem, hb.before, hold⟩
  · exact .inl ⟨rfl, hold⟩

/-! ## What a run keeps -/

/-- The rows are one a date and true, and the last close of a date is what
its row records. -/
structure Closed (cfg : LoopSettings) (closes : List (Date × ℚ)) (l : Ledger) : Prop where
  dates : (l.sessionStatus.map (·.date)).Nodup
  rows : RowsTrue l
  made : ∀ d v, closes.lookup d = some v → ∃ r ∈ l.sessionStatus, r.date = d ∧
    closeRow cfg.rules d v r.priorHwm (l.highsOn d) = .ok r

/-- **A fair close keeps the rows true**: the row it writes starts from the
row before it, and the next from the row it writes. -/
theorem RowsTrue.write (hrows : RowsTrue l) (hprior : l.latestSessionStatus = some prior)
    (hrow : row.date = d ∧ row.hwm = max prior.hwm v ∧ row.priorHwm = prior.hwm ∧
      (row.ratcheted = true ↔ row.priorHwm < row.hwm)) (hfair : Fair closes l d v) :
    RowsTrue (l.writeSessionStatus row) := by
  obtain ⟨rfl, hhwm, hp, hratchet⟩ := hrow
  intro r hr
  rcases mem_writeSessionStatus.mp hr with ⟨hmem, hdate⟩ | rfl
  · obtain ⟨hbefore, hsays⟩ := hrows r hmem
    refine ⟨fun b hb => ?_, hsays⟩
    rcases lt_or_gt_of_ne hdate with hlt | hgt
    · exact hbefore b ((latestBefore_write hlt.le).mp hb)
    · rcases latestBefore_later hgt hb with ⟨rfl, hnone⟩ | hb
      · rw [hhwm]
        exact hfair.next prior hprior r hmem hgt hnone
      · exact hbefore b hb
  · refine ⟨fun b hb => ?_, hratchet⟩
    rw [hp]
    exact hfair.before prior b hprior ((latestBefore_write le_rfl).mp hb)

/-- **One close**, after any run of fair ones: the rows stay true and a
repeat changes nothing exactly if it is fair. -/
theorem Closed.close_iff (hc : Closed cfg closes l)
    (hrun : Runs Adm (closeSession cfg d v) [] l (.ok row) h l') :
    RowsTrue l' ∧ Unchanged closes d v l l' ↔ Fair closes l d v := by
  obtain ⟨prior, hprior, rfl, hmade⟩ := closeSession_ok hrun
  have hrow := closeRow_fields hmade
  obtain rfl := hrow.1
  constructor
  · rintro ⟨htrue, hsame⟩
    refine ⟨fun p b hp hb => ?_, fun p r hp hagain hr => ?_, fun p hp r hr hlt hnone => ?_⟩
    · cases hprior.symm.trans hp
      rw [← hrow.2.2.1]
      exact (htrue row (mem_writeSessionStatus.mpr (.inr rfl))).1 b
        ((latestBefore_write le_rfl).mpr hb)
    · cases hprior.symm.trans hp
      have heq := hsame hagain
      rw [sessionStatusFor_write, hr] at heq
      cases heq
      exact hrow.2.2.1
    · cases hprior.symm.trans hp
      rw [← hrow.2.1]
      refine (htrue r (mem_writeSessionStatus.mpr (.inl ⟨hr, ne_of_gt hlt⟩))).1 row ?_
      refine ⟨mem_writeSessionStatus.mpr (.inr rfl), hlt, fun x hx hxr => ?_⟩
      rcases mem_writeSessionStatus.mp hx with ⟨hx, -⟩ | rfl
      · exact hnone x hx hxr
      · exact le_rfl
  · intro hfair
    refine ⟨hc.rows.write hprior hrow hfair, fun hagain => ?_⟩
    obtain ⟨r, hr, hdate, hrec⟩ := hc.made row.date v hagain
    have hfor := (sessionStatusFor_iff hc.dates).mpr ⟨hr, hdate⟩
    rw [hfair.again prior r hprior hagain hfor, hmade] at hrec
    cases hrec
    rw [sessionStatusFor_write, hfor]

theorem Closed.close (hc : Closed cfg closes l) (hfair : Fair closes l d v)
    (hrun : Runs Adm (closeSession cfg d v) [] l (.ok row) h l') :
    Closed cfg ((d, v) :: closes) l' := by
  have htrue := ((hc.close_iff hrun).mpr hfair).1
  obtain ⟨prior, hprior, rfl, hmade⟩ := closeSession_ok hrun
  obtain ⟨rfl, -, hp, -⟩ := closeRow_fields hmade
  refine ⟨writeSessionStatus_dates hc.dates, htrue, fun d' v' hlast => ?_⟩
  rw [List.lookup_cons] at hlast
  split at hlast
  next heq =>
    cases hlast
    obtain rfl := beq_iff_eq.mp heq
    refine ⟨row, mem_writeSessionStatus.mpr (.inr rfl), rfl, ?_⟩
    rw [hp]
    exact hmade
  next hne =>
    obtain ⟨r, hr, rfl, hrec⟩ := hc.made d' v' hlast
    exact ⟨r, mem_writeSessionStatus.mpr (.inl ⟨hr, by simpa using hne⟩), rfl, hrec⟩

/-! ## Every run -/

/-- What lies between two closes. The sweeps and reconciles write no row
here (`runTick_marked`, `reconcile_keepsMark`), and a sweep after a day's
close is not one of its session. -/
structure Between (l l' : Ledger) : Prop where
  rows : l'.sessionStatus = l.sessionStatus
  highs : ∀ r ∈ l.sessionStatus, l'.highsOn r.date = l.highsOn r.date

/-- The mark is seeded, and then days are closed, in any order and as often
as one likes, each close fair; the closes so far are kept, the last first. -/
inductive CloseRun (cfg : LoopSettings) (Adm : ∀ q, LoopAnswer q → Prop) :
    List (Date × ℚ) → Ledger → Prop where
  | seed {l l' : Ledger} {x : Except Exc SessionStatusRow} {h : LoopHistory} (recorded : ℚ)
      (on : Date) : l.latestSessionStatus = none →
      Runs Adm (seedHwm cfg recorded on) [] l x h l' → CloseRun cfg Adm [] l'
  | close {closes : List (Date × ℚ)} {l l' : Ledger} {row : SessionStatusRow} {h : LoopHistory}
      (d : Date) (v : ℚ) : CloseRun cfg Adm closes l → Fair closes l d v →
      Runs Adm (closeSession cfg d v) [] l (.ok row) h l' →
      CloseRun cfg Adm ((d, v) :: closes) l'
  | between {closes : List (Date × ℚ)} {l l' : Ledger} : CloseRun cfg Adm closes l →
      Between l l' → CloseRun cfg Adm closes l'

theorem Closed.between (hc : Closed cfg closes l) (hb : Between l l') : Closed cfg closes l' := by
  obtain ⟨hrows, hhighs⟩ := hb
  refine ⟨hrows ▸ hc.dates, ?_, fun d v hlast => ?_⟩
  · intro r hr
    rw [hrows] at hr
    refine ⟨fun b hb => (hc.rows r hr).1 b ⟨?_, hb.before, ?_⟩, (hc.rows r hr).2⟩
    · exact hrows ▸ hb.mem
    · exact fun x hx => hb.latest x (hrows ▸ hx)
  · obtain ⟨r, hr, rfl, hrec⟩ := hc.made d v hlast
    refine ⟨r, hrows ▸ hr, rfl, ?_⟩
    rw [hhighs r hr]
    exact hrec

/-- What seeding writes: a row that starts from its own mark. -/
theorem seedHwm_closed {recorded : ℚ} {on : Date} (hnone : l.latestSessionStatus = none)
    {x : Except Exc SessionStatusRow} (hrun : Runs Adm (seedHwm cfg recorded on) [] l x h l') :
    Closed cfg [] l' := by
  refine Always.runs (G := fun _ _ _ => True) (R := fun _ _ l' => Closed cfg [] l') ?_ hrun
  unfold seedHwm latestSessionStatus
  refine always_scan_bind (fun status hstatus => ?_) fun e he => by cases he
  cases hstatus
  rw [hnone]
  refine always_update_bind trivial ?_
  have hempty := Ledger.latest_none hnone
  have honly : ∀ {row r : SessionStatusRow}, r ∈ (l.writeSessionStatus row).sessionStatus →
      r = row := by
    intro row r hr
    rcases mem_writeSessionStatus.mp hr with ⟨hr, -⟩ | rfl
    · rw [hempty] at hr
      cases hr
    · rfl
  refine ⟨writeSessionStatus_dates (by rw [hempty]; exact List.nodup_nil), ?_,
    fun _ _ h => by cases h⟩
  intro r hr
  obtain rfl := honly hr
  refine ⟨fun b hb => ?_, ?_⟩
  · have hlt := hb.before
    rw [honly hb.mem] at hlt
    exact absurd hlt (lt_irrefl _)
  · simp

theorem CloseRun.closed (hrun : CloseRun cfg Adm closes l) : Closed cfg closes l := by
  induction hrun with
  | seed recorded on hnone hruns => exact seedHwm_closed hnone hruns
  | close d v _ hfair hruns ih => exact ih.close hfair hruns
  | between _ hb ih => exact ih.between hb

/-- **Closing is idempotent while it is fair**: in every state that fair
closes lead to, each row starts from the mark of the row before it and says
whether it raised it; and a further close keeps that, and changes nothing
where it repeats one, exactly if it is fair too. -/
theorem closes_idempotent (cfg : LoopSettings) (closes : List (Date × ℚ)) (l : Ledger)
    (hrun : CloseRun cfg AnyAnswer closes l) :
    RowsTrue l ∧ ∀ d v row h l', Runs AnyAnswer (closeSession cfg d v) [] l (.ok row) h l' →
      (RowsTrue l' ∧ Unchanged closes d v l l' ↔ Fair closes l d v) :=
  ⟨hrun.closed.rows, fun _ _ _ _ _ hclose => hrun.closed.close_iff hclose⟩

/-! ## When a close is fair -/

/-- A new day's close always is. -/
theorem Fair.newDay (hc : Closed cfg closes l) (hnew : ∀ r ∈ l.sessionStatus, r.date < d) :
    Fair closes l d v := by
  refine ⟨fun prior b hp hb => ?_, fun prior r hp hagain hr => ?_, fun prior hp r hr hlt => ?_⟩
  · have hmem := Ledger.latest_mem hp
    have hle := hb.latest prior hmem (hnew prior hmem)
    have heq := le_antisymm hle (Ledger.latest_max hb.mem hp)
    rw [List.inj_on_of_nodup_map hc.dates hmem hb.mem heq]
  · obtain ⟨hmem, rfl⟩ := (sessionStatusFor_iff hc.dates).mp hr
    exact absurd (hnew r hmem) (lt_irrefl _)
  · exact absurd (hnew r hr) (not_lt.mpr hlt.le)

/-- A repeat of the newest day is, exactly if that day's row did not raise
the mark. -/
theorem fair_again_iff (hc : Closed cfg closes l) (hp : l.latestSessionStatus = some prior)
    (hagain : closes.lookup prior.date = some v) :
    Fair closes l prior.date v ↔ prior.ratcheted = false := by
  have hmem := Ledger.latest_mem hp
  have hfor := (sessionStatusFor_iff hc.dates).mpr ⟨hmem, rfl⟩
  obtain ⟨r, hr, hdate, hrec⟩ := hc.made prior.date v hagain
  obtain rfl := List.inj_on_of_nodup_map hc.dates hr hmem hdate
  obtain ⟨-, hhwm, -, hsays⟩ := closeRow_fields hrec
  have hle : r.priorHwm ≤ r.hwm := hhwm ▸ le_max_left _ _
  rw [Bool.eq_false_iff, ne_eq, hsays]
  constructor
  · intro hfair
    rw [hfair.again r r hp hagain hfor]
    exact lt_irrefl _
  · intro hkept
    have hsame : r.priorHwm = r.hwm := le_antisymm hle (not_lt.mp hkept)
    refine ⟨fun p b hp' hb => ?_, fun p x hp' _ hx => ?_, fun p hp' x hx hlt => ?_⟩
    · cases hp.symm.trans hp'
      rw [← hsame]
      exact (hc.rows r hmem).1 b hb
    · cases hp.symm.trans hp'
      cases hfor.symm.trans hx
      exact hsame
    · exact absurd (Ledger.latest_max hx hp) (not_le.mpr hlt)

/-! ## A day that raised the mark, closed again -/

private def seededFriday : Ledger :=
  (ended (seedHwm engineSettings 10000 (dayNumber 2026 9 25)) unseeded).store

/-- Monday's close, at a value. -/
private def mondayClosed (v : ℚ) (l : Ledger) : Ledger :=
  (ended (closeSession engineSettings (dayNumber 2026 9 28) v) l).store

private theorem mondayClosed_runs {v : ℚ} (hv : 0 < v) (hp : l.latestSessionStatus.isSome = true) :
    ∃ row h, Runs AnyAnswer (closeSession engineSettings (dayNumber 2026 9 28) v) [] l (.ok row) h
      (mondayClosed v l) := by
  obtain ⟨x, h, hruns⟩ := ended_runs (closeSession engineSettings (dayNumber 2026 9 28) v) l
  obtain ⟨prior, hprior⟩ := Option.isSome_iff_exists.mp hp
  obtain ⟨row, rfl, -⟩ := closeSession_runs (k := 80 / 100) rfl hv hprior hruns
  exact ⟨row, h, hruns⟩

/-- Seeded at 10,000 and closed at 12,000, the day says it raised the mark;
closed at 12,000 again it says it did not, from a mark of 12,000. -/
theorem closes_raised : ¬ ∀ cfg recorded on closes l,
    MarkRun cfg AnyAnswer recorded on closes l → RowsTrue l ∧ ∀ d v row h l',
      Runs AnyAnswer (closeSession cfg d v) [] l (.ok row) h l' →
        Unchanged closes.reverse d v l l' := by
  intro hclaim
  obtain ⟨_, _, hseed⟩ := ended_runs (seedHwm engineSettings 10000 (dayNumber 2026 9 25)) unseeded
  obtain ⟨_, _, hclose⟩ := mondayClosed_runs (v := 12000) (l := seededFriday) (by decide +kernel)
    (by decide +kernel)
  obtain ⟨_, _, hagain⟩ := mondayClosed_runs (v := 12000) (l := mondayClosed 12000 seededFriday)
    (by decide +kernel) (by decide +kernel)
  have hsame := (hclaim engineSettings 10000 (dayNumber 2026 9 25) _ _
    ((MarkRun.seed rfl hseed).close _ _ hclose)).2 _ _ _ _ _ hagain rfl
  revert hsame
  decide +kernel

/-- Closed at 9,000 it raised nothing, and closing it again is fair. -/
theorem closes_lower : RowsTrue (mondayClosed 9000 seededFriday) ∧
    ∀ row h l', Runs AnyAnswer (closeSession engineSettings (dayNumber 2026 9 28) 9000) []
      (mondayClosed 9000 seededFriday) (.ok row) h l' →
      l'.sessionStatusFor (dayNumber 2026 9 28) =
        (mondayClosed 9000 seededFriday).sessionStatusFor (dayNumber 2026 9 28) := by
  obtain ⟨_, _, hseed⟩ := ended_runs (seedHwm engineSettings 10000 (dayNumber 2026 9 25)) unseeded
  have hseeded : CloseRun engineSettings AnyAnswer [] seededFriday := .seed 10000 _ rfl hseed
  obtain ⟨_, _, hclose⟩ := mondayClosed_runs (v := 9000) (l := seededFriday) (by decide +kernel)
    (by decide +kernel)
  have hrun := hseeded.close _ _ (.newDay hseeded.closed (by decide +kernel)) hclose
  obtain ⟨htrue, hiff⟩ := closes_idempotent engineSettings _ _ hrun
  refine ⟨htrue, fun row h l' hagain => ((hiff _ _ _ _ _ hagain).mpr ?_).2 rfl⟩
  obtain ⟨prior, hp, hdate, hkept⟩ : ∃ prior,
      (mondayClosed 9000 seededFriday).latestSessionStatus = some prior ∧
        prior.date = dayNumber 2026 9 28 ∧ prior.ratcheted = false := by
    refine ⟨⟨dayNumber 2026 9 28, 9000, 10000, 8000, -10, .ok, 10000, false, none⟩, ?_, rfl, rfl⟩
    decide +kernel
  rw [← hdate] at hrun ⊢
  exact (fair_again_iff hrun.closed hp (by rw [List.lookup_cons_self])).mpr hkept

end TradeDesk.Loops
