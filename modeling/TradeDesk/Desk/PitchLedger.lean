import TradeDesk.Desk.Run
import Mathlib.Data.List.Nodup
import Mathlib.Order.Bounds.Basic

/-!
# The ledger of pitches

`submit_pitch`, `withdraw_pitch` and the scoring passes, one after another
under a clock that never goes back, with the rest of the engine at work in
between: it may change anything but the pitches, their withdrawals and
their resolutions, and it stores a session's bar only once that session
has opened.

What a statement can do to the three tables is said once (`PitchWrite`),
and `PitchInv` is kept by each. Two of its fields do the work. `reached`:
a pitch is only resolved when its session has opened, because `resolve`
looks for an SPY bar of it; so the cut-off of a withdrawal comes first.
`filed`: a session is the next to open after the filing, since an open is
past exactly when the date and the time of day of the instant are.
-/

namespace TradeDesk.Desk

open TradeDesk.Async

/-! ## Runs -/

inductive PitchOp where
  | submit (analyst : Analyst) (pin : PitchIn) (now : Instant) (last : ℚ)
      (tradeable : List String) (cal : Calendar)
  | withdraw (analyst : Analyst) (pitchId : ℕ) (now : Instant)
  | score

namespace PitchOp

def prog (cfg : Settings) : PitchOp → DeskM Unit
  | submit analyst pin now last tradeable cal => do
    let _ ← submitPitch cfg analyst pin now last tradeable cal
  | withdraw analyst pitchId now => withdrawPitch cfg analyst pitchId now
  | score => do let _ ← Desk.score

/-- The operation reads this clock, if any. -/
def At (o : PitchOp) (clock : Instant) : Prop :=
  match o with
  | submit _ _ now _ _ _ => now = clock
  | withdraw _ _ now => now = clock
  | score => True

end PitchOp

/-- The open of a session. -/
def openOf (et : Zone) (d : Date) : Instant := et.combine d sessionOpen

/-- The rest of the engine at work: the pitches and what became of them are
left alone, and a bar that is new is of a session that has opened. -/
structure Elsewhere (et : Zone) (clock : Instant) (s s' : Store) : Prop where
  pitches : s'.pitches = s.pitches
  withdrawals : s'.pitchWithdrawals = s.pitchWithdrawals
  resolved : ∀ id, s'.resolved .pitch id = s.resolved .pitch id
  bars : ∀ b ∈ s'.bars, b ∈ s.bars ∨ openOf et b.2.date ≤ clock

/-- Nothing filed yet, and no bar of a session still to open. -/
structure NoPitches (et : Zone) (clock : Instant) (s : Store) : Prop where
  pitches : s.pitches = []
  withdrawals : s.pitchWithdrawals = []
  resolved : ∀ id, s.resolved .pitch id = false
  bars : ∀ b ∈ s.bars, openOf et b.2.date ≤ clock

/-- Operations one after another, each to its end, the clock never back. The
log keeps them, most recent first. -/
inductive PitchRun (cfg : Settings) : List PitchOp → Instant → Store → Prop
  | start {clock : Instant} {s : Store} : NoPitches cfg.et clock s → PitchRun cfg [] clock s
  | op {log : List PitchOp} {clock clock' : Instant} {s s' : Store} {r : Except Exc Unit}
      {h : History} (o : PitchOp) : PitchRun cfg log clock s → clock ≤ clock' → o.At clock' →
      Runs AnyAnswer (o.prog cfg) [] s r h s' → PitchRun cfg (o :: log) clock' s'
  | elsewhere {log : List PitchOp} {clock clock' : Instant} {s s' : Store} :
      PitchRun cfg log clock s → clock ≤ clock' → Elsewhere cfg.et clock' s s' →
      PitchRun cfg log clock' s'

/-- The pitches as anybody may find them: between two operations, or in the
middle of the last. -/
def PitchReached (cfg : Settings) (log : List PitchOp) (s : Store) : Prop :=
  (∃ clock, PitchRun cfg log clock s) ∨
    ∃ o before clock clock' s₀ p h, log = o :: before ∧ PitchRun cfg before clock s₀ ∧
      clock ≤ clock' ∧ o.At clock' ∧
      Steps AnyAnswer ⟨PitchOp.prog cfg o, [], s₀⟩ ⟨p, h, s⟩

/-! ## What holds of the ledger -/

/-- The cap of a run; without the rule nothing can be filed. -/
def runCap (cfg : Settings) (mode : RunMode) : ℕ :=
  match cfg.rules.getInt .strategy mode.capKey with
  | .ok cap => cap.toNat
  | .error _ => 0

/-- Filed in this run of that Eastern date: after the close, or before the
open. -/
def FiledIn (et : Zone) (mode : RunMode) (d : Date) (filedAt : Instant) : Prop :=
  et.date filedAt = d ∧ match mode with
    | .evening => sessionClose ≤ et.time filedAt
    | .preopen => et.time filedAt < sessionOpen

instance (et : Zone) (mode : RunMode) (d : Date) (filedAt : Instant) :
    Decidable (FiledIn et mode d filedAt) := by
  unfold FiledIn
  cases mode <;> infer_instance

/-- How many of an analyst's pitches are of this run. -/
def filings (et : Zone) (s : Store) (analyst : Analyst) (mode : RunMode) (d : Date) : ℕ :=
  s.pitches.countP fun p => p.analyst == analyst && decide (FiledIn et mode d p.filedAt)

/-- The session is the first trading day whose open is after the filing, by
the calendar the pitch was filed with. -/
def FirstAfter (et : Zone) (log : List PitchOp) (p : Pitch) : Prop :=
  ∃ pin last tradeable cal, .submit p.analyst pin p.filedAt last tradeable cal ∈ log ∧
    IsLeast {d | cal.isTradingDay d = true ∧ p.filedAt < openOf et d} p.session

/-- The four things the ledger of pitches promises. -/
structure PitchLedger (cfg : Settings) (log : List PitchOp) (s : Store) : Prop where
  caps : ∀ analyst mode d, filings cfg.et s analyst mode d ≤ runCap cfg mode
  oneOpen : ∀ analyst symbol direction, (s.openPitchesOn analyst symbol direction).length ≤ 1
  notBoth : ∀ id, ¬ (id ∈ s.pitchWithdrawals ∧ s.resolved .pitch id = true)
  session : ∀ p ∈ s.pitches, FirstAfter cfg.et log p

/-- What the runs keep: the promises, and what they rest on. -/
structure PitchInv (cfg : Settings) (log : List PitchOp) (clock : Instant) (s : Store) : Prop
    extends PitchLedger cfg log s where
  nodup : (s.pitches.map (·.id)).Nodup
  reached : ∀ id, s.resolved .pitch id = true →
    ∃ p ∈ s.pitches, p.id = id ∧ openOf cfg.et p.session ≤ clock
  bars : ∀ b ∈ s.bars, openOf cfg.et b.2.date ≤ clock

/-! ## What a statement does -/

/-- Each write of an operation, with what was checked before it. -/
inductive PitchWrite (cfg : Settings) : PitchOp → Store → Store → Prop
  | file {pin : PitchIn} {last : ℚ} {tradeable : List String} {cal : Calendar} {a : Store}
      (row : NewPitch) {start : Instant} {mode : RunMode} {cap : ℤ} :
      runWindow cfg.et row.filedAt = .ok (start, mode) →
      cfg.rules.getInt .strategy mode.capKey = .ok cap →
      (a.filedSince row.analyst start : ℤ) < cap →
      a.openPitchesOn row.analyst row.symbol row.direction = [] →
      row.session = referenceSession cfg.et cal row.filedAt →
      PitchWrite cfg (.submit row.analyst pin row.filedAt last tradeable cal) a (a.addPitch row)
  | withdraw {analyst : Analyst} {now : Instant} {a : Store} (p : Pitch) :
      p ∈ a.pitches → p.id ∉ a.pitchWithdrawals → now < openOf cfg.et p.session →
      PitchWrite cfg (.withdraw analyst p.id now) a
        { a with pitchWithdrawals := a.pitchWithdrawals ++ [p.id] }
  | resolve {a : Store} (r : Resolution) :
      (r.kind = .pitch → r.itemId ∉ a.pitchWithdrawals ∧
        ∃ p ∈ a.pitches, p.id = r.itemId ∧ ∃ b ∈ a.bars, p.session ≤ b.2.date) →
      PitchWrite cfg .score a (a.addResolution r)

section

variable {cfg : Settings} {s : Store} {h : History}

theorem submitPitch_spec {analyst : Analyst} {pin : PitchIn} {now : Instant} {last : ℚ}
    {tradeable : List String} {cal : Calendar} :
    Always AnyAnswer (fun _ => PitchWrite cfg (.submit analyst pin now last tradeable cal))
      (fun _ _ _ => True) (submitPitch cfg analyst pin now last tradeable cal) h s := by
  unfold submitPitch
  refine always_check_bind (fun _ _ => ?_) fun _ _ => trivial
  refine always_check_bind (fun benchmark _ => ?_) fun _ _ => trivial
  refine always_check_bind (fun _ _ => ?_) fun _ _ => trivial
  refine always_check_bind (fun target _ => ?_) fun _ _ => trivial
  refine always_check_bind (fun invalidation _ => ?_) fun _ _ => trivial
  refine always_check_bind (fun _ _ => ?_) fun _ _ => trivial
  refine always_check_bind (fun window hwindow => ?_) fun _ _ => trivial
  obtain ⟨start, mode⟩ := window
  refine always_check_bind (fun cap hcap => ?_) fun _ _ => trivial
  refine always_scan_bind (fun filed hfiled => ?_) fun _ _ => trivial
  obtain rfl : s.filedSince analyst start = filed := Except.ok.inj hfiled
  refine always_check_bind (fun _ hroom => ?_) fun _ _ => trivial
  have hroom' : (s.filedSince analyst start : ℤ) < cap := not_le.mp (refuseIf_ok hroom)
  refine always_scan_bind (fun dups hdups => ?_) fun _ _ => trivial
  obtain rfl := Except.ok.inj hdups
  split
  · trivial
  next hnone =>
    refine always_transact_bind ?_ trivial
    exact .file (⟨analyst, now, referenceSession cfg.et cal now, cfg.upper (strip pin.symbol),
      pin.direction, target, invalidation, pin.horizonDays, pin.conviction, benchmark⟩ : NewPitch)
      hwindow hcap hroom' hnone rfl

theorem withdrawPitch_spec {analyst : Analyst} {pitchId : ℕ} {now : Instant} :
    Always AnyAnswer (fun _ => PitchWrite cfg (.withdraw analyst pitchId now))
      (fun _ _ _ => True) (withdrawPitch cfg analyst pitchId now) h s := by
  unfold withdrawPitch
  refine always_scan_bind (fun found hfound => ?_) fun _ _ => trivial
  cases found with
  | none => trivial
  | some pw =>
    obtain ⟨p, hp, hpw⟩ := Option.map_eq_some_iff.mp (Except.ok.inj hfound)
    cases hpw
    have hid : p.id = pitchId := by simpa using List.find?_some hp
    dsimp only
    split
    · trivial
    next hopen =>
      split
      · trivial
      next htime =>
        have hnot : p.id ∉ s.pitchWithdrawals := fun hmem =>
          hopen (.inr (List.contains_iff_mem.mpr hmem))
        subst hid
        have hadd : s.addWithdrawal p.id =
            .ok { s with pitchWithdrawals := s.pitchWithdrawals ++ [p.id] } := if_neg hnot
        exact always_tryUpdate hadd
          (.withdraw p (List.mem_of_find?_eq_some hp) hnot (not_le.mp htime)) trivial

/-- Items still to score: the pitches among them are open. -/
def ScoringPitches (items : List Item) (s : Store) : Prop :=
  ∀ item ∈ items, item.kind = .pitch → item.itemId ∉ s.pitchWithdrawals ∧
    ∃ p ∈ s.pitches, p.id = item.itemId ∧ p.session = item.session

theorem ScoringPitches.tail {item : Item} {items : List Item}
    (hi : ScoringPitches (item :: items) s) : ScoringPitches items s :=
  fun it hit => hi it (List.mem_cons_of_mem item hit)

theorem loadOpenItems_pitches {items : List Item} (hl : loadOpenItems.eval s = .ok items) :
    ScoringPitches items s := by
  obtain ⟨pitches, hpitches, hl⟩ := Reads.eval_bind_ok hl
  obtain ⟨calls, _, hl⟩ := Reads.eval_bind_ok hl
  cases hl
  intro item hitem hkind
  rcases List.mem_append.mp hitem with hitem | hitem
  · obtain ⟨p, hp, rfl⟩ := List.mem_map.mp hitem
    rw [← Except.ok.inj hpitches] at hp
    obtain ⟨hmem, hopen⟩ := List.mem_filter.mp hp
    refine ⟨?_, p, hmem, rfl, rfl⟩
    intro hw
    have hw' : s.pitchWithdrawals.contains p.id = true := List.contains_iff_mem.mpr hw
    rw [hw'] at hopen
    cases hopen
  · obtain ⟨c, _, rfl⟩ := List.mem_map.mp hitem
    cases hkind

theorem score_pitches :
    Always AnyAnswer (fun _ => PitchWrite cfg .score) (fun _ _ _ => True) score h s := by
  refine always_score (I := fun _ items _ s' => ScoringPitches items s') (fun _ => trivial)
    (fun _ _ hl _ => loadOpenItems_pitches hl) ?_ (fun _ _ _ _ _ => trivial)
  intro earliest item items h s' hbars hi
  cases hres : scoredOn s earliest item with
  | error e => trivial
  | ok res =>
    cases res with
    | none => exact hi.tail
    | some r =>
      obtain ⟨hkind, hid⟩ := resolve_item hres
      obtain ⟨b, hb, hsession⟩ := resolve_session hres
      obtain ⟨_, hpitches, hwithdrawn⟩ := s'.addResolution_keeps r
      refine .resolved (fun _ => ⟨.resolve r fun hk => ?_, ?_⟩) hi.tail
      · obtain ⟨hnot, p, hp, hpid, hps⟩ := hi item List.mem_cons_self (hkind.symm.trans hk)
        rw [hid, hbars]
        exact ⟨hnot, p, hp, hpid, _, (Store.mem_barsFor.mp hb).1, hps ▸ hsession⟩
      · unfold ScoringPitches
        rw [hpitches, hwithdrawn]
        exact hi.tail

theorem PitchOp.spec (o : PitchOp) :
    Always AnyAnswer (fun _ => PitchWrite cfg o) (fun _ _ _ => True) (o.prog cfg) h s := by
  cases o with
  | submit analyst pin now last tradeable cal =>
    exact submitPitch_spec.bind (fun _ _ _ _ => trivial) fun _ _ _ _ => trivial
  | withdraw analyst pitchId now => exact withdrawPitch_spec
  | score => exact score_pitches.bind (fun _ _ _ _ => trivial) fun _ _ _ _ => trivial


end

/-! ## The clock -/

section

variable {et : Zone} {cal : Calendar}

/-- An open is past exactly when the wall clock says so. -/
theorem openOf_le (hz : et.Lawful) {d : Date} {i : Instant} :
    openOf et d ≤ i ↔ d < et.date i ∨ d = et.date i ∧ sessionOpen ≤ et.time i :=
  hz.combine_le d sessionOpen i (by decide) (by decide) (.inr (by decide))

theorem openOf_mono (hz : et.Lawful) {d d' : Date} (h : d ≤ d') : openOf et d ≤ openOf et d' := by
  rw [openOf_le hz]
  rcases (openOf_le hz).mp (le_refl (openOf et d')) with hlt | ⟨heq, htime⟩
  · exact .inl (lt_of_le_of_lt h hlt)
  · rcases lt_or_eq_of_le h with hlt | rfl
    · exact .inl (heq ▸ hlt)
    · exact .inr ⟨heq, htime⟩

theorem lt_openOf (hz : et.Lawful) {d : Date} {i : Instant} :
    i < openOf et d ↔ et.date i < d ∨ d = et.date i ∧ et.time i < sessionOpen := by
  rw [← not_le, openOf_le hz]
  constructor
  · intro h
    rcases lt_trichotomy d (et.date i) with hlt | heq | hgt
    · exact absurd (.inl hlt) h
    · exact .inr ⟨heq, not_le.mp fun ht => h (.inr ⟨heq, ht⟩)⟩
    · exact .inl hgt
  · rintro (hgt | ⟨heq, ht⟩) (hlt | ⟨heq', ht'⟩)
    · exact absurd hlt (not_lt.mpr hgt.le)
    · exact absurd heq' (ne_of_gt hgt)
    · exact absurd heq (ne_of_lt hlt)
    · exact absurd ht' (not_le.mpr ht)

theorem Calendar.next_isLeast (d : Date) :
    IsLeast {d' | cal.isTradingDay d' = true ∧ d ≤ d'} (cal.next d) := by
  refine ⟨⟨Nat.find_spec (cal.recurs d), ?_⟩, ?_⟩
  · exact Int.le_add_of_nonneg_right (Int.natCast_nonneg _)
  · rintro d' ⟨htrading, hle⟩
    obtain ⟨n, hn⟩ := Int.le.dest hle
    subst hn
    have hfind : Nat.find (cal.recurs d) ≤ n := Nat.find_min' _ htrading
    exact Int.add_le_add_left (Int.ofNat_le.mpr hfind) d

/-- **The reference session is the first trading day whose open is after
the filing.** -/
theorem referenceSession_isLeast (hz : et.Lawful) (i : Instant) :
    IsLeast {d | cal.isTradingDay d = true ∧ i < openOf et d} (referenceSession et cal i) := by
  unfold referenceSession
  dsimp only
  split
  next htoday =>
    refine ⟨⟨htoday.2, (lt_openOf hz).mpr (.inr ⟨rfl, htoday.1⟩)⟩, ?_⟩
    rintro d ⟨_, hd⟩
    rcases (lt_openOf hz).mp hd with hlt | ⟨rfl, _⟩
    · exact hlt.le
    · exact le_refl _
  next htoday =>
    have hnext := @Calendar.next_isLeast cal (et.date i + 1)
    refine ⟨⟨hnext.1.1, (lt_openOf hz).mpr (.inl (Int.lt_of_add_one_le hnext.1.2))⟩, ?_⟩
    rintro d ⟨htrading, hd⟩
    refine hnext.2 ⟨htrading, ?_⟩
    rcases (lt_openOf hz).mp hd with hlt | ⟨rfl, htime⟩
    · exact hlt
    · exact absurd ⟨htime, htrading⟩ htoday

/-- The run of a filing began before every filing of that run. -/
theorem runWindow_start (hz : et.Lawful) {i : Instant} {start : Instant} {mode : RunMode}
    (h : runWindow et i = .ok (start, mode)) :
    ∀ j, FiledIn et mode (et.date i) j → start ≤ j := by
  unfold runWindow at h
  split at h
  · cases h
    rintro j ⟨hdate, htime⟩
    exact (hz.combine_le _ _ _ (by decide) (by decide) (.inr (by decide))).mpr
      (.inr ⟨hdate.symm, htime⟩)
  · split at h
    · cases h
      rintro j ⟨hdate, _⟩
      exact (hz.combine_le _ _ _ (by decide) (by decide) (.inl (by decide))).mpr
        (.inr ⟨hdate.symm, hz.time_nonneg j⟩)
    · cases h

/-- A filing is of one run. -/
theorem runWindow_mode {i : Instant} {start : Instant} {mode mode' : RunMode} {d : Date}
    (h : runWindow et i = .ok (start, mode)) (hf : FiledIn et mode' d i) : mode' = mode := by
  have hlt : sessionOpen < sessionClose := by decide
  obtain ⟨_, htime⟩ := hf
  unfold runWindow at h
  split at h
  next hclose =>
    cases h
    cases mode' with
    | evening => rfl
    | preopen => exact absurd htime (not_lt.mpr (hlt.le.trans hclose))
  next hclose =>
    split at h
    · cases h
      cases mode' with
      | evening => exact absurd htime hclose
      | preopen => rfl
    · cases h

end

/-! ## Every statement keeps the ledger -/

section

variable {cfg : Settings} {log log' : List PitchOp} {clock clock' : Instant} {o : PitchOp}
variable {a b : Store}

theorem FirstAfter.mono {et : Zone} {p : Pitch} (h : FirstAfter et log p) (hsub : log ⊆ log') :
    FirstAfter et log' p := by
  obtain ⟨pin, last, tradeable, cal, hmem, hleast⟩ := h
  exact ⟨pin, last, tradeable, cal, hsub hmem, hleast⟩

theorem PitchInv.later (hi : PitchInv cfg log clock a) (hsub : log ⊆ log')
    (hclock : clock ≤ clock') : PitchInv cfg log' clock' a where
  caps := hi.caps
  oneOpen := hi.oneOpen
  notBoth := hi.notBoth
  session p hp := (hi.session p hp).mono hsub
  nodup := hi.nodup
  reached id hid := by
    obtain ⟨p, hp, hpid, hopen⟩ := hi.reached id hid
    exact ⟨p, hp, hpid, hopen.trans hclock⟩
  bars bar hbar := (hi.bars bar hbar).trans hclock

/-- A pitch on file is known by its id. -/
theorem PitchInv.unique (hi : PitchInv cfg log clock a) {p q : Pitch} (hp : p ∈ a.pitches)
    (hq : q ∈ a.pitches) (hid : p.id = q.id) : p = q :=
  List.inj_on_of_nodup_map hi.nodup hp hq hid

theorem filings_addPitch (et : Zone) (row : NewPitch) (analyst : Analyst) (mode : RunMode)
    (d : Date) : filings et (a.addPitch row) analyst mode d = filings et a analyst mode d +
      if row.analyst = analyst ∧ FiledIn et mode d row.filedAt then 1 else 0 := by
  unfold filings Store.addPitch
  rw [List.countP_append, List.countP_singleton]
  congr 1
  by_cases hrow : row.analyst = analyst ∧ FiledIn et mode d row.filedAt
  · rw [if_pos hrow, if_pos (by simp [hrow.1, hrow.2])]
  · rw [if_neg hrow, if_neg (by simpa using hrow)]

/-- What a run holds is no more than what was filed since it began. -/
theorem filings_le (hz : cfg.et.Lawful) {i start : Instant} {mode : RunMode}
    (h : runWindow cfg.et i = .ok (start, mode)) (analyst : Analyst) :
    filings cfg.et a analyst mode (cfg.et.date i) ≤ a.filedSince analyst start := by
  refine List.countP_mono_left fun p _ hp => ?_
  simp only [Bool.and_eq_true, beq_iff_eq, decide_eq_true_eq] at hp ⊢
  exact ⟨hp.1, runWindow_start hz h _ hp.2⟩

theorem runCap_of_ok {mode : RunMode} {cap : ℤ}
    (h : cfg.rules.getInt .strategy mode.capKey = .ok cap) : runCap cfg mode = cap.toNat := by
  unfold runCap
  rw [h]

theorem openPitchesOn_addPitch (row : NewPitch) (analyst : Analyst) (symbol : String)
    (direction : Direction) :
    (a.addPitch row).openPitchesOn analyst symbol direction =
      a.openPitchesOn analyst symbol direction ∨
    (row.analyst = analyst ∧ row.symbol = symbol ∧ row.direction = direction ∧
      ((a.addPitch row).openPitchesOn analyst symbol direction).length ≤
        (a.openPitchesOn analyst symbol direction).length + 1) := by
  have happ : (a.addPitch row).openPitchesOn analyst symbol direction =
      a.openPitchesOn analyst symbol direction ++
        [({ toNewPitch := row, id := nextId (a.pitches.map (·.id)) } : Pitch)].filter fun p =>
          p.analyst == analyst && p.symbol == symbol && p.direction == direction &&
            a.pitchOpen p.id := List.filter_append ..
  by_cases hkey : row.analyst = analyst ∧ row.symbol = symbol ∧ row.direction = direction
  · refine .inr ⟨hkey.1, hkey.2.1, hkey.2.2, ?_⟩
    rw [happ, List.length_append]
    exact Nat.add_le_add_left (List.length_filter_le _ _) _
  · refine .inl ?_
    rw [happ, List.filter_cons_of_neg, List.filter_nil, List.append_nil]
    intro hall
    simp only [Bool.and_eq_true, beq_iff_eq] at hall
    exact hkey ⟨hall.1.1.1, hall.1.1.2, hall.1.2⟩

/-- Closing pitches leaves no more of them open. -/
theorem openPitchesOn_le (hpitches : b.pitches = a.pitches)
    (hopen : ∀ id, b.pitchOpen id = true → a.pitchOpen id = true) (analyst : Analyst)
    (symbol : String) (direction : Direction) :
    (b.openPitchesOn analyst symbol direction).length ≤
      (a.openPitchesOn analyst symbol direction).length := by
  unfold Store.openPitchesOn
  rw [hpitches]
  refine (List.monotone_filter_right _ fun p hp => ?_).length_le
  simp only [Bool.and_eq_true] at hp ⊢
  exact ⟨hp.1, hopen _ hp.2⟩

theorem pitchOpen_iff {id : ℕ} :
    a.pitchOpen id = true ↔ id ∉ a.pitchWithdrawals ∧ a.resolved .pitch id = false := by
  unfold Store.pitchOpen
  simp

theorem resolved_addResolution {r : Resolution} {id : ℕ}
    (h : (a.addResolution r).resolved .pitch id = true) :
    a.resolved .pitch id = true ∨ r.kind = .pitch ∧ r.itemId = id := by
  unfold Store.addResolution at h
  split at h
  · exact .inl h
  · unfold Store.resolved Store.withResolution at h
    rw [List.any_append, Bool.or_eq_true] at h
    rcases h with hold | hnew
    · exact .inl hold
    · simp only [List.any_cons, List.any_nil, Bool.or_false, Bool.and_eq_true, beq_iff_eq] at hnew
      exact .inr hnew

theorem resolved_mono {r : Resolution} {k : ItemKind} {id : ℕ} (h : a.resolved k id = true) :
    (a.addResolution r).resolved k id = true := by
  unfold Store.addResolution
  split
  · exact h
  · unfold Store.resolved Store.withResolution at *
    rw [List.any_append, h]
    rfl

theorem PitchInv.file (hz : cfg.et.Lawful) (hi : PitchInv cfg log clock a) {pin : PitchIn}
    {last : ℚ} {tradeable : List String} {cal : Calendar} {row : NewPitch} {start : Instant}
    {mode : RunMode} {cap : ℤ} (hrun : runWindow cfg.et row.filedAt = .ok (start, mode))
    (hcap : cfg.rules.getInt .strategy mode.capKey = .ok cap)
    (hroom : (a.filedSince row.analyst start : ℤ) < cap)
    (hnone : a.openPitchesOn row.analyst row.symbol row.direction = [])
    (hsession : row.session = referenceSession cfg.et cal row.filedAt)
    (hlog : .submit row.analyst pin row.filedAt last tradeable cal ∈ log) :
    PitchInv cfg log clock (a.addPitch row) where
  caps analyst mode' d := by
    rw [filings_addPitch]
    by_cases hnew : row.analyst = analyst ∧ FiledIn cfg.et mode' d row.filedAt
    · rw [if_pos hnew]
      obtain ⟨rfl, hfiled⟩ := hnew
      obtain rfl := runWindow_mode hrun hfiled
      obtain rfl := hfiled.1
      have hle := filings_le (a := a) hz hrun row.analyst
      rw [runCap_of_ok hcap]
      omega
    · rw [if_neg hnew]
      exact hi.caps analyst mode' d
  oneOpen analyst symbol direction := by
    rcases openPitchesOn_addPitch (a := a) row analyst symbol direction with hsame | hkey
    · rw [hsame]
      exact hi.oneOpen analyst symbol direction
    · obtain ⟨rfl, rfl, rfl, hlen⟩ := hkey
      rw [hnone] at hlen
      exact hlen
  notBoth := hi.notBoth
  session p hp := by
    rcases List.mem_append.mp hp with hold | hnew
    · exact hi.session p hold
    · obtain rfl := List.mem_singleton.mp hnew
      refine ⟨pin, last, tradeable, cal, hlog, ?_⟩
      show IsLeast _ row.session
      rw [hsession]
      exact referenceSession_isLeast hz row.filedAt
  nodup := by
    unfold Store.addPitch
    rw [List.map_append, List.nodup_append]
    refine ⟨hi.nodup, List.nodup_singleton _, ?_⟩
    intro i hi' j hj hij
    obtain rfl := List.mem_singleton.mp hj
    exact nextId_not_mem _ (hij ▸ hi')
  reached id hid := by
    obtain ⟨p, hp, hpid, hopen⟩ := hi.reached id hid
    exact ⟨p, List.mem_append_left _ hp, hpid, hopen⟩
  bars := hi.bars

theorem PitchInv.withdraw (hi : PitchInv cfg log clock a) {p : Pitch} (hp : p ∈ a.pitches)
    (hbefore : clock < openOf cfg.et p.session) :
    PitchInv cfg log clock { a with pitchWithdrawals := a.pitchWithdrawals ++ [p.id] } where
  caps := hi.caps
  oneOpen analyst symbol direction := by
    refine Nat.le_trans (openPitchesOn_le (a := a) ?_ (fun id hid => ?_) _ _ _)
      (hi.oneOpen analyst symbol direction)
    · rfl
    obtain ⟨hnot, hres⟩ := pitchOpen_iff.mp hid
    exact pitchOpen_iff.mpr ⟨fun h => hnot (List.mem_append_left _ h), hres⟩
  notBoth id hboth := by
    obtain ⟨hw, hres⟩ := hboth
    rcases List.mem_append.mp hw with hold | hnew
    · exact hi.notBoth id ⟨hold, hres⟩
    · -- the session of a resolved pitch has opened, so it is too late to withdraw
      obtain rfl := List.mem_singleton.mp hnew
      obtain ⟨q, hq, hqid, hopen⟩ := hi.reached p.id hres
      obtain rfl := hi.unique hq hp hqid
      exact absurd hopen (not_le.mpr hbefore)
  session := hi.session
  nodup := hi.nodup
  reached := hi.reached
  bars := hi.bars

theorem PitchInv.resolve (hz : cfg.et.Lawful) (hi : PitchInv cfg log clock a) {r : Resolution}
    (hr : r.kind = .pitch → r.itemId ∉ a.pitchWithdrawals ∧
      ∃ p ∈ a.pitches, p.id = r.itemId ∧ ∃ b ∈ a.bars, p.session ≤ b.2.date) :
    PitchInv cfg log clock (a.addResolution r) := by
  obtain ⟨hbars, hpitches, hwithdrawn⟩ := a.addResolution_keeps r
  refine ⟨⟨?_, ?_, ?_, ?_⟩, ?_, ?_, ?_⟩
  · intro analyst mode d
    unfold filings
    rw [hpitches]
    exact hi.caps analyst mode d
  · intro analyst symbol direction
    refine (openPitchesOn_le hpitches (fun id hid => ?_) _ _ _).trans
      (hi.oneOpen analyst symbol direction)
    obtain ⟨hnot, hres⟩ := pitchOpen_iff.mp hid
    refine pitchOpen_iff.mpr ⟨hwithdrawn ▸ hnot, ?_⟩
    by_contra hold
    rw [resolved_mono (Bool.not_eq_false _ ▸ hold)] at hres
    cases hres
  · rintro id ⟨hw, hres⟩
    rw [hwithdrawn] at hw
    rcases resolved_addResolution hres with hold | ⟨hkind, rfl⟩
    · exact hi.notBoth id ⟨hw, hold⟩
    · exact (hr hkind).1 hw
  · rw [hpitches]
    exact hi.session
  · rw [hpitches]
    exact hi.nodup
  · intro id hid
    rw [hpitches]
    rcases resolved_addResolution hid with hold | ⟨hkind, rfl⟩
    · exact hi.reached id hold
    · obtain ⟨_, p, hp, hpid, b, hb, hle⟩ := hr hkind
      exact ⟨p, hp, hpid, (openOf_mono hz hle).trans (hi.bars b hb)⟩
  · rw [hbars]
    exact hi.bars

/-- **Every statement of an operation keeps the ledger.** -/
theorem PitchInv.write (hz : cfg.et.Lawful) (hi : PitchInv cfg log clock a) (hat : o.At clock)
    (hlog : o ∈ log) (hw : PitchWrite cfg o a b) : PitchInv cfg log clock b := by
  cases hw with
  | file row hrun hcap hroom hnone hsession =>
    exact hi.file hz hrun hcap hroom hnone hsession hlog
  | withdraw p hp _ hbefore =>
    obtain rfl : _ = clock := hat
    exact hi.withdraw hp hbefore
  | resolve r hr => exact hi.resolve hz hr

theorem PitchInv.elsewhere (hi : PitchInv cfg log clock a) (hw : Elsewhere cfg.et clock a b) :
    PitchInv cfg log clock b where
  caps analyst mode d := by
    unfold filings
    rw [hw.pitches]
    exact hi.caps analyst mode d
  oneOpen analyst symbol direction := by
    refine (openPitchesOn_le hw.pitches (fun id hid => ?_) _ _ _).trans
      (hi.oneOpen analyst symbol direction)
    rw [pitchOpen_iff, hw.withdrawals, hw.resolved] at hid
    exact pitchOpen_iff.mpr hid
  notBoth id := by
    rw [hw.withdrawals, hw.resolved]
    exact hi.notBoth id
  session := by
    rw [hw.pitches]
    exact hi.session
  nodup := by
    rw [hw.pitches]
    exact hi.nodup
  reached id := by
    rw [hw.resolved, hw.pitches]
    exact hi.reached id
  bars bar hbar := (hw.bars bar hbar).elim (hi.bars bar) fun h => h

theorem NoPitches.inv (hn : NoPitches cfg.et clock a) : PitchInv cfg [] clock a where
  caps analyst mode d := by
    unfold filings
    rw [hn.pitches]
    exact Nat.zero_le _
  oneOpen analyst symbol direction := by
    unfold Store.openPitchesOn
    rw [hn.pitches]
    exact Nat.zero_le _
  notBoth id hboth := by
    rw [hn.resolved] at hboth
    cases hboth.2
  session p hp := by
    rw [hn.pitches] at hp
    cases hp
  nodup := by
    rw [hn.pitches]
    exact List.nodup_nil
  reached id hid := by
    rw [hn.resolved] at hid
    cases hid
  bars := hn.bars

/-- In the middle of an operation, and at its end. -/
theorem PitchInv.steps (hz : cfg.et.Lawful) (hi : PitchInv cfg log clock a)
    (hclock : clock ≤ clock') (hat : o.At clock') {h : History} {p : DeskM Unit}
    (hs : Steps AnyAnswer ⟨o.prog cfg, [], a⟩ ⟨p, h, b⟩) : PitchInv cfg (o :: log) clock' b :=
  Always.steps_inv (J := PitchInv cfg (o :: log) clock') o.spec
    (fun _ _ _ hJ hw => hJ.write hz hat List.mem_cons_self hw)
    (hi.later (List.subset_cons_self o log) hclock) hs

theorem PitchRun.inv (hz : cfg.et.Lawful) (hrun : PitchRun cfg log clock a) :
    PitchInv cfg log clock a := by
  induction hrun with
  | start hn => exact hn.inv
  | op o _ hclock hat hruns ih => exact ih.steps hz hclock hat hruns
  | elsewhere _ hclock hw ih =>
    exact (ih.later (List.Subset.refl _) hclock).elsewhere hw

/-- **The ledger of pitches.** Whatever is filed, withdrawn and scored, and
whenever: a run holds no more than its cap, a name and direction at most
one open pitch of an analyst, nothing is both withdrawn and resolved, and a
pitch's session is the first to open after it was filed. -/
theorem pitch_ledger (hz : cfg.et.Lawful) (hr : PitchReached cfg log a) :
    PitchLedger cfg log a := by
  rcases hr with ⟨clock, hrun⟩ | ⟨o, before, clock, clock', s₀, p, h, rfl, hrun, hclock, hat, hs⟩
  · exact (hrun.inv hz).toPitchLedger
  · exact ((hrun.inv hz).steps hz hclock hat hs).toPitchLedger

/-- One more operation, whoever answers it. -/
theorem PitchRun.play (hrun : PitchRun cfg log clock a) (ω : (q : Query) → Answer q)
    (hclock : clock ≤ clock') (hat : o.At clock') :
    PitchRun cfg (o :: log) clock' (runWith ω (o.prog cfg) [] a).store := by
  have hany : ∀ q, AnyAnswer q (ω q) := fun _ => trivial
  obtain ⟨r, h, hruns⟩ := runWith_ends hany (o.prog cfg) [] a
  exact .op o hrun hclock hat hruns

end

/-! ### A run of the ledger -/

/-- Two pitches of an evening, one each way, and the second taken back. -/
def pitchAt (m : ℤ) (direction : Direction) (target invalidation : String) : PitchOp :=
  .submit .technical ⟨"AAA", direction, target, invalidation, 4, 4, "SPY"⟩ (fromMonday 16 m) 50
    ["AAA"] (.engine none deskSettings.et)

def takenBack : PitchOp := .withdraw .technical 2 (fromMonday 17 0)

def pitchesFiled : List PitchOp := [takenBack, pitchAt 31 .down "40" "55", pitchAt 30 .up "60" "47"]

/-- The store after operations, the log's last first. -/
def storeAfter (log : List PitchOp) (s : Store) : Store :=
  log.foldr (fun o s => (runWith (quoting 0 50) (o.prog deskSettings) [] s).store) s

/-- The next day AAA opens above the target of the first. -/
def withTuesday (s : Store) : Store :=
  { s with bars := s.bars ++ [("AAA", ⟨dayNumber 2026 9 29, 61, 61, 61, 61⟩),
      ("SPY", ⟨dayNumber 2026 9 29, 500, 500, 500, 500⟩)] }

def tuesdayScored : Store := storeAfter [.score] (withTuesday (storeAfter pitchesFiled openingStore))

theorem tuesday_run : PitchRun deskSettings (.score :: pitchesFiled) (fromMonday 40 0)
    tuesdayScored := by
  have hstart : PitchRun deskSettings [] (fromMonday 16 30) openingStore :=
    .start ⟨rfl, rfl, fun _ => rfl, by decide +kernel⟩
  have hup := hstart.play (o := pitchAt 30 .up "60" "47") (quoting 0 50) (le_refl _) rfl
  have hdown := hup.play (o := pitchAt 31 .down "40" "55") (quoting 0 50)
    (show fromMonday 16 30 ≤ fromMonday 16 31 by decide) rfl
  have hback := hdown.play (o := takenBack) (quoting 0 50)
    (show fromMonday 16 31 ≤ fromMonday 17 0 by decide) rfl
  have hbars : Elsewhere deskSettings.et (fromMonday 40 0) (storeAfter pitchesFiled openingStore)
      (withTuesday (storeAfter pitchesFiled openingStore)) := by
    refine ⟨rfl, rfl, fun _ => rfl, fun b hb => ?_⟩
    rcases List.mem_append.mp hb with hold | hnew
    · exact .inl hold
    · have hdate : b.2.date = dayNumber 2026 9 29 := by
        rcases List.mem_cons.mp hnew with rfl | hspy
        · rfl
        · rw [List.mem_singleton.mp hspy]
      rw [hdate]
      exact .inr (by decide)
  exact (hback.elsewhere (by decide) hbars).play (o := .score) (quoting 0 50) (le_refl _) trivial

theorem pitch_ledger_tuesday :
    PitchLedger deskSettings (.score :: pitchesFiled) tuesdayScored ∧
      tuesdayScored.pitchWithdrawals = [2] ∧
      tuesdayScored.resolutions.map (·.itemId) = [1] :=
  ⟨pitch_ledger (Zone.fixed_lawful _) (.inl ⟨_, tuesday_run⟩), by decide +kernel, by decide +kernel⟩

end TradeDesk.Desk
