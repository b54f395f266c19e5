import TradeDesk.Desk.Calls

/-!
# Scoring

`tc/desk/scoring.py`: every pitch and every call resolves from stored bars,
once, into `resolutions`. `resolve` walks the market sessions from the
item's own; `score` resolves whatever is open and can be resolved.
-/

namespace TradeDesk

def Store.withResolution (s : Store) (r : Resolution) : Store :=
  { s with resolutions := s.resolutions ++ [r] }

/-- `INSERT OR IGNORE`: a second resolution of an item changes nothing. -/
def Store.addResolution (s : Store) (r : Resolution) : Store :=
  if s.resolved r.kind r.itemId then s else s.withResolution r

/-- A resolution is all it writes. -/
theorem Store.addResolution_keeps (s : Store) (r : Resolution) :
    (s.addResolution r).bars = s.bars ∧ (s.addResolution r).pitches = s.pitches ∧
      (s.addResolution r).pitchWithdrawals = s.pitchWithdrawals := by
  unfold Store.addResolution
  split
  · exact ⟨rfl, rfl, rfl⟩
  · exact ⟨rfl, rfl, rfl⟩

namespace Desk

open TradeDesk.Async

/-- What is to be scored. A pitch has no reference price of its own: its
reference is its session's opening print. -/
structure Item where
  kind : ItemKind
  itemId : ℕ
  symbol : String
  direction : Direction
  target : ℚ
  invalidation : ℚ
  horizonDays : ℤ
  benchmark : String
  session : Date
  refs : Option (ℚ × ℚ × ℚ)
deriving DecidableEq, Repr

def barOn (bars : List DailyBar) (d : Date) : Option DailyBar :=
  bars.reverse.find? fun b => b.date == d

def move (frm upto : ℚ) : Except Exc ℚ :=
  if frm = 0 then .error .divisionByZero else .ok ((upto - frm) / frm * 100)

namespace Item

variable (item : Item)

def throughTarget (p : ℚ) : Bool :=
  match item.direction with
  | .up => item.target ≤ p
  | .down => p ≤ item.target

def throughInval (p : ℚ) : Bool :=
  match item.direction with
  | .up => p ≤ item.invalidation
  | .down => item.invalidation ≤ p

end Item

/-- The prices a resolution is measured from. -/
structure Reference where
  date : Date
  ref : ℚ
  spy : ℚ
  bench : ℚ

/-- The inner `done`: a resolution on a day with benchmark bars. -/
def done (item : Item) (start : Reference) (spy bench : List DailyBar) (day : Date) (how : How)
    (exitPrice : ℚ) (atOpen : Bool) : Except Exc (Option Resolution) :=
  match barOn spy day, barOn bench day with
  | some s, some bb => do
    let ret ← move start.ref exitPrice
    let benchMove ← move start.bench (if atOpen then bb.open else bb.close)
    let spyMove ← move start.spy (if atOpen then s.open else s.close)
    let sign : ℚ := if item.direction = .up then 1 else -1
    return some ⟨item.kind, item.itemId, start.date, start.ref, day, how, exitPrice, sign * ret,
      spyMove, sign * benchMove⟩
  | _, _ => return none

/-- The walk over the sessions, the `k`th next. -/
def walk (item : Item) (start : Reference) (bars spy bench : List DailyBar) :
    ℤ → List Date → Except Exc (Option Resolution)
  | _, [] => return none
  | k, day :: rest =>
    let finish := done item start spy bench day
    let own := item.refs.isNone
    match barOn bars day with
    | none => return none
    | some b =>
      let invalHit : Bool := match item.direction with
        | .up => b.low ≤ item.invalidation
        | .down => item.invalidation ≤ b.high
      let targetHit : Bool := match item.direction with
        | .up => item.target ≤ b.high
        | .down => b.low ≤ item.target
      if k = 1 ∧ own ∧ (item.throughTarget b.open ∨ item.throughInval b.open) then
        finish .openThrough b.open true
      else if 1 < k ∧ item.throughTarget b.open then finish .gapTarget b.open true
      else if 1 < k ∧ item.throughInval b.open then finish .gapInvalidation b.open true
      else if (1 < k ∨ own) ∧ invalHit then finish .invalidation item.invalidation false
      else if (1 < k ∨ own) ∧ targetHit then finish .target item.target false
      else if k = item.horizonDays then finish .horizon b.close false
      else walk item start bars spy bench (k + 1) rest

/-- `days[:h]`: a negative `h` cuts so many off the end. -/
def firstDays (days : List Date) (h : ℤ) : List Date :=
  days.take (if 0 ≤ h then h else days.length + h).toNat

def resolve (item : Item) (bars spy bench : List DailyBar) : Except Exc (Option Resolution) :=
  let days := (spy.map (·.date)).filter fun d => item.session ≤ d
  match days with
  | [] => return none
  | start :: _ =>
    match barOn bars start, barOn spy start, barOn bench start with
    | some first, some spyFirst, some benchFirst =>
      let reference := match item.refs with
        | none => ⟨start, first.open, spyFirst.open, benchFirst.open⟩
        | some (ref, spyRef, benchRef) => ⟨start, ref, spyRef, benchRef⟩
      walk item reference bars spy bench 1 (firstDays days item.horizonDays)
    | _, _, _ => return none

theorem done_item {item : Item} {start : Reference} {spy bench : List DailyBar} {day : Date}
    {how : How} {exitPrice : ℚ} {atOpen : Bool} {r : Resolution}
    (h : done item start spy bench day how exitPrice atOpen = .ok (some r)) :
    r.kind = item.kind ∧ r.itemId = item.itemId := by
  unfold done at h
  split at h
  · obtain ⟨_, _, h⟩ := except_bind_ok h
    obtain ⟨_, _, h⟩ := except_bind_ok h
    obtain ⟨_, _, h⟩ := except_bind_ok h
    cases h
    exact ⟨rfl, rfl⟩
  · cases h

theorem walk_item {item : Item} {start : Reference} {bars spy bench : List DailyBar}
    {r : Resolution} : ∀ {days : List Date} {k : ℤ},
    walk item start bars spy bench k days = .ok (some r) →
      r.kind = item.kind ∧ r.itemId = item.itemId
  | [], k, h => by cases h
  | day :: rest, k, h => by
    unfold walk at h
    dsimp only at h
    split at h
    · cases h
    · repeat' split at h
      all_goals first
        | exact done_item h
        | exact walk_item h

/-- A resolution is of the item it was computed for. -/
theorem resolve_item {item : Item} {bars spy bench : List DailyBar} {r : Resolution}
    (h : resolve item bars spy bench = .ok (some r)) :
    r.kind = item.kind ∧ r.itemId = item.itemId := by
  unfold resolve at h
  dsimp only at h
  split at h
  · cases h
  · split at h
    · exact walk_item h
    · cases h

/-- What is resolved has had a market session. -/
theorem resolve_session {item : Item} {bars spy bench : List DailyBar} {r : Resolution}
    (h : resolve item bars spy bench = .ok (some r)) : ∃ b ∈ spy, item.session ≤ b.date := by
  unfold resolve at h
  dsimp only at h
  split at h
  · cases h
  next start rest hdays =>
    have hstart : start ∈ (spy.map (·.date)).filter fun d => item.session ≤ d := by
      rw [hdays]
      exact List.mem_cons_self
    obtain ⟨hmem, hle⟩ := List.mem_filter.mp hstart
    obtain ⟨b, hb, rfl⟩ := List.mem_map.mp hmem
    exact ⟨b, hb, of_decide_eq_true hle⟩

def stuckAfterSessions : ℕ := 3

/-- A session of the item's window has no bar and is old enough that a
human should look. -/
def missingBar (item : Item) (bars spy : List DailyBar) : Bool :=
  let allDays := spy.map (·.date)
  (firstDays (allDays.filter fun d => item.session ≤ d) item.horizonDays).any fun d =>
    (bars.all fun b => b.date != d) && allDays.idxOf d + 1 + stuckAfterSessions ≤ allDays.length

structure ScoreReport where
  resolved : List Resolution
  stuck : List (ItemKind × ℕ × String)
deriving DecidableEq, Repr

def pitchItem (p : Pitch) : Item :=
  ⟨.pitch, p.id, p.symbol, p.direction, p.target, p.invalidation, p.horizonDays, p.benchmark,
    p.session, none⟩

def callItem (c : Call) : Item :=
  ⟨.call, c.id, c.symbol, c.direction, c.target, c.invalidation, c.horizonDays, c.benchmark,
    c.session, some (c.refPrice, c.spyRef, c.benchRef)⟩

def loadOpenItems : Look (List Item) := do
  let pitches ← .get fun s =>
    s.pitches.filter fun p => !s.pitchWithdrawals.contains p.id && !s.resolved .pitch p.id
  let calls ← .get fun s => s.calls.filter fun c => !s.resolved .call c.id
  return pitches.map pitchItem ++ calls.map callItem

/-- True when this pass wrote it; false when it already existed. -/
def insertResolution (r : Resolution) : DeskM Bool := do
  let before ← .scan (resolutionFor r.kind r.itemId)
  if before.isSome then return false
  else
    .update fun s => s.addResolution r
    return true

/-- The bars read so far, by symbol. -/
abbrev BarCache := List (String × List DailyBar)

def series (earliest : Date) (cache : BarCache) (symbol : String) :
    Look (List DailyBar × BarCache) :=
  match cache.lookup symbol with
  | some bars => return (bars, cache)
  | none => .read fun s =>
    let bars := s.barsFor symbol (some earliest) none
    .ret (bars, (symbol, bars) :: cache)

/-- The body of the scoring loop. -/
def scoreItem (earliest : Date) (spy : List DailyBar) (acc : ScoreReport × BarCache)
    (item : Item) : DeskM (ScoreReport × BarCache) := do
  let (bars, cache) ← .scan (series earliest acc.2 item.symbol)
  let (bench, cache) ← .scan (series earliest cache item.benchmark)
  match ← .check (resolve item bars spy bench) with
  | none =>
    let stuck := if missingBar item bars spy then
      acc.1.stuck ++ [(item.kind, item.itemId, item.symbol)] else acc.1.stuck
    return ({ acc.1 with stuck }, cache)
  | some r => do
    let wrote ← insertResolution r
    return (if wrote then { acc.1 with resolved := acc.1.resolved ++ [r] } else acc.1, cache)

def score : DeskM ScoreReport := do
  let items ← .scan loadOpenItems
  match (items.map (·.session)).min? with
  | none => return ⟨[], []⟩
  | some earliest => do
    let (spy, cache) ← .scan (series earliest [] "SPY")
    let (report, _) ← items.foldlM (scoreItem earliest spy) (⟨[], []⟩, cache)
    return report

/-! ## The scoring loop, as a rule -/

/-- The cache holds what the table does. -/
def CacheOk (s : Store) (earliest : Date) (cache : BarCache) : Prop :=
  ∀ symbol bars, cache.lookup symbol = some bars → bars = s.barsFor symbol (some earliest) none

theorem CacheOk.nil {s : Store} {earliest : Date} : CacheOk s earliest [] :=
  fun _ _ h => by cases h

theorem CacheOk.of_bars {s s' : Store} {earliest : Date} {cache : BarCache}
    (hc : CacheOk s earliest cache) (hbars : s'.bars = s.bars) : CacheOk s' earliest cache := by
  intro symbol bars h
  rw [hc symbol bars h]
  unfold Store.barsFor
  rw [hbars]

/-- A series is the table's, read now or before. -/
theorem series_ok {s : Store} {earliest : Date} {cache : BarCache} (symbol : String)
    (hc : CacheOk s earliest cache) : ∃ cache', CacheOk s earliest cache' ∧
      (series earliest cache symbol).eval s =
        .ok (s.barsFor symbol (some earliest) none, cache') := by
  unfold series
  split
  next bars hbars =>
    refine ⟨cache, hc, ?_⟩
    rw [← hc symbol bars hbars]
    rfl
  next hnone =>
    refine ⟨(symbol, s.barsFor symbol (some earliest) none) :: cache, ?_, rfl⟩
    intro symbol' bars h
    rw [List.lookup_cons] at h
    split at h
    next heq =>
      cases h
      rw [beq_iff_eq.mp heq]
    · exact hc symbol' bars h

/-- What an item is scored to, on the table as it is. -/
def scoredOn (s : Store) (earliest : Date) (item : Item) : Except Exc (Option Resolution) :=
  resolve item (s.barsFor item.symbol (some earliest) none)
    (s.barsFor "SPY" (some earliest) none) (s.barsFor item.benchmark (some earliest) none)

theorem scoredOn_bars {s s' : Store} (h : s'.bars = s.bars) (earliest : Date) (item : Item) :
    scoredOn s' earliest item = scoredOn s earliest item := by
  unfold scoredOn Store.barsFor
  rw [h]

section

variable {Adm : ∀ q, Answer q → Prop} {G : History → Store → Store → Prop} {h : History} {s : Store}

/-- Where one turn of the scoring loop leads: an exception ends it, what
cannot be resolved yet is passed over, and what is resolved is written once. -/
def ScoreTurn (G : History → Store → Store → Prop) (I : List Item → History → Store → Prop)
    (stop : Exc → History → Store → Prop) (items : List Item) (h : History) (s : Store) :
    Except Exc (Option Resolution) → Prop
  | .error e => stop e h s
  | .ok none => I items h s
  | .ok (some r) => if s.resolution? r.kind r.itemId = none then
      G h s (s.addResolution r) ∧ I items (.wrote s (s.addResolution r) :: h) (s.addResolution r)
    else I items h s

/-- What is resolved is written, unless it was before. -/
theorem ScoreTurn.resolved {I : List Item → History → Store → Prop}
    {stop : Exc → History → Store → Prop} {items : List Item} {r : Resolution}
    (hwrite : s.resolution? r.kind r.itemId = none → G h s (s.addResolution r) ∧
      I items (.wrote s (s.addResolution r) :: h) (s.addResolution r)) (hskip : I items h s) :
    ScoreTurn G I stop items h s (.ok (some r)) := by
  unfold ScoreTurn
  dsimp only
  split
  next hnone => exact hwrite hnone
  · exact hskip

theorem always_scoreItem {earliest : Date} {I : List Item → History → Store → Prop}
    {stop : Exc → History → Store → Prop} {acc : ScoreReport × BarCache} {item : Item}
    {items : List Item} (hc : CacheOk s earliest acc.2)
    (hturn : ScoreTurn G I stop items h s (scoredOn s earliest item)) :
    Always Adm G (fun r h s' => match r with
        | .ok acc' => I items h s' ∧ s'.bars = s.bars ∧ CacheOk s' earliest acc'.2
        | .error e => stop e h s')
      (scoreItem earliest (s.barsFor "SPY" (some earliest) none) acc item) h s := by
  unfold scoreItem
  obtain ⟨c₁, hc₁, h₁⟩ := series_ok item.symbol hc
  obtain ⟨c₂, hc₂, h₂⟩ := series_ok item.benchmark hc₁
  rw [always_bind, always_scan, h₁]
  dsimp only
  rw [always_bind, always_scan, h₂]
  dsimp only
  rw [always_bind, always_check]
  unfold scoredOn at hturn
  cases hres : resolve item (s.barsFor item.symbol (some earliest) none)
      (s.barsFor "SPY" (some earliest) none) (s.barsFor item.benchmark (some earliest) none) with
  | error e =>
    rw [hres] at hturn
    exact hturn
  | ok res =>
    rw [hres] at hturn
    cases res with
    | none => exact ⟨hturn, rfl, hc₂⟩
    | some r =>
      dsimp only
      unfold insertResolution
      rw [always_bind]
      refine always_scan_bind (fun before hbefore => ?_) fun e he => by cases he
      obtain rfl : s.resolution? r.kind r.itemId = before := Except.ok.inj hbefore
      change if s.resolution? r.kind r.itemId = none then _ else _ at hturn
      split
      next hsome =>
        rw [if_neg (Option.isSome_iff_ne_none.mp hsome)] at hturn
        exact ⟨hturn, rfl, hc₂⟩
      next hnone =>
        rw [if_pos (by simpa using hnone)] at hturn
        have hbars := (s.addResolution_keeps r).1
        exact always_update_bind hturn.1 ⟨hturn.2, hbars, hc₂.of_bars hbars⟩

/-- **The scoring loop**, as a rule: an invariant of the items still to
score, kept by each turn on the bars the pass found. -/
theorem always_score {I : Date → List Item → History → Store → Prop}
    {R : Except Exc ScoreReport → History → Store → Prop}
    (hempty : (loadOpenItems.eval s = .ok []) → R (.ok ⟨[], []⟩) h s)
    (hload : ∀ earliest items, loadOpenItems.eval s = .ok items →
      (∀ item ∈ items, earliest ≤ item.session) → I earliest items h s)
    (hturn : ∀ earliest item items h s', s'.bars = s.bars → I earliest (item :: items) h s' →
      ScoreTurn G (I earliest) (fun e => R (.error e)) items h s' (scoredOn s earliest item))
    (hdone : ∀ earliest rep h s', I earliest [] h s' → R (.ok rep) h s') :
    Always Adm G R score h s := by
  unfold score
  refine always_scan_bind (fun items hitems => ?_) fun e he => by cases he
  cases hmin : (items.map (·.session)).min? with
  | none =>
    have hnil : items = [] := by simpa using hmin
    rw [hnil] at hitems
    exact hempty hitems
  | some earliest =>
    dsimp only
    have hle : ∀ item ∈ items, earliest ≤ item.session := fun item hitem =>
      (List.min?_eq_some_iff.mp hmin).2 _ (List.mem_map_of_mem hitem)
    have hnil : CacheOk s earliest [] := .nil
    obtain ⟨c, hc, hspy⟩ := series_ok "SPY" hnil
    rw [always_bind, always_scan, hspy]
    dsimp only
    refine Always.bind (R := fun r h s' => match r with
      | .ok _ => ∃ earliest, I earliest [] h s'
      | .error e => R (.error e) h s') ?_ (fun acc h s' hI => ?_) fun _ _ _ he => he
    · refine always_foldlM_acc (fun acc rest h s' => s'.bars = s.bars ∧ CacheOk s' earliest acc.2 ∧
        I earliest rest h s') ?_ (fun _ _ _ hI => ⟨earliest, hI.2.2⟩) _ _ _ _
        ⟨rfl, hc, hload earliest items hitems hle⟩
      rintro acc item rest h s' ⟨hbars, hcache, hI⟩
      have hnext := hturn earliest item rest h s' hbars hI
      rw [← scoredOn_bars hbars] at hnext
      have hspy' : s.barsFor "SPY" (some earliest) none = s'.barsFor "SPY" (some earliest) none := by
        unfold Store.barsFor
        rw [hbars]
      rw [hspy']
      refine (always_scoreItem hcache hnext).mono (fun _ _ _ hg => hg) fun r h s'' hr => ?_
      cases r with
      | error e => exact hr
      | ok acc' => exact ⟨hr.2.1.trans hbars, hr.2.2, hr.1⟩
    · obtain ⟨e, hI⟩ := hI
      exact hdone e acc.1 h s' hI

end

end Desk

end TradeDesk
