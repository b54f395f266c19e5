import TradeDesk.Async.Rely
import TradeDesk.Desk.Scores

/-!
# Two passes at once

A pass looks whether an item has its row, writes the row if not, and lists
what it wrote in its report. The write is an `INSERT OR IGNORE`, so two
passes over one database leave one row an item, in any order their steps
fall (`one_row`). The report goes by the look-up, however, not by what the
write did: where both passes look before either writes, both list the item.

What one pass knows of the other is that it writes rows of open items and
nothing else, so the bars and the items stay what they are, rows stay, and
an item that was open when the passes began has no row or its own
(`rowsOf_own`). The rows that are new at the end are those the two histories
tell of, and every write stands in a report, so each item is announced once
just when no write was ignored (`announced_once_iff`).
-/

namespace TradeDesk.Desk

open TradeDesk.Async Relation

variable {s s' a b : Store} {item : Item} {r : Resolution} {h : History}

/-! ## What a pass writes -/

/-- The resolution of an item that is open when the passes begin. -/
def Own (s : Store) (r : Resolution) : Prop :=
  ∃ item ∈ openItems s, ownScore s item = .ok (some r)

/-- A write of a pass. -/
def Writes (s a b : Store) : Prop := ∃ r, Own s r ∧ b = a.addResolution r

/-- The rows of an item. -/
def Store.rowsOf (s : Store) (kind : ItemKind) (i : ℕ) : List Resolution :=
  s.resolutions.filter fun r => r.kind == kind && r.itemId == i

theorem resolved_iff {s : Store} {kind : ItemKind} {i : ℕ} :
    s.resolved kind i = true ↔ Store.rowsOf s kind i ≠ [] := by
  unfold Store.resolved Store.rowsOf
  rw [List.any_eq_true, Ne, List.filter_eq_nil_iff]
  constructor
  · rintro ⟨r, hr, hkey⟩ hnone
    exact hnone r hr hkey
  · intro hne
    by_contra hno
    exact hne fun r hr hkey => hno ⟨r, hr, hkey⟩

/-- What stays while passes run: the bars and the items, and every row. -/
structure Kept (a b : Store) : Prop where
  bars : b.bars = a.bars
  pitches : b.pitches = a.pitches
  calls : b.calls = a.calls
  withdrawals : b.pitchWithdrawals = a.pitchWithdrawals
  rows : a.resolutions <+: b.resolutions

theorem Kept.addResolution (a : Store) (r : Resolution) : Kept a (a.addResolution r) := by
  unfold Store.addResolution
  split
  · exact ⟨rfl, rfl, rfl, rfl, List.prefix_refl _⟩
  · exact ⟨rfl, rfl, rfl, rfl, List.prefix_append _ _⟩

theorem Kept.trans {c : Store} (hab : Kept a b) (hbc : Kept b c) : Kept a c :=
  ⟨hbc.bars.trans hab.bars, hbc.pitches.trans hab.pitches, hbc.calls.trans hab.calls,
    hbc.withdrawals.trans hab.withdrawals, hab.rows.trans hbc.rows⟩

theorem kept_of_writes (hw : ReflTransGen (Writes s) a b) : Kept a b := by
  induction hw with
  | refl => exact ⟨rfl, rfl, rfl, rfl, List.prefix_refl _⟩
  | tail _ hstep ih =>
    obtain ⟨r, _, rfl⟩ := hstep
    exact ih.trans (.addResolution _ r)

theorem Kept.resolved {kind : ItemKind} {i : ℕ} (hk : Kept a b) (h : a.resolved kind i = true) :
    b.resolved kind i = true := by
  unfold Store.resolved at h ⊢
  rw [List.any_eq_true] at h ⊢
  obtain ⟨r, hr, hkey⟩ := h
  exact ⟨r, hk.rows.subset hr, hkey⟩

/-! ## The rows of an item -/

theorem rowsOf_add (a : Store) (r : Resolution) (kind : ItemKind) (i : ℕ) :
    Store.rowsOf (a.addResolution r) kind i = Store.rowsOf a kind i ++
      if r.kind = kind ∧ r.itemId = i ∧ Store.rowsOf a kind i = [] then [r] else [] := by
  by_cases hkey : r.kind = kind ∧ r.itemId = i
  · obtain ⟨rfl, rfl⟩ := hkey
    unfold Store.addResolution
    split
    next hres =>
      rw [if_neg fun hc => resolved_iff.mp hres hc.2.2, List.append_nil]
    next hres =>
      have hnil : Store.rowsOf a r.kind r.itemId = [] := by
        by_contra hne
        exact hres (resolved_iff.mpr hne)
      rw [if_pos ⟨rfl, rfl, hnil⟩]
      unfold Store.rowsOf Store.withResolution
      rw [List.filter_append]
      simp
  · rw [if_neg fun hc => hkey ⟨hc.1, hc.2.1⟩, List.append_nil]
    unfold Store.addResolution
    split
    · rfl
    · unfold Store.rowsOf Store.withResolution
      rw [List.filter_append]
      have hfalse : (r.kind == kind && r.itemId == i) = false := by
        rw [Bool.eq_false_iff]
        intro hc
        exact hkey (by simpa using hc)
      simp [hfalse]

theorem own_unique (hkeys : PrimaryKeys s) (hitem : item ∈ openItems s) (hr : Own s r)
    (hkey : r.kind = item.kind ∧ r.itemId = item.itemId) : ownScore s item = .ok (some r) := by
  obtain ⟨x, hx, hscore⟩ := hr
  obtain ⟨hkind, hid⟩ := resolve_item hscore
  have hsame : x = item := by
    refine List.inj_on_of_nodup_map (openItems_keys hkeys) hx hitem ?_
    unfold Item.key
    rw [← hkind, ← hid, hkey.1, hkey.2]
  rw [← hsame]
  exact hscore

/-- An item that was open has no row, or its own. -/
theorem rowsOf_own (hkeys : PrimaryKeys s) (hw : ReflTransGen (Writes s) s b)
    (hitem : item ∈ openItems s) : Store.rowsOf b item.kind item.itemId = [] ∨
      ∃ r, ownScore s item = .ok (some r) ∧ Store.rowsOf b item.kind item.itemId = [r] := by
  induction hw with
  | refl =>
    left
    have hnone := openItems_unresolved hitem
    unfold Store.resolution? at hnone
    unfold Store.rowsOf
    rw [List.filter_eq_nil_iff]
    rw [List.find?_eq_none] at hnone
    exact hnone
  | tail _ hstep ih =>
    obtain ⟨r, hr, rfl⟩ := hstep
    rw [rowsOf_add]
    rcases ih with hnil | ⟨r', hr', hrows⟩
    · by_cases hkey : r.kind = item.kind ∧ r.itemId = item.itemId
      · right
        refine ⟨r, own_unique hkeys hitem hr hkey, ?_⟩
        rw [if_pos ⟨hkey.1, hkey.2, hnil⟩, hnil]
        rfl
      · left
        rw [if_neg fun hc => hkey ⟨hc.1, hc.2.1⟩, hnil]
        rfl
    · right
      refine ⟨r', hr', ?_⟩
      rw [if_neg, hrows]
      · rfl
      · intro hc
        rw [hrows] at hc
        cases hc.2.2

/-! ## One pass -/

/-- A write of this row, or what was left of it. -/
def Inserted (r : Resolution) (e : Event Store Query Answer) : Prop :=
  ∃ a, e = .wrote a (a.addResolution r)

/-- The history is the writes of these rows, in this order. -/
structure Logged (s : Store) (rs : List Resolution) (h : History) : Prop where
  events : List.Forall₂ Inserted rs h.reverse
  own : ∀ r ∈ rs, Own s r

theorem Logged.insert {rs : List Resolution} (hl : Logged s rs h) (hr : Own s r) (a : Store) :
    Logged s (rs ++ [r]) (.wrote a (a.addResolution r) :: h) := by
  refine ⟨?_, fun x hx => ?_⟩
  · rw [List.reverse_cons]
    exact List.rel_append hl.events (.cons ⟨a, rfl⟩ .nil)
  · rcases List.mem_append.mp hx with hx | hx
    · exact hl.own x hx
    · exact List.mem_singleton.mp hx ▸ hr

theorem Logged.nothing {rs : List Resolution} (hl : Logged s rs h) (hnone : ¬ ∃ r, Own s r)
    (e : Event Store Query Answer) : e ∉ h := by
  have hnil : rs = [] := List.eq_nil_iff_forall_not_mem.mpr fun r hr => hnone ⟨r, hl.own r hr⟩
  have hevents := hl.events
  rw [hnil, List.forall₂_nil_left_iff, List.reverse_eq_nil_iff] at hevents
  rw [hevents]
  exact List.not_mem_nil

/-- The item could be scored, and if there is a score it has its row. -/
def Dealt (s : Store) (item : Item) (b : Store) : Prop :=
  ∃ res, ownScore s item = .ok res ∧ (res.isSome → b.resolved item.kind item.itemId = true)

theorem Dealt.later (hd : Dealt s item a) (hk : Kept a b) : Dealt s item b := by
  obtain ⟨res, hres, hrow⟩ := hd
  exact ⟨res, hres, fun hsome => hk.resolved (hrow hsome)⟩

/-- What a pass has done when it ends. -/
def PassEnd (s : Store) (x : Except Exc ScoreReport) (h : History) (b : Store) : Prop :=
  match x with
  | .ok rep => Logged s rep.resolved h ∧ ∀ item ∈ openItems s, Dealt s item b
  | .error _ => (∃ rs, Logged s rs h) ∧ ∃ item ∈ openItems s, ∃ e, ownScore s item = .error e

/-- A pass before the rest of its items. -/
structure Passing (s : Store) (earliest : Date) (acc : ScoreReport × BarCache) (rest : List Item)
    (h : History) (b : Store) : Prop where
  reached : ReflTransGen (Writes s) s b
  cache : CacheOk s earliest acc.2
  logged : Logged s acc.1.resolved h
  ahead : ∀ item ∈ rest, item ∈ openItems s ∧ earliest ≤ item.session
  dealt : ∀ item ∈ openItems s, item ∉ rest → Dealt s item b

theorem Passing.next {earliest : Date} {acc acc' : ScoreReport × BarCache} {rest : List Item}
    {h' : History} (hp : Passing s earliest acc (item :: rest) h a) (hw : ReflTransGen (Writes s) a b)
    (hc : CacheOk s earliest acc'.2) (hl : Logged s acc'.1.resolved h') (hd : Dealt s item b) :
    Passing s earliest acc' rest h' b where
  reached := hp.reached.trans hw
  cache := hc
  logged := hl
  ahead x hx := hp.ahead x (List.mem_cons_of_mem item hx)
  dealt x hx hout := by
    by_cases hne : x = item
    · rw [hne]
      exact hd
    · refine (hp.dealt x hx fun hin => ?_).later (kept_of_writes hw)
      exact (List.mem_cons.mp hin).elim hne hout

section

variable {Adm : ∀ q, Answer q → Prop} {α : Type} {earliest : Date} {cache : BarCache}
variable {R : Except Exc α → History → Store → Prop}

/-- A series is what it was when the passes began. -/
theorem among_series_bind {symbol : String} {f : List DailyBar × BarCache → DeskM α}
    (hs : ReflTransGen (Writes s) s a) (hc : CacheOk s earliest cache)
    (hf : ∀ b cache', ReflTransGen (Writes s) a b → CacheOk s earliest cache' →
      Among Adm (Writes s) R (f (s.barsFor symbol (some earliest) none, cache')) h b) :
    Among Adm (Writes s) R (.scan (series earliest cache symbol) >>= f) h a := by
  unfold series
  split
  next bars hbars =>
    rw [hc symbol bars hbars]
    exact hf a cache .refl hc
  next hnone =>
    intro b hb
    have hbars : b.barsFor symbol (some earliest) none = s.barsFor symbol (some earliest) none := by
      unfold Store.barsFor
      rw [(kept_of_writes (hs.trans hb)).bars]
    dsimp only
    rw [hbars]
    refine hf b _ hb fun symbol' bars hlookup => ?_
    rw [List.lookup_cons] at hlookup
    split at hlookup
    next heq =>
      cases hlookup
      rw [beq_iff_eq.mp heq]
    · exact hc symbol' bars hlookup

/-- An insert leaves the item a row, and answers whether it wrote one or
tried to. -/
theorem among_insertResolution (hr : Own s r) :
    Among Adm (Writes s) (fun x h' b => ReflTransGen (Writes s) a b ∧
      b.resolved r.kind r.itemId = true ∧ ∃ wrote, x = .ok wrote ∧
        if wrote then ∃ c, h' = .wrote c (c.addResolution r) :: h else h' = h)
      (insertResolution r) h a := by
  unfold insertResolution
  refine among_get_bind fun b hb => ?_
  split
  next hsome =>
    obtain ⟨row, hrow⟩ := Option.isSome_iff_exists.mp hsome
    exact ⟨hb, resolution?_some hrow, false, rfl, rfl⟩
  next hnone =>
    refine among_update_bind fun c hc => ⟨⟨r, hr, rfl⟩, ?_⟩
    have hrow : (c.addResolution r).resolved r.kind r.itemId = true := by
      rw [resolved_iff, rowsOf_add]
      intro hnil
      obtain ⟨hold, hnew⟩ := List.append_eq_nil_iff.mp hnil
      rw [if_pos ⟨rfl, rfl, hold⟩] at hnew
      cases hnew
    exact ⟨(hb.trans hc).tail ⟨r, hr, rfl⟩, hrow, true, rfl, c, rfl⟩

theorem among_scoreItem {acc : ScoreReport × BarCache} {rest : List Item}
    (hp : Passing s earliest acc (item :: rest) h a) :
    Among Adm (Writes s) (fun x h b => match x with
        | .ok acc' => Passing s earliest acc' rest h b
        | .error e => PassEnd s (.error e) h b)
      (scoreItem earliest (s.barsFor "SPY" (some earliest) none) acc item) h a := by
  obtain ⟨hitem, hle⟩ := hp.ahead item List.mem_cons_self
  have hown : resolve item (s.barsFor item.symbol (some earliest) none)
      (s.barsFor "SPY" (some earliest) none) (s.barsFor item.benchmark (some earliest) none) =
      ownScore s item := scoredOn_own hle
  unfold scoreItem
  refine among_series_bind hp.reached hp.cache fun b₁ c₁ hb₁ hc₁ => ?_
  refine among_series_bind (hp.reached.trans hb₁) hc₁ fun b₂ c₂ hb₂ hc₂ => ?_
  have hb := hb₁.trans hb₂
  dsimp only
  rw [hown]
  refine among_check_bind (fun res hres => ?_) fun e he => ⟨⟨_, hp.logged⟩, item, hitem, e, he⟩
  cases res with
  | none => exact hp.next hb hc₂ hp.logged ⟨none, hres, fun hsome => by cases hsome⟩
  | some r =>
    have hr : Own s r := ⟨item, hitem, hres⟩
    obtain ⟨hkind, hid⟩ := resolve_item hres
    refine (among_insertResolution hr).bind (fun wrote h' c hend => ?_) fun e _ _ hend => ?_
    · obtain ⟨hc, hrow, w, hw, hevent⟩ := hend
      obtain rfl := Except.ok.inj hw
      have hd : Dealt s item c := ⟨some r, hres, fun _ => by rw [← hkind, ← hid]; exact hrow⟩
      cases wrote with
      | false =>
        obtain rfl : h' = h := hevent
        exact hp.next (hb.trans hc) hc₂ hp.logged hd
      | true =>
        obtain ⟨d, rfl⟩ : ∃ d, h' = .wrote d (d.addResolution r) :: h := hevent
        exact hp.next (hb.trans hc) hc₂ (hp.logged.insert hr d) hd
    · obtain ⟨_, _, w, hw, _⟩ := hend
      cases hw

/-- An item that has its row when it is loaded was scored by the others. -/
theorem dealt_of_resolved (hkeys : PrimaryKeys s) (hw : ReflTransGen (Writes s) s b)
    (hitem : item ∈ openItems s) (hrow : b.resolved item.kind item.itemId = true) :
    Dealt s item b := by
  rcases rowsOf_own hkeys hw hitem with hnil | ⟨r, hr, _⟩
  · exact absurd hnil (resolved_iff.mp hrow)
  · exact ⟨some r, hr, fun _ => hrow⟩

/-- One row an item, in whatever order the writes fell. -/
theorem one_row (hkeys : PrimaryKeys s) (hw : ReflTransGen (Writes s) s b)
    (hitem : item ∈ openItems s) (hr : ownScore s item = .ok (some r)) (hd : Dealt s item b) :
    Store.rowsOf b item.kind item.itemId = [r] := by
  obtain ⟨res, hres, hthere⟩ := hd
  rw [hr] at hres
  obtain rfl := Except.ok.inj hres
  rcases rowsOf_own hkeys hw hitem with hnil | ⟨r', hr', hrows⟩
  · exact absurd hnil (resolved_iff.mp (hthere rfl))
  · rw [hr] at hr'
    rw [hrows, Option.some.inj (Except.ok.inj hr')]

end

/-- What a pass loads, when the pitches are read at `b` and the calls at `c`. -/
def loaded (b c : Store) : List Item :=
  (b.pitches.filter fun p => !b.pitchWithdrawals.contains p.id && !b.resolved .pitch p.id).map
    pitchItem ++ (c.calls.filter fun x => !c.resolved .call x.id).map callItem

theorem Kept.free {kind : ItemKind} {i : ℕ} (hk : Kept a b) (h : b.resolved kind i = false) :
    a.resolved kind i = false := by
  rw [Bool.eq_false_iff] at h ⊢
  exact fun hres => h (hk.resolved hres)

/-- What is loaded was open when the passes began. -/
theorem loaded_open {c : Store} (hb : Kept s b) (hc : Kept s c) (h : item ∈ loaded b c) :
    item ∈ openItems s := by
  rcases List.mem_append.mp h with h | h
  · obtain ⟨p, hp, rfl⟩ := List.mem_map.mp h
    rw [List.mem_filter, hb.pitches, hb.withdrawals] at hp
    refine List.mem_append_left _ (List.mem_map_of_mem (List.mem_filter.mpr ⟨hp.1, ?_⟩))
    obtain ⟨hstays, hres⟩ := Bool.and_eq_true_iff.mp hp.2
    rw [hstays, hb.free (by simpa using hres)]
    rfl
  · obtain ⟨x, hx, rfl⟩ := List.mem_map.mp h
    rw [List.mem_filter, hc.calls] at hx
    refine List.mem_append_right _ (List.mem_map_of_mem (List.mem_filter.mpr ⟨hx.1, ?_⟩))
    rw [hc.free (by simpa using hx.2)]
    rfl

/-- What was open and is not loaded has its row by now. -/
theorem loaded_rest {c : Store} (hb : Kept s b) (hbc : Kept b c) (h : item ∈ openItems s)
    (hout : item ∉ loaded b c) : c.resolved item.kind item.itemId = true := by
  rcases List.mem_append.mp h with h | h
  · obtain ⟨p, hp, rfl⟩ := List.mem_map.mp h
    rw [List.mem_filter] at hp
    refine hbc.resolved ?_
    by_contra hfree
    change ¬ b.resolved .pitch p.id = true at hfree
    refine hout (List.mem_append_left _ (List.mem_map_of_mem (List.mem_filter.mpr ⟨?_, ?_⟩)))
    · rw [hb.pitches]
      exact hp.1
    · rw [hb.withdrawals, (Bool.and_eq_true_iff.mp hp.2).1]
      simpa using hfree
  · obtain ⟨x, hx, rfl⟩ := List.mem_map.mp h
    rw [List.mem_filter] at hx
    by_contra hfree
    change ¬ c.resolved .call x.id = true at hfree
    refine hout (List.mem_append_right _ (List.mem_map_of_mem (List.mem_filter.mpr ⟨?_, ?_⟩)))
    · rw [hbc.calls, hb.calls]
      exact hx.1
    · simpa using hfree

/-- A pass once it has its items. -/
def scoreItems (items : List Item) : DeskM ScoreReport :=
  match (items.map (·.session)).min? with
  | none => return ⟨[], []⟩
  | some earliest => do
    let (spy, cache) ← .scan (series earliest [] "SPY")
    let (report, _) ← items.foldlM (scoreItem earliest spy) (⟨[], []⟩, cache)
    return report

theorem score_eq : score = .scan loadOpenItems >>= scoreItems := rfl

/-- How the scoring loop ends. -/
def LoopEnds (s : Store) (earliest : Date) (x : Except Exc (ScoreReport × BarCache)) (h : History)
    (b : Store) : Prop :=
  match x with
  | .ok acc => Passing s earliest acc [] h b
  | .error e => PassEnd s (.error e) h b

theorem among_scoreItems {Adm : ∀ q, Answer q → Prop} {items : List Item} {c : Store}
    (hc : ReflTransGen (Writes s) s c) (hin : ∀ item ∈ items, item ∈ openItems s)
    (hout : ∀ item ∈ openItems s, item ∉ items → Dealt s item c) :
    Among Adm (Writes s) (PassEnd s) (scoreItems items) [] c := by
  have hnone : Logged s [] [] := ⟨.nil, fun _ hr => by cases hr⟩
  unfold scoreItems
  cases hmin : (items.map (·.session)).min? with
  | none =>
    have hnil : items = [] := by simpa using hmin
    exact ⟨hnone, fun item hitem => hout item hitem (by rw [hnil]; exact List.not_mem_nil)⟩
  | some earliest =>
    have hle : ∀ item ∈ items, earliest ≤ item.session := fun item hitem =>
      (List.min?_eq_some_iff.mp hmin).2 _ (List.mem_map_of_mem hitem)
    refine among_series_bind hc .nil fun d cache hd hcache => ?_
    refine Among.bind (R := LoopEnds s earliest) ?_ (fun acc h b hp => ?_) fun _ _ _ he => he
    · refine Among.foldlM (fun acc item rest h b hp => (among_scoreItem hp).mono
        fun x h b hx => by cases x <;> exact hx) (fun _ _ _ hp => hp)
        items _ _ _ ⟨hc.trans hd, hcache, hnone, fun item hitem => ⟨hin item hitem, hle item hitem⟩,
          fun item hitem hno => (hout item hitem hno).later (kept_of_writes hd)⟩
    · exact ⟨hp.logged, fun item hitem => hp.dealt item hitem List.not_mem_nil⟩

/-- **A pass among others**: whatever they write meanwhile, it lists what it
inserted, and every item has been dealt with when it ends. -/
theorem among_score {Adm : ∀ q, Answer q → Prop} (hkeys : PrimaryKeys s)
    (hw : ReflTransGen (Writes s) s a) : Among Adm (Writes s) (PassEnd s) score [] a := by
  rw [score_eq]
  intro b hb c hc
  have hsb := kept_of_writes (hw.trans hb)
  have hbc := kept_of_writes hc
  have hsc := (hw.trans hb).trans hc
  exact among_scoreItems hsc (fun item hitem => loaded_open hsb (hsb.trans hbc) hitem)
    fun item hitem hout => dealt_of_resolved hkeys hsc hitem (loaded_rest hsb hbc hitem hout)

/-! ## Two passes -/

abbrev PassTask := Task Unit Store Query Answer Exc ScoreReport

abbrev PassAct := Act Unit Store Query Answer Exc ScoreReport

abbrev PassPool := Pool Unit Store Query Answer Exc ScoreReport

/-- Passes start and take their steps, and nothing else happens. -/
def OnlyPasses : PassAct → PassPool → Prop
  | .start _, _ | .step _ _, _ => True
  | .leave _, _ | .stop _, _ | .env, _ => False

/-- An interleaving of score passes over one database. -/
abbrev PassTrace (Adm : ∀ q, Answer q → Prop) (s : Store) (acts : List PassAct) (pool : PassPool) :
    Prop :=
  Trace (fun _ => score) Adm (fun _ _ => False) OnlyPasses s acts pool

/-- What the report of a pass lists as resolved. A pass that raised has none. -/
def announced (t : PassTask) : List Resolution :=
  match t.prog with
  | .ret rep => rep.resolved
  | _ => []

/-- Every item with a score has one row, its own, and stands once in the two
reports together. -/
def AnnouncedOnce (s s' : Store) (t₁ t₂ : PassTask) : Prop :=
  ∀ item ∈ openItems s, ∀ r, ownScore s item = .ok (some r) →
    Store.rowsOf s' item.kind item.itemId = [r] ∧ (announced t₁ ++ announced t₂).count r = 1

/-- No insert finds the row of its item there already, and where anything is
to be resolved nothing raises. -/
structure Unraced (s : Store) (t₁ t₂ : PassTask) : Prop where
  scored : (∃ r, Own s r) → ∀ item ∈ openItems s, ∃ res, ownScore s item = .ok res
  written : ∀ a b, .wrote a b ∈ t₁.hist ++ t₂.hist → a ≠ b

abbrev addedRows : Event Store Query Answer → List Resolution := Event.added Store.resolutions

/-- An insert adds its row, or it was ignored. -/
theorem Inserted.added {e : Event Store Query Answer} (hi : Inserted r e) :
    (addedRows e = [r] ∧ ∀ a b, e = .wrote a b → a ≠ b) ∨
      addedRows e = [] ∧ ∃ a, e = .wrote a a := by
  obtain ⟨a, rfl⟩ := hi
  by_cases hres : a.resolved r.kind r.itemId = true
  · right
    have hsame : a.addResolution r = a := by
      unfold Store.addResolution
      rw [if_pos hres]
    rw [hsame]
    exact ⟨List.drop_length, a, rfl⟩
  · left
    have hnew : a.addResolution r = a.withResolution r := by
      unfold Store.addResolution
      rw [if_neg hres]
    rw [hnew]
    refine ⟨List.drop_left, fun x y he => ?_⟩
    cases he
    intro hsame
    have hlen := congrArg (fun x => x.resolutions.length) hsame
    unfold Store.withResolution at hlen
    simp at hlen

/-- The rows that came of the listed ones are some of them, and all of them
just when no insert was ignored. -/
theorem added_of_inserted {rs : List Resolution} {es : List (Event Store Query Answer)}
    (hl : List.Forall₂ Inserted rs es) : (es.flatMap addedRows).Sublist rs ∧
      ((es.flatMap addedRows).length = rs.length ↔ ∀ a b, .wrote a b ∈ es → a ≠ b) := by
  induction hl with
  | nil => exact ⟨.slnil, by simp⟩
  | @cons r e rs es hi _ ih =>
    obtain ⟨hsub, hlen⟩ := ih
    rw [List.flatMap_cons]
    rcases hi.added with ⟨hadd, hne⟩ | ⟨hadd, a, rfl⟩
    · rw [hadd]
      refine ⟨hsub.cons_cons r, ?_⟩
      rw [List.singleton_append, List.length_cons, List.length_cons, Nat.add_right_cancel_iff, hlen]
      constructor
      · intro hall a b hab
        rcases List.mem_cons.mp hab with he | hab
        · exact hne a b he.symm
        · exact hall a b hab
      · exact fun hall a b hab => hall a b (List.mem_cons_of_mem _ hab)
    · rw [hadd, List.nil_append]
      refine ⟨hsub.cons r, ?_⟩
      constructor
      · intro heq
        have hle := hsub.length_le
        rw [List.length_cons] at heq
        omega
      · exact fun hall => absurd rfl (hall a a List.mem_cons_self)

section

variable {Adm : ∀ q, Answer q → Prop} {acts : List PassAct} {t₁ t₂ : PassTask}

theorem writes_rows (hw : Writes s a b) : a.resolutions <+: b.resolutions := by
  obtain ⟨r, _, rfl⟩ := hw
  exact (Kept.addResolution a r).rows

/-- What two passes that have ended leave: they are both through, or both
stopped at an item that cannot be scored. -/
theorem passes_end (hkeys : PrimaryKeys s) (ht : PassTrace Adm s acts ⟨s', [t₁, t₂]⟩) {t : PassTask}
    (hin : t ∈ [t₁, t₂]) (hend : t.ended = true) :
    (Logged s (announced t) t.hist ∧ ∀ item ∈ openItems s, Dealt s item s') ∨
      announced t = [] ∧ (∃ rs, Logged s rs t.hist) ∧
        ∃ item ∈ openItems s, ∃ e, ownScore s item = .error e := by
  obtain ⟨_, htasks⟩ := ht.among (W := Writes s) (R := PassEnd s) (fun _ hc => hc)
    fun _ _ hw => among_score hkeys hw
  obtain ⟨x, seen, hprog, hx, hseen⟩ := (htasks t hin).ended hend
  unfold announced
  rw [hprog]
  cases x with
  | ok rep => exact Or.inl ⟨hx.1, fun item hitem => (hx.2 item hitem).later (kept_of_writes hseen)⟩
  | error e => exact Or.inr ⟨rfl, hx⟩

/-- The row of every resolvable item came of one event. -/
theorem count_added (hkeys : PrimaryKeys s) (ht : PassTrace Adm s acts ⟨s', [t₁, t₂]⟩)
    (hitem : item ∈ openItems s) (hr : ownScore s item = .ok (some r))
    (hrow : Store.rowsOf s' item.kind item.itemId = [r]) :
    ((t₁.hist.reverse ++ t₂.hist.reverse).flatMap addedRows).count r = 1 := by
  have htally := Trace.tally (W := Writes s) (R := PassEnd s) Store.resolutions ht
    (fun act q hc => by
      cases act with
      | start o => exact Or.inl ⟨o, rfl⟩
      | step t others => exact Or.inr ⟨t, others, rfl⟩
      | leave | stop | env => cases hc) (fun _ _ hw => among_score hkeys hw) fun _ _ => writes_rows
  obtain ⟨hkind, hid⟩ := resolve_item hr
  have hkey : (r.kind == item.kind && r.itemId == item.itemId) = true := by simp [hkind, hid]
  have hbefore : s.resolutions.count r = 0 := by
    rw [List.count_eq_zero]
    intro hmem
    have hnone := openItems_unresolved hitem
    unfold Store.resolution? at hnone
    exact List.find?_eq_none.mp hnone r hmem hkey
  have hafter : s'.resolutions.count r = 1 := by
    have hcount := List.count_filter (l := s'.resolutions) (a := r)
      (p := fun x => x.kind == item.kind && x.itemId == item.itemId) hkey
    rw [← hcount]
    show (Store.rowsOf s' item.kind item.itemId).count r = 1
    rw [hrow, List.count_singleton_self]
  have hcount := htally.count_eq r
  rw [List.count_append, hbefore, hafter, Nat.zero_add] at hcount
  rw [hcount]
  refine List.Perm.count_eq ?_ r
  rw [List.flatMap_append, List.flatMap_cons, List.flatMap_cons, List.flatMap_nil, List.append_nil]
  exact (t₁.hist.reverse_perm.flatMap_right _).append (t₂.hist.reverse_perm.flatMap_right _)

/-- **Each resolution is announced once just when no insert is ignored.**
However the steps of two passes over one database fall, once both have
ended: every item that can be resolved has exactly one row and stands
exactly once in their reports, if and only if no insert of either found the
row of its item there already, which takes a look-up of the one between the
look-up and the insert of the other, and nothing raised. -/
theorem announced_once_iff (hkeys : PrimaryKeys s) (ht : PassTrace Adm s acts ⟨s', [t₁, t₂]⟩)
    (h₁ : t₁.ended = true) (h₂ : t₂.ended = true) :
    AnnouncedOnce s s' t₁ t₂ ↔ Unraced s t₁ t₂ := by
  have hend₁ := passes_end hkeys ht (by simp) h₁
  have hend₂ := passes_end hkeys ht (by simp) h₂
  by_cases herr : ∃ item ∈ openItems s, ∃ e, ownScore s item = .error e
  · -- both passes raise, and there is no report at all
    obtain ⟨x, hx, e, hxe⟩ := herr
    have hraised {t : PassTask} (hend : (Logged s (announced t) t.hist ∧
        ∀ item ∈ openItems s, Dealt s item s') ∨ announced t = [] ∧ (∃ rs, Logged s rs t.hist) ∧
          ∃ item ∈ openItems s, ∃ e, ownScore s item = .error e) :
        announced t = [] ∧ ∃ rs, Logged s rs t.hist := by
      rcases hend with ⟨_, hdealt⟩ | ⟨hnil, hlog, _⟩
      · obtain ⟨res, hres, _⟩ := hdealt x hx
        rw [hxe] at hres
        cases hres
      · exact ⟨hnil, hlog⟩
    obtain ⟨hnil₁, rs₁, hlog₁⟩ := hraised hend₁
    obtain ⟨hnil₂, rs₂, hlog₂⟩ := hraised hend₂
    constructor
    · intro honce
      have hnone : ¬ ∃ r, Own s r := by
        rintro ⟨r, item, hitem, hr⟩
        obtain ⟨_, hcount⟩ := honce item hitem r hr
        rw [hnil₁, hnil₂] at hcount
        cases hcount
      refine ⟨fun hown => absurd hown hnone, fun a b hab => ?_⟩
      rcases List.mem_append.mp hab with hab | hab
      · exact absurd hab (hlog₁.nothing hnone _)
      · exact absurd hab (hlog₂.nothing hnone _)
    · intro hclear item hitem r hr
      obtain ⟨res, hres⟩ := hclear.scored ⟨r, item, hitem, hr⟩ x hx
      rw [hxe] at hres
      cases hres
  · -- both are through: what they list is what they tried to write
    have hthrough {t : PassTask} (hend : (Logged s (announced t) t.hist ∧
        ∀ item ∈ openItems s, Dealt s item s') ∨ announced t = [] ∧ (∃ rs, Logged s rs t.hist) ∧
          ∃ item ∈ openItems s, ∃ e, ownScore s item = .error e) :
        Logged s (announced t) t.hist ∧ ∀ item ∈ openItems s, Dealt s item s' :=
      hend.resolve_right fun hc => herr hc.2.2
    obtain ⟨hlog₁, hdealt⟩ := hthrough hend₁
    obtain ⟨hlog₂, _⟩ := hthrough hend₂
    have hevents : List.Forall₂ Inserted (announced t₁ ++ announced t₂)
        (t₁.hist.reverse ++ t₂.hist.reverse) := List.rel_append hlog₁.events hlog₂.events
    obtain ⟨hsub, hlen⟩ := added_of_inserted hevents
    have hreach := (ht.among (W := Writes s) (R := PassEnd s) (fun _ hc => hc)
      fun _ _ hw => among_score hkeys hw).1
    have hrow {item : Item} {r : Resolution} (hitem : item ∈ openItems s)
        (hr : ownScore s item = .ok (some r)) :
        Store.rowsOf s' item.kind item.itemId = [r] :=
      one_row hkeys hreach hitem hr (hdealt item hitem)
    have hcount {r : Resolution} (hr : Own s r) :
        ((t₁.hist.reverse ++ t₂.hist.reverse).flatMap addedRows).count r = 1 := by
      obtain ⟨item, hitem, hscore⟩ := hr
      exact count_added hkeys ht hitem hscore (hrow hitem hscore)
    have hwritten : (∀ a b, .wrote a b ∈ t₁.hist.reverse ++ t₂.hist.reverse → a ≠ b) ↔
        ∀ a b, .wrote a b ∈ t₁.hist ++ t₂.hist → a ≠ b := by
      simp only [List.mem_append, List.mem_reverse]
    rw [hwritten] at hlen
    constructor
    · intro honce
      refine ⟨fun _ item hitem => ?_, hlen.mp (List.Perm.length_eq (List.perm_iff_count.mpr fun r => ?_))⟩
      · obtain ⟨res, hres, _⟩ := hdealt item hitem
        exact ⟨res, hres⟩
      · by_cases hr : Own s r
        · obtain ⟨item, hitem, hscore⟩ := hr
          rw [hcount ⟨item, hitem, hscore⟩, (honce item hitem r hscore).2]
        · have hout : r ∉ announced t₁ ++ announced t₂ := fun hin =>
            (List.mem_append.mp hin).elim (fun h => hr (hlog₁.own r h)) fun h => hr (hlog₂.own r h)
          rw [List.count_eq_zero.mpr hout, List.count_eq_zero.mpr fun hin => hout (hsub.subset hin)]
    · intro hclear item hitem r hr
      refine ⟨hrow hitem hr, ?_⟩
      rw [← hsub.eq_of_length (hlen.mpr hclear.written)]
      exact hcount ⟨item, hitem, hr⟩

end

/-- A pass after so many steps, a whole pass then, and the rest of the first. -/
def firstPart (n : ℕ) : Config Store Query Answer Exc ScoreReport :=
  advance (quoting (fromMonday 16 0) 111) n ⟨score, [], filedAs [1]⟩

def wholePass (n : ℕ) : Config Store Query Answer Exc ScoreReport :=
  runWith (quoting (fromMonday 16 0) 111) score [] (firstPart n).store

def lastPart (n : ℕ) : Config Store Query Answer Exc ScoreReport :=
  runWith (quoting (fromMonday 16 0) 111) (firstPart n).prog (firstPart n).hist (wholePass n).store

theorem resumed_trace (n : ℕ) : ∃ acts, PassTrace AnyAnswer (filedAs [1]) acts
    ⟨(lastPart n).store, [.at_ () (lastPart n), .at_ () (wholePass n)]⟩ := by
  have hidle : PassTrace AnyAnswer (filedAs [1]) [] ⟨filedAs [1], []⟩ := .idle
  obtain ⟨_, _, hbegun⟩ := hidle.begin (o := ()) trivial (fun _ _ _ => trivial)
    (advance_steps (fun _ => trivial) n _)
  have hboth := hbegun.move (a := .start ()) trivial (.start () _ _)
  obtain ⟨_, _, hbetween⟩ := Trace.steps_second hboth (fun _ _ _ => trivial)
    (runWith_steps (ω := quoting (fromMonday 16 0) 111) (fun _ => trivial) _ _ _)
  obtain ⟨_, _, hresumed⟩ := hbetween.steps_first (fun _ _ _ => trivial)
    (runWith_steps (ω := quoting (fromMonday 16 0) 111) (fun _ => trivial) _ _ _)
  exact ⟨_, hresumed⟩

/-- Both passes look before either writes, and both list the pitch. -/
theorem announced_twice : ¬ ∀ Adm s s' acts t₁ t₂, PrimaryKeys s →
    PassTrace Adm s acts ⟨s', [t₁, t₂]⟩ → t₁.ended = true → t₂.ended = true →
    AnnouncedOnce s s' t₁ t₂ := by
  intro hall
  obtain ⟨acts, htrace⟩ := resumed_trace 5
  have honce := hall _ _ _ _ _ _ ⟨by decide, by decide⟩ htrace (by decide +kernel)
    (by decide +kernel)
  let r : Resolution := ⟨.pitch, 1, dayNumber 2026 9 28, 100, dayNumber 2026 9 28, .target, 110,
    10, 1 / 5, 1 / 5⟩
  obtain ⟨_, hcount⟩ := honce (pitchItem (pitchedAs 1)) (by decide +kernel) r (by decide +kernel)
  have htwice : (announced (.at_ () (lastPart 5)) ++ announced (.at_ () (wholePass 5))).count r = 2 := by
    decide +kernel
  rw [htwice] at hcount
  cases hcount

/-- A step earlier the first pass still has to look, and finds the row. -/
theorem announced_once_between : ∃ acts, PassTrace AnyAnswer (filedAs [1]) acts
      ⟨(lastPart 4).store, [.at_ () (lastPart 4), .at_ () (wholePass 4)]⟩ ∧
    (AnnouncedOnce (filedAs [1]) (lastPart 4).store (.at_ () (lastPart 4)) (.at_ () (wholePass 4)) ↔
      Unraced (filedAs [1]) (.at_ () (lastPart 4)) (.at_ () (wholePass 4))) ∧
    (announced (.at_ () (lastPart 4))).length = 0 ∧ (announced (.at_ () (wholePass 4))).length = 1 := by
  obtain ⟨acts, htrace⟩ := resumed_trace 4
  exact ⟨acts, htrace, announced_once_iff ⟨by decide, by decide⟩ htrace (by decide +kernel)
    (by decide +kernel), by decide +kernel, by decide +kernel⟩

end TradeDesk.Desk
