import TradeDesk.Desk.Pitches
import TradeDesk.Loops.Universe

/-!
# What a sweep installs

A sweep ends in one of three ways (`SweepEnd`): it refuses and has written
nothing; it is cut short after its first write; or it has installed a
universe. `Installed` says what that is: the table holds exactly the quoted
symbols that pass every gate, the document the head of their rank, and each
fetched symbol has one fate and is counted under it (`Accounted`).

A row of a later day than the sweep's own, which no sweep before it leaves,
stays the newest; then the table's newest rows are what they were.
-/

namespace TradeDesk.Loops

open TradeDesk.Async TradeDesk.Lists TradeDesk.Research

variable {cfg : SweepSettings} {now : Instant} {h h' : SweepHistory} {w w' : SweepWorld}
variable {d : Date} {rows ranked : List UniverseRow} {row : UniverseRow}

/-! ## The newest rows -/

theorem universeAsof_some {asof : Date} : w.universeAsof = some asof ↔
    (∃ e ∈ w.table, e.asof = asof) ∧ ∀ e ∈ w.table, e.asof ≤ asof := by
  unfold SweepWorld.universeAsof
  rw [List.max?_eq_some_iff, List.mem_map]
  refine and_congr Iff.rfl ?_
  constructor
  · intro hmax e he
    exact hmax _ (List.mem_map_of_mem he)
  · intro hmax x hx
    obtain ⟨e, he, rfl⟩ := List.mem_map.mp hx
    exact hmax e he

theorem mem_universeRows : row ∈ w.universeRows ↔
    ∃ asof, w.universeAsof = some asof ∧ ⟨asof, row⟩ ∈ w.table ∧ row.qualified = true := by
  unfold SweepWorld.universeRows
  cases hasof : w.universeAsof with
  | none => simp
  | some asof =>
    rw [List.mem_mergeSort, List.mem_map]
    constructor
    · rintro ⟨e, he, rfl⟩
      obtain ⟨hmem, hcond⟩ := List.mem_filter.mp he
      simp only [Bool.and_eq_true, beq_iff_eq] at hcond
      obtain ⟨rfl, hq⟩ := hcond
      exact ⟨e.asof, rfl, hmem, hq⟩
    · rintro ⟨asof', heq, hmem, hq⟩
      obtain rfl := Option.some.inj heq
      exact ⟨⟨asof, row⟩, List.mem_filter.mpr ⟨hmem, by simp [hq]⟩, rfl⟩

theorem mem_replaceUniverse {e : UniverseEntry} : e ∈ (w.replaceUniverse d rows).table ↔
    e ∈ w.table ∧ e.asof ≠ d ∨ e.asof = d ∧ e.row ∈ rows := by
  unfold SweepWorld.replaceUniverse
  rw [List.mem_append, List.mem_filter, List.mem_map]
  refine or_congr (by simp) ?_
  constructor
  · rintro ⟨r, hr, rfl⟩
    exact ⟨rfl, hr⟩
  · rintro ⟨rfl, hr⟩
    exact ⟨e.row, hr, rfl⟩

/-- Where no row is of a later day, the rows of the day are the newest. -/
theorem universeAsof_replace (hne : rows ≠ []) (hpast : ∀ e ∈ w.table, e.asof ≤ d) :
    (w.replaceUniverse d rows).universeAsof = some d := by
  obtain ⟨r, hr⟩ := List.exists_mem_of_ne_nil _ hne
  refine universeAsof_some.mpr ⟨⟨⟨d, r⟩, mem_replaceUniverse.mpr (.inr ⟨rfl, hr⟩), rfl⟩, ?_⟩
  intro e he
  rcases mem_replaceUniverse.mp he with ⟨hmem, _⟩ | ⟨rfl, _⟩
  · exact hpast e hmem
  · exact le_rfl

theorem mem_universeRows_replace (hne : rows ≠ []) (hpast : ∀ e ∈ w.table, e.asof ≤ d)
    (hq : ∀ r ∈ rows, r.qualified = true) :
    row ∈ (w.replaceUniverse d rows).universeRows ↔ row ∈ rows := by
  rw [mem_universeRows, universeAsof_replace hne hpast]
  constructor
  · rintro ⟨asof, heq, hmem, _⟩
    obtain rfl := Option.some.inj heq
    rcases mem_replaceUniverse.mp hmem with ⟨_, hc⟩ | ⟨_, hr⟩
    · exact absurd rfl hc
    · exact hr
  · intro hr
    exact ⟨d, rfl, mem_replaceUniverse.mpr (.inr ⟨rfl, hr⟩), hq row hr⟩

/-- **A universe that is there does not become empty**, whatever day its
newest rows are of. -/
theorem universeRows_replace_ne_nil (hne : rows ≠ []) (hq : ∀ r ∈ rows, r.qualified = true)
    (hw : w.universeRows ≠ []) : (w.replaceUniverse d rows).universeRows ≠ [] := by
  by_cases hpast : ∀ e ∈ w.table, e.asof ≤ d
  · obtain ⟨r, hr⟩ := List.exists_mem_of_ne_nil _ hne
    exact List.ne_nil_of_mem ((mem_universeRows_replace hne hpast hq).mpr hr)
  · -- a later day's rows are not touched, and stay the newest
    obtain ⟨r, hr⟩ := List.exists_mem_of_ne_nil _ hw
    obtain ⟨asof, hasof, hmem, hqr⟩ := mem_universeRows.mp hr
    obtain ⟨_, hmax⟩ := universeAsof_some.mp hasof
    have hlater : d < asof := by
      by_contra hle
      exact hpast fun e he => (hmax e he).trans (not_lt.mp hle)
    refine List.ne_nil_of_mem (mem_universeRows.mpr ⟨asof, ?_, ?_, hqr⟩)
    · refine universeAsof_some.mpr ⟨⟨⟨asof, r⟩, ?_, rfl⟩, ?_⟩
      · exact mem_replaceUniverse.mpr (.inl ⟨hmem, hlater.ne'⟩)
      · intro e he
        rcases mem_replaceUniverse.mp he with ⟨he, _⟩ | ⟨rfl, _⟩
        · exact hmax e he
        · exact hlater.le
    · exact mem_replaceUniverse.mpr (.inl ⟨hmem, hlater.ne'⟩)

/-! ## What the desk reads of it -/

/-- The columns of a row that the desk's queries read. -/
def UniverseEntry.stored (e : UniverseEntry) : TradeDesk.UniverseRow :=
  ⟨e.asof, e.row.symbol, e.row.dollarVol, e.row.qualified⟩

/-- The desk trades the newest rows' symbols and its own list. -/
theorem tradeableSymbols_of_table {desk : Desk.Settings} {s : Store}
    (hs : s.universeRows = w.table.map UniverseEntry.stored) :
    ∃ symbols, (Desk.tradeableSymbols desk).eval s = .ok symbols ∧
      ∀ x, x ∈ symbols ↔ (∃ row ∈ w.universeRows, row.symbol = x) ∨ x ∈ desk.etfList := by
  have hasof : s.universeAsof = w.universeAsof := by
    unfold Store.universeAsof SweepWorld.universeAsof
    rw [hs, List.map_map]
    rfl
  unfold Desk.tradeableSymbols
  rw [Reads.eval_bind, Reads.eval_get, hasof]
  cases hnew : w.universeAsof with
  | none =>
    refine ⟨desk.etfList, rfl, fun x => ?_⟩
    unfold SweepWorld.universeRows
    rw [hnew]
    simp
  | some asof =>
    refine ⟨_, rfl, fun x => ?_⟩
    dsimp only
    rw [List.mem_append, hs]
    refine or_congr ?_ Iff.rfl
    constructor
    · intro hx
      obtain ⟨r, hr, rfl⟩ := List.mem_map.mp hx
      obtain ⟨hmem, hcond⟩ := List.mem_filter.mp hr
      obtain ⟨e, he, rfl⟩ := List.mem_map.mp hmem
      simp only [UniverseEntry.stored, Bool.and_eq_true, beq_iff_eq] at hcond
      obtain ⟨rfl, hq⟩ := hcond
      exact ⟨e.row, mem_universeRows.mpr ⟨e.asof, hnew, he, hq⟩, rfl⟩
    · rintro ⟨row, hrow, rfl⟩
      obtain ⟨asof', hasof', hmem, hq⟩ := mem_universeRows.mp hrow
      obtain rfl : asof' = asof := Option.some.inj (hasof'.symm.trans hnew)
      refine List.mem_map.mpr ⟨_, List.mem_filter.mpr ⟨List.mem_map_of_mem hmem, ?_⟩, rfl⟩
      simp [UniverseEntry.stored, hq]

/-! ## What a sweep has asked and been told -/

/-- The symbols asked about, in order. -/
def askedOf : SweepHistory → List String
  | [] => []
  | .asked (.quotesVerbose chunk) _ :: h => askedOf h ++ chunk
  | _ :: h => askedOf h

/-- The quotes of the chunks that did not fail. -/
def quotedOf : SweepHistory → Dict String VerboseQuote
  | [] => .empty
  | .asked (.quotesVerbose _) (some got) :: h => (quotedOf h).update got
  | _ :: h => quotedOf h

/-- How many chunks failed. -/
def failedOf : SweepHistory → ℕ
  | [] => 0
  | .asked (.quotesVerbose _) none :: h => failedOf h + 1
  | _ :: h => failedOf h

/-- A directory was read that lists these symbols. -/
def ReadDirectory (cfg : SweepSettings) (h : SweepHistory) (fetched : List String) : Prop :=
  ∃ status text, .asked .directory (.response status text) ∈ h ∧ status / 100 = 2 ∧
    parseDirectory cfg.lower text = .ok fetched

/-- The chunks are the symbols, in order and none twice. -/
theorem chunksOf_flatten (symbols : List String) : (chunksOf symbols).flatten = symbols := by
  have htake : ∀ k, ((List.range k).map fun i => (symbols.drop (i * chunkSize)).take chunkSize
      ).flatten = symbols.take (k * chunkSize) := by
    intro k
    induction k with
    | zero => simp
    | succ k ih =>
      rw [List.range_succ, List.map_append, List.flatten_append, ih, Nat.succ_mul, List.take_add]
      simp
  unfold chunksOf
  rw [htake]
  refine List.take_of_length_le ?_
  unfold chunkSize
  omega

/-! ## Every fetched symbol has a fate -/

/-- The six fates of a sweep, each with its symbols. -/
structure Fates where
  notQuoted : List String
  skipped : List String
  gatedOut : List String
  stubFiltered : List String
  ranked : List String
  dropped : List String

def Fates.all (f : Fates) : List String :=
  f.notQuoted ++ f.skipped ++ f.gatedOut ++ f.stubFiltered ++ f.ranked ++ f.dropped

/-- The fates of a sweep that fetched and quoted these, kept these rows and
listed these. -/
def fatesOf (g : Gates) (fetched : List String) (quotes : Dict String VerboseQuote)
    (rows ranked : List UniverseRow) : Fates where
  notQuoted := fetched.filter fun s => !quotes.has s
  skipped := withVerdict g .skipped quotes.items
  gatedOut := withVerdict g .gated quotes.items
  stubFiltered := withVerdict g .stub quotes.items
  ranked := ranked.map (·.symbol)
  dropped := (rows.drop ranked.length).map (·.symbol)

/-- Every fetched symbol has a fate, none is named twice, and the counts are
those of the fates. -/
structure Accounted (g : Gates) (fetched : List String) (quotes : Dict String VerboseQuote)
    (rows ranked : List UniverseRow) (counts : Counts) : Prop where
  every : ∀ s ∈ fetched, s ∈ (fatesOf g fetched quotes rows ranked).all
  once : (fatesOf g fetched quotes rows ranked).all.Nodup
  fetched_eq : counts.fetched = fetched.length
  quoted_eq : counts.quoted = quotes.items.length
  skipped_eq : counts.skipped = (fatesOf g fetched quotes rows ranked).skipped
  stubFiltered_eq : counts.stubFiltered = (fatesOf g fetched quotes rows ranked).stubFiltered.length
  qualified_eq : counts.qualified = rows.length
  nodata_eq : counts.nodata = rows.countP (fun r => r.sessionRangePct = none)
  ranked_eq : counts.ranked = ranked.length
  dropped_eq : counts.dropped = (fatesOf g fetched quotes rows ranked).dropped.length

/-- What `filter_universe` returns without a cut. -/
theorem filterUniverse_all {quotes : Dict String VerboseQuote} {counts : Counts}
    (hf : filterUniverse quotes cfg.rules (some 0) = .ok (rows, counts)) :
    ∃ g, gatesOf cfg.rules = .ok g ∧ rows = (keptRows g quotes.items).mergeSort rankLe ∧
      counts = ⟨0, quotes.items.length, rows.length, (withVerdict g .stub quotes.items).length,
        (keptRows g quotes.items).countP (fun r => r.sessionRangePct = none), rows.length, 0,
        withVerdict g .skipped quotes.items, 0, 0⟩ := by
  obtain ⟨g, hg, hf⟩ := except_bind_ok hf
  refine ⟨g, hg, ?_⟩
  obtain ⟨n, hn, hf⟩ := except_bind_ok hf
  obtain rfl : (0 : ℤ) = n := Except.ok.inj hn
  rw [screenLoop_eq] at hf
  cases hf
  simp

theorem accounted {g : Gates} (fetched : List String) {quotes : Dict String VerboseQuote}
    (hrows : rows = (keptRows g quotes.items).mergeSort rankLe) (hranked : ranked <+: rows)
    (hfetched : fetched.Nodup) :
    (∀ s ∈ fetched, s ∈ (fatesOf g fetched quotes rows ranked).all) ∧
      (fatesOf g fetched quotes rows ranked).all.Nodup := by
  have hsplit : ranked.map (·.symbol) ++ (rows.drop ranked.length).map (·.symbol) =
      rows.map (·.symbol) := by
    obtain ⟨rest, rfl⟩ := hranked
    rw [List.drop_left, List.map_append]
  have hkept : (rows.map (·.symbol)).Perm ((keptRows g quotes.items).map (·.symbol)) := by
    rw [hrows]
    exact (List.mergeSort_perm _ _).map _
  have hquoted : (quotes.items.map (·.1)).Perm (withVerdict g .skipped quotes.items ++
      withVerdict g .gated quotes.items ++ withVerdict g .stub quotes.items ++
      rows.map (·.symbol)) := (fates_perm quotes.items).trans (hkept.symm.append_left _)
  have hall : (fatesOf g fetched quotes rows ranked).all.Perm
      ((fetched.filter fun s => !quotes.has s) ++ quotes.items.map (·.1)) := by
    unfold Fates.all fatesOf
    rw [List.append_assoc _ (ranked.map _), hsplit]
    refine List.Perm.trans ?_ (hquoted.symm.append_left _)
    rw [← List.append_assoc, ← List.append_assoc, ← List.append_assoc]
  have hhas : ∀ s, quotes.has s = true ↔ s ∈ quotes.items.map (·.1) := by
    intro s
    exact Dict.mem_keys_iff.symm
  constructor
  · intro s hs
    rw [hall.mem_iff, List.mem_append]
    by_cases hq : quotes.has s = true
    · exact .inr ((hhas s).mp hq)
    · exact .inl (List.mem_filter.mpr ⟨hs, by simpa using hq⟩)
  · rw [hall.nodup_iff]
    refine List.Nodup.append (hfetched.filter _) quotes.nodup ?_
    intro s hs hq
    have hno := (List.mem_filter.mp hs).2
    rw [(hhas s).mpr hq] at hno
    cases hno

/-! ## The ends of a sweep -/

/-- What a sweep that ended well has found and installed. -/
structure Installed (cfg : SweepSettings) (now : Instant) (w : SweepWorld) (h : SweepHistory)
    (counts : Counts) (w' : SweepWorld) (g : Gates) (size : ℤ) (fetched : List String)
    (rows ranked : List UniverseRow) : Prop where
  directory : ReadDirectory cfg h fetched
  asked : askedOf h = fetched
  gates : gatesOf cfg.rules = .ok g
  limit : cfg.rules.getInt .strategy "working_universe_size" = .ok size
  ceiling : ∃ pct, cfg.rules.get .strategy "universe_max_failed_chunk_pct" = .ok pct ∧
    (failedOf h : ℚ) * 100 / (chunksOf fetched).length ≤ pct
  chunks : counts.chunks = (chunksOf fetched).length ∧ counts.chunksFailed = failedOf h
  nonempty : rows ≠ []
  passing : ∀ row, row ∈ rows ↔ ∃ q price, (quotedOf h).get? row.symbol = some q ∧ Passes g q ∧
    q.price = some price ∧ row = rowAt row.symbol q price
  table : w'.table = (w.replaceUniverse (cfg.et.date now) rows).table
  newest : (∃ e ∈ w.table, cfg.et.date now < e.asof) ∨ ∀ row, row ∈ w'.universeRows ↔ row ∈ rows
  rank : rows.Pairwise fun a b => rankLe a b = true
  head : ranked = if size ≠ 0 then headOf size rows else rows
  document : ∃ body, renderUniverseMd ranked counts now = some body ∧
    w'.docs.files "universe.md" = some (written body.toList)
  accounted : Accounted g fetched (quotedOf h) rows ranked counts

/-- How a sweep ends: it raises with nothing written, it raises with the
table written, or it has installed a universe. -/
inductive SweepEnd (cfg : SweepSettings) (now : Instant) (w : SweepWorld) :
    Except SweepExc Counts → SweepHistory → SweepWorld → Prop
  | refused {h : SweepHistory} (e : SweepExc) : ¬ Wrote h → SweepEnd cfg now w (.error e) h w
  | cut {h : SweepHistory} {w' : SweepWorld} (e : SweepExc) (rows : List UniverseRow) :
      Wrote h → rows ≠ [] → w'.table = (w.replaceUniverse (cfg.et.date now) rows).table →
      SweepEnd cfg now w (.error e) h w'
  | installed {h : SweepHistory} {w' : SweepWorld} (counts : Counts) (g : Gates) (size : ℤ)
      (fetched : List String) (rows ranked : List UniverseRow) :
      Installed cfg now w h counts w' g size fetched rows ranked →
      SweepEnd cfg now w (.ok counts) h w'

/-- No write leaves a universe that was there empty. -/
abbrev KeepsUniverse : SweepHistory → SweepWorld → SweepWorld → Prop :=
  fun _ a b => a.universeRows ≠ [] → b.universeRows ≠ []

abbrev AnySweepAnswer : ∀ q, SweepAnswer q → Prop := fun _ _ => True

theorem not_wrote_asked {q : SweepQuery} {a : SweepAnswer q} (hw : ¬ Wrote h) :
    ¬ Wrote (.asked q a :: h) := by
  rintro ⟨x, y, hxy⟩
  rcases List.mem_cons.mp hxy with hc | hmem
  · cases hc
  · exact hw ⟨x, y, hmem⟩

/-- The loop over the chunks asks about each once and keeps what it gets. -/
theorem quoteChunks_spec {chunks : List (List String)} : ∀ {quotes : Dict String VerboseQuote}
    {failed : ℕ} {h : SweepHistory}, quotedOf h = quotes → failedOf h = failed → ¬ Wrote h →
    Always AnySweepAnswer KeepsUniverse (fun r h' w' => w' = w ∧ ¬ Wrote h' ∧ h ⊆ h' ∧
        r = .ok (quotedOf h', failedOf h') ∧ askedOf h' = askedOf h ++ chunks.flatten)
      (quoteChunks chunks quotes failed) h w := by
  induction chunks with
  | nil =>
    intro quotes failed h hq hf hw
    exact ⟨rfl, hw, fun _ he => he, by rw [hq, hf], (List.append_nil _).symm⟩
  | cons chunk rest ih =>
    intro quotes failed h hq hf hw
    unfold quoteChunks askQuotes
    refine always_query_bind fun a _ => ?_
    have hasked : askedOf h ++ (chunk :: rest).flatten =
        askedOf (.asked (.quotesVerbose chunk) a :: h) ++ rest.flatten := by
      rw [List.flatten_cons, ← List.append_assoc]
      rfl
    have hsub : h ⊆ .asked (.quotesVerbose chunk) a :: h := List.subset_cons_self _ _
    rw [hasked]
    cases a with
    | some got =>
      have hq' : quotedOf (.asked (.quotesVerbose chunk) (some got) :: h) = quotes.update got := by
        rw [← hq]
        rfl
      refine (ih hq' hf (not_wrote_asked hw)).mono (fun _ _ _ hg => hg) ?_
      rintro r h' w' ⟨hw', hno, hin, hr⟩
      exact ⟨hw', hno, fun e he => hin (hsub he), hr⟩
    | none =>
      have hf' : failedOf (.asked (.quotesVerbose chunk) none :: h) = failed + 1 := by
        rw [← hf]
        rfl
      have hq' : quotedOf (.asked (.quotesVerbose chunk) none :: h) = quotes := hq
      refine (ih hq' hf' (not_wrote_asked hw)).mono (fun _ _ _ hg => hg) ?_
      rintro r h' w' ⟨hw', hno, hin, hr⟩
      exact ⟨hw', hno, fun e he => hin (hsub he), hr⟩

/-- A document that is replaced has the body it was given. -/
theorem replace_file {docs : DocStore} {body : List Char} {taken : Bool} {x : DocWrite}
    (hr : (docs.replace .universe body none none taken).2 = .ok x) :
    (docs.replace .universe body none none taken).1.files "universe.md" = some (written body) := by
  unfold DocStore.replace at hr ⊢
  cases hp : pathFor .universe none with
  | error e => cases hp
  | ok path =>
    obtain rfl : "universe.md" = path := Except.ok.inj hp
    cases hv : validate .universe body none with
    | error e =>
      rw [hp, hv] at hr
      cases hr
    | ok u =>
      have hexp : Expected docs "universe.md" none := fun e he => by cases he
      rw [hp, hv] at hr
      dsimp only at hr ⊢
      rw [if_pos hexp] at hr ⊢
      cases taken with
      | false => cases hr
      | true =>
        rw [if_pos rfl]
        dsimp only [DocStore.swap, DocStore.write]
        exact if_pos rfl

/-- The rows that are kept are marked. -/
theorem keptRows_qualified {g : Gates} {items : List (String × VerboseQuote)}
    (hr : row ∈ keptRows g items) : row.qualified = true := by
  obtain ⟨q, _, hs⟩ := mem_keptRows.mp hr
  obtain ⟨_, price, _, hrow⟩ := screen_kept_iff.mp hs
  rw [hrow]
  rfl

/-- The kept rows are those of the quotes that pass. -/
theorem mem_keptRows_iff {g : Gates} {quotes : Dict String VerboseQuote} :
    row ∈ keptRows g quotes.items ↔ ∃ q price, quotes.get? row.symbol = some q ∧ Passes g q ∧
      q.price = some price ∧ row = rowAt row.symbol q price := by
  rw [mem_keptRows]
  constructor
  · rintro ⟨q, hmem, hs⟩
    obtain ⟨hpass, price, hprice, hrow⟩ := screen_kept_iff.mp hs
    exact ⟨q, price, Dict.get?_of_mem hmem, hpass, hprice, hrow⟩
  · rintro ⟨q, price, hget, hpass, hprice, hrow⟩
    exact ⟨q, Dict.get?_mem hget, screen_kept_iff.mpr ⟨hpass, price, hprice, hrow⟩⟩

/-- The rows and the head of a sweep that filters these quotes. -/
theorem accounted_of_filter {counts : Counts} {quotes : Dict String VerboseQuote} {g : Gates}
    {fetched : List String} {size : ℤ} {failed : ℕ} (hfetched : fetched.Nodup)
    (hrows : rows = (keptRows g quotes.items).mergeSort rankLe)
    (hcounts : counts = ⟨0, quotes.items.length, rows.length,
      (withVerdict g .stub quotes.items).length,
      (keptRows g quotes.items).countP (fun r => r.sessionRangePct = none), rows.length, 0,
      withVerdict g .skipped quotes.items, 0, 0⟩)
    (hhead : ranked = if size ≠ 0 then headOf size rows else rows) :
    Accounted g fetched quotes rows ranked { counts with
      fetched := fetched.length
      chunks := (chunksOf fetched).length
      chunksFailed := failed
      ranked := ranked.length
      dropped := rows.length - ranked.length } := by
  have hprefix : ranked <+: rows := by
    rw [hhead]
    split
    · exact headOf_prefix _ _
    · exact List.prefix_rfl
  obtain ⟨hevery, honce⟩ := accounted fetched hrows hprefix hfetched
  rw [hcounts]
  refine ⟨hevery, honce, rfl, rfl, rfl, rfl, rfl, ?_, rfl, ?_⟩
  · rw [hrows]
    exact ((List.mergeSort_perm _ _).countP_eq _).symm
  · show rows.length - ranked.length = ((rows.drop ranked.length).map (·.symbol)).length
    rw [List.length_map, List.length_drop]

theorem ofRules_ok {α : Type} {x : Except Exc α} {a : α} (h : ofRules x = .ok a) : x = .ok a := by
  cases x with
  | error e => cases h
  | ok b =>
    cases h
    rfl

/-- Symbols come out of a response that lists them. -/
theorem symbolsOf_ok {answer : Fetched} {symbols : List String}
    (hs : symbolsOf cfg.lower answer = .ok symbols) :
    ∃ status text, answer = .response status text ∧ status / 100 = 2 ∧
      parseDirectory cfg.lower text = .ok symbols := by
  cases answer with
  | httpError => cases hs
  | crashed => cases hs
  | response status text =>
    obtain ⟨_, hstatus, hs⟩ := except_bind_ok hs
    obtain ⟨_, _, hs⟩ := except_bind_ok hs
    obtain ⟨parsed, hparsed, hs⟩ := except_bind_ok hs
    obtain ⟨_, _, hs⟩ := except_bind_ok hs
    cases hs
    refine ⟨status, text, rfl, not_not.mp (refuseIf_ok hstatus), ?_⟩
    cases hp : parseDirectory cfg.lower text with
    | error e =>
      rw [hp] at hparsed
      cases hparsed
    | ok x =>
      rw [hp] at hparsed
      cases hparsed
      rfl

/-! ## The two writes -/

theorem replaceUniverse_spec (hne : rows ≠ []) (hq : ∀ r ∈ rows, r.qualified = true) :
    Always AnySweepAnswer KeepsUniverse (fun r h' w' =>
        (∃ e, r = .error e ∧ w' = w ∧ h' = .asked .tableTaken false :: h) ∨
          r = .ok () ∧ w' = w.replaceUniverse d rows ∧
            h' = .wrote w w' :: .asked .tableTaken true :: h)
      (replaceUniverse d rows) h w := by
  unfold replaceUniverse
  refine always_query_bind fun taken _ => ?_
  cases taken with
  | false => exact .inl ⟨_, rfl, rfl, rfl⟩
  | true => exact ⟨universeRows_replace_ne_nil hne hq, .inr ⟨rfl, rfl, rfl⟩⟩

theorem replaceDoc_spec {body : String} :
    Always AnySweepAnswer KeepsUniverse (fun r h' w' => w'.table = w.table ∧
        (∃ taken, h' = .wrote w w' :: .asked .artifactTaken taken :: h) ∧
        ∀ x, r = .ok x → w'.docs.files "universe.md" = some (written body.toList))
      (replaceDoc body) h w := by
  unfold replaceDoc
  refine always_query_bind fun taken _ => ?_
  refine always_transact_bind (fun hw => hw) ?_
  rw [always_check]
  refine ⟨rfl, ⟨taken, rfl⟩, ?_⟩
  intro x hx
  cases hr : (w.docs.replace .universe body.toList none none taken).2 with
  | error e =>
    rw [hr] at hx
    cases hx
  | ok y => exact replace_file hr

end TradeDesk.Loops
