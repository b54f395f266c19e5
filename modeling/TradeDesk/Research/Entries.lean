import TradeDesk.Research.Importer
import TradeDesk.Research.Escalations

/-!
# The import as turns

Each part of the import, as the turns of the entries its files have: what
`seen` and `existing` remember is what the table has, and a file that is
read whole before it is written gives the same rows, the same writes and the
same refusals (`reads_documents` to `reads_sectors`). What the importers
prove about a part they prove about one turn.
-/

namespace TradeDesk.Research

open TradeDesk.Async TradeDesk.Lists

variable {py : Python} {src : SourceTree} {σ α β κ : Type}

/-! ## Dated files -/

/-- The entries of a file whose name should be a date. -/
def datedEntries (path stem : String) (misnamed raised : α)
    (entries : IsoDate → List (Place × α)) : List (Place × α) :=
  if matchesDate stem = false then [(⟨path, none⟩, misnamed)]
  else match fromisoformat stem with
    | none => [(⟨path, none⟩, raised)]
    | some d => entries d

theorem reads_dated {step : σ → α → Turn σ Counter Reason} {path stem : String}
    {misnamed raised : α} {entries : IsoDate → List (Place × α)} {file : IsoDate → Import σ}
    (hmisnamed : ∀ s, step s misnamed = .skipped .filename) (hraised : ∀ s, step s raised = .raised)
    (hfile : ∀ d, Reads (file d) step (entries d)) :
    Reads (dated path stem file) step (datedEntries path stem misnamed raised entries) := by
  unfold dated datedEntries
  split
  · intro s
    rw [turns_cons, hmisnamed s]
    exact .refl _
  · cases fromisoformat stem with
    | none =>
      intro s
      rw [turns_cons, hraised s]
      exact .refl _
    | some d => exact hfile d

theorem reads_map {f : Import σ} (step : σ → β → Turn σ Counter Reason) {g : α → β}
    {xs : List (Place × α)} (h : Reads f (fun s a => step s (g a)) xs) :
    Reads f step (xs.map fun x => (x.1, g x.2)) := by
  intro s
  have hsame : turns step s (xs.map fun x => (x.1, g x.2)) =
      turns (fun s a => step s (g a)) s xs := by
    clear h
    induction xs generalizing s with
    | nil => rfl
    | cons x rest ih =>
      rw [List.map_cons, turns_cons, turns_cons]
      cases step s (g x.2) with
      | already s₁ => exact ih s₁
      | wrote s₁ k =>
        dsimp only
        rw [ih s₁]
      | skipped e =>
        dsimp only
        rw [ih s]
      | raised => rfl
  rw [hsame]
  exact h s

theorem reads_nothing {step : σ → α → Turn σ Counter Reason} :
    Reads nothing step ([] : List (Place × α)) := reads_pass

theorem reads_if {f : Import σ} {step : σ → α → Turn σ Counter Reason} {xs : List (Place × α)}
    {c : Prop} [Decidable c] (h : Reads f step xs) :
    Reads (if c then f else nothing) step (if c then xs else []) := by
  split
  · exact h
  · exact reads_nothing

/-- The entries of files have places of their own. -/
theorem flatMap_places_nodup {γ : Type} {files : List γ} {path : γ → String}
    {entries : γ → List (Place × α)} (hpaths : (files.map path).Nodup)
    (hfile : ∀ c, ∀ x ∈ entries c, x.1.file = path c)
    (hnodup : ∀ c, ((entries c).map (·.1)).Nodup) :
    ((files.flatMap entries).map (·.1)).Nodup := by
  induction files with
  | nil => exact List.nodup_nil
  | cons c rest ih =>
    rw [List.map_cons, List.nodup_cons] at hpaths
    rw [List.flatMap_cons, List.map_append]
    refine (hnodup c).append (ih hpaths.2) fun p hp hp' => ?_
    obtain ⟨x, hx, rfl⟩ := List.mem_map.mp hp
    obtain ⟨y, hy, hyx⟩ := List.mem_map.mp hp'
    obtain ⟨d, hd, hyd⟩ := List.mem_flatMap.mp hy
    have hsame : path d = path c := by
      rw [← hfile d y hyd, ← hfile c x hx, hyx]
    exact hpaths.1 (hsame ▸ List.mem_map_of_mem hd)

theorem datedEntries_file {path stem : String} {misnamed raised : α}
    {entries : IsoDate → List (Place × α)} (h : ∀ d, ∀ x ∈ entries d, x.1.file = path) :
    ∀ x ∈ datedEntries path stem misnamed raised entries, x.1.file = path := by
  unfold datedEntries
  split
  · simp
  · split
    · simp
    · exact h _

theorem datedEntries_nodup {path stem : String} {misnamed raised : α}
    {entries : IsoDate → List (Place × α)} (h : ∀ d, ((entries d).map (·.1)).Nodup) :
    ((datedEntries path stem misnamed raised entries).map (·.1)).Nodup := by
  unfold datedEntries
  split
  · exact List.nodup_singleton _
  · split
    · exact List.nodup_singleton _
    · exact h _

/-! ## Documents -/

inductive DocEntry where
  | misnamed
  | raised
  | file (f : DocFile)

def documentTurn (docs : DocStore) : DocEntry → Turn DocStore Counter Reason
  | .misnamed => .skipped .filename
  | .raised => .raised
  | .file f => docTurn docs f

def docEntries (src : SourceTree) (path : String) (kind : DocKind) (d : Option IsoDate) :
    List (Place × DocEntry) :=
  if src.isFile path then [(⟨path, none⟩, .file ⟨kind, d, src.readText path⟩)] else []

def flatEntries (src : SourceTree) : List (Place × DocEntry) :=
  flatDocs.flatMap fun doc => docEntries src ("research/" ++ doc.2) doc.1 none

def preopenEntries (src : SourceTree) : List (Place × DocEntry) :=
  if src.isDir "research/preopen" then
    (src.glob "research/preopen" ".md").flatMap fun name =>
      datedEntries ("research/preopen/" ++ name) (stem name) .misnamed .raised fun d =>
        docEntries src ("research/preopen/" ++ name) .preopen (some d)
  else []

def documentEntries (src : SourceTree) : List (Place × DocEntry) :=
  flatEntries src ++ preopenEntries src

private theorem reads_doc (path : String) (kind : DocKind) (d : Option IsoDate) :
    Reads (importDoc src path kind d) documentTurn (docEntries src path kind d) := by
  unfold importDoc docEntries
  refine reads_if ?_
  have hread : Reads (fun docs => turns docTurn docs
      [((⟨path, none⟩ : Place), ⟨kind, d, src.readText path⟩)]) docTurn _ := reads_turns
  exact reads_map documentTurn (g := .file) hread

theorem reads_documents : Reads (importDocuments src) documentTurn (documentEntries src) := by
  refine (reads_parts fun doc _ => reads_doc _ _ _).andThen (reads_if ?_)
  refine reads_parts fun name _ => ?_
  exact reads_dated (fun _ => rfl) (fun _ => rfl) fun d => reads_doc _ _ _

/-! ## Ledgers -/

inductive LedgerEntry where
  | misnamed
  | raised
  | line (l : LedgerName) (d : Option IsoDate) (raw : Option Bytes)

/-- The turn of a row, with the table in place of what was seen of it. -/
def ledgerRecord (py : Python) (l : LedgerName) (d : Option IsoDate) (tables : Tables)
    (record : Record) : Turn Tables Counter Reason :=
  match rowDate d record with
  | .error e => .skipped (.ledger e)
  | .ok none => .raised
  | .ok (some day) =>
    if canonical record ∈ canonicalRows (tables l) day then .already tables
    else match ledgerAppend py tables l day record with
      | .refused e => .skipped (.ledger e)
      | .snapshotted => .skipped .snapshotted
      | .raised => .raised
      | .appended tables' => .wrote tables' (.ledger l)

def ledgerTurn (py : Python) (tables : Tables) : LedgerEntry → Turn Tables Counter Reason
  | .misnamed => .skipped .filename
  | .raised => .raised
  | .line l d raw => lineTurn (readLine py) (ledgerRecord py l d) tables raw

def ledgerLines (src : SourceTree) (l : LedgerName) (path : String) (d : Option IsoDate) :
    List (Place × LedgerEntry) :=
  (src.lines path).map fun x => (x.1, .line l d x.2)

def datedFileEntries (src : SourceTree) (l : LedgerName) (dir suffix : String)
    (day : String → String) : List (Place × LedgerEntry) :=
  if src.isDir dir then
    (src.glob dir suffix).flatMap fun name =>
      datedEntries (dir ++ "/" ++ name) (day name) .misnamed .raised fun d =>
        ledgerLines src l (dir ++ "/" ++ name) (some d)
  else []

def datedLedgerEntries (src : SourceTree) : List (Place × LedgerEntry) :=
  (datedLedgers.flatMap fun e => datedFileEntries src e.2 ("research/" ++ e.1) ".jsonl" stem) ++
    if src.isFile "research/tombstones.jsonl" then
      ledgerLines src .tombstones "research/tombstones.jsonl" none
    else []

def eventEntries (src : SourceTree) : List (Place × LedgerEntry) :=
  datedFileEntries src .events "status/data" "-events.jsonl" (beforeSuffix "-events.jsonl")

def ledgerEntries (src : SourceTree) : List (Place × LedgerEntry) :=
  datedLedgerEntries src ++ eventEntries src

/-- A row that is written is the table's last. -/
theorem ledgerAppend_appended {tables tables' : Tables} {l : LedgerName} {d : IsoDate}
    {record : Record} (h : ledgerAppend py tables l d record = .appended tables') :
    ∃ symbol, tables' = Function.update tables l (tables l ++ [⟨d, symbol, record⟩]) := by
  have hrow : ∀ {symbol : Option Json},
      appendRow py tables l d symbol record = .appended tables' →
      ∃ symbol, tables' = Function.update tables l (tables l ++ [⟨d, symbol, record⟩]) := by
    intro symbol h
    unfold appendRow at h
    split at h
    · cases h
      exact ⟨symbol, rfl⟩
    · cases h
  unfold ledgerAppend at h
  dsimp only at h
  split at h
  · cases h
  · split at h
    · split at h
      · cases h
      · split at h
        · cases h
        · exact hrow h
    · exact hrow h

theorem mem_canonicalRows {rows : List LedgerRow} {d : IsoDate} {c : String} :
    c ∈ canonicalRows rows d ↔ ∃ r ∈ rows, r.date = d ∧ canonical r.record = c := by
  unfold canonicalRows
  simp [and_assoc]

theorem mem_canonicalRows_append {rows : List LedgerRow} {row : LedgerRow} {d : IsoDate}
    {c : String} : c ∈ canonicalRows (rows ++ [row]) d ↔
      c ∈ canonicalRows rows d ∨ (row.date = d ∧ canonical row.record = c) := by
  rw [mem_canonicalRows, mem_canonicalRows]
  simp [or_and_right, exists_or]

/-- What was seen of a day is what the table has of it. -/
private def SeenOf (l : LedgerName) (seen : Seen) (tables : Tables) : Prop :=
  ∀ (d : IsoDate) texts, seen.get? d.text = some texts →
    ∀ c, c ∈ texts ↔ c ∈ canonicalRows (tables l) d

private theorem seen_texts {l : LedgerName} {seen : Seen} {tables : Tables} (h : SeenOf l seen tables)
    (day : IsoDate) (c : String) :
    c ∈ (seen.get? day.text).getD (canonicalRows (tables l) day) ↔
      c ∈ canonicalRows (tables l) day := by
  cases hseen : seen.get? day.text with
  | none => rfl
  | some texts => exact h day texts hseen c

private theorem ledgerRow_rel {l : LedgerName} {d : Option IsoDate} {tables : Tables} {seen : Seen}
    (record : Record) (h : SeenOf l seen tables) :
    TurnRel (fun c s => c.1 = s ∧ SeenOf l c.2 s) (ledgerRow py l d (tables, seen) record)
      (ledgerRecord py l d tables record) := by
  unfold ledgerRow ledgerRecord
  cases hdate : rowDate d record with
  | error e => exact .skipped
  | ok day? =>
    cases day? with
    | none => exact .raised
    | some day =>
      dsimp only
      have htexts := seen_texts h day
      by_cases hmem : canonical record ∈ canonicalRows (tables l) day
      · rw [if_pos ((htexts _).mpr hmem), if_pos hmem]
        refine .already ⟨rfl, fun day' texts hget c => ?_⟩
        rw [Dict.get?_set] at hget
        split at hget
        next heq =>
          obtain ⟨_, _⟩ := day'
          obtain ⟨_, _⟩ := day
          cases heq
          rw [← Option.some.inj hget]
          exact htexts c
        · exact h day' texts hget c
      · rw [if_neg (fun hc => hmem ((htexts _).mp hc)), if_neg hmem]
        cases happend : ledgerAppend py tables l day record with
        | refused e => exact .skipped
        | snapshotted => exact .skipped
        | raised => exact .raised
        | appended tables' =>
          obtain ⟨symbol, rfl⟩ := ledgerAppend_appended happend
          refine .wrote ⟨rfl, fun day' texts hget c => ?_⟩
          rw [Function.update_self, mem_canonicalRows_append]
          dsimp only at hget ⊢
          rw [Dict.get?_set] at hget
          split at hget
          next heq =>
            obtain ⟨_, _⟩ := day'
            obtain ⟨_, _⟩ := day
            cases heq
            rw [← Option.some.inj hget, List.mem_cons, htexts, or_comm, eq_comm]
            simp
          next hne =>
            rw [h day' texts hget c]
            refine (or_iff_left ?_).symm
            rintro ⟨rfl, -⟩
            exact hne rfl

private theorem reads_ledgerFile (l : LedgerName) (path : String) (d : Option IsoDate) :
    Reads (importLedgerFile py src l path d) (ledgerTurn py) (ledgerLines src l path d) := by
  refine reads_map (f := importLedgerFile py src l path d) (ledgerTurn py) ?_
  change Reads (src.readJsonl py path _) (lineTurn (readLine py) (ledgerRecord py l d)) _
  refine reads_wholeFile fun rows => ?_
  refine reads_cached (SeenOf l) (fun _ => Dict.empty)
    (fun s day texts hget => ?_) fun s c a hc => ledgerRow_rel a hc
  cases hget

private theorem reads_datedFiles (l : LedgerName) (dir suffix : String) (day : String → String) :
    Reads (importDatedFiles py src l dir suffix day) (ledgerTurn py)
      (datedFileEntries src l dir suffix day) := by
  refine reads_if (reads_parts fun name _ => ?_)
  exact reads_dated (fun _ => rfl) (fun _ => rfl) fun d => reads_ledgerFile _ _ _

theorem reads_ledgers : Reads ((importDatedLedgers py src).andThen (importEvents py src))
    (ledgerTurn py) (ledgerEntries src) := by
  refine Reads.andThen (Reads.andThen ?_ (reads_if (reads_ledgerFile _ _ _)))
    (reads_datedFiles _ _ _ _)
  exact reads_parts fun e _ => reads_datedFiles _ _ _ _

/-! ## Evidence -/

structure EvidenceEntry where
  symbol : String
  raw : Option Bytes

def evidenceRecord (py : Python) (symbol : String) (rows : List EvidenceRow) (record : Record) :
    Turn (List EvidenceRow) Counter Reason :=
  match dateStr (record.get? "observed") "observed" with
  | .error e => .skipped (.ledger e)
  | .ok observed =>
    if canonical record ∈ evidenceKeys rows symbol then .already rows
    else match fromisoformat observed with
      | none => .raised
      | some d => match evidenceAppend py rows symbol d record with
        | .refused e => .skipped (.ledger e)
        | .snapshotted => .raised
        | .raised => .raised
        | .appended rows' => .wrote rows' .evidence

/-- A row of a file whose name no table takes raises before it is looked at. -/
def evidenceTurn (py : Python) (rows : List EvidenceRow) (e : EvidenceEntry) :
    Turn (List EvidenceRow) Counter Reason :=
  lineTurn (readLine py) (fun rows record =>
    if py.encodable e.symbol then evidenceRecord py e.symbol rows record else .raised) rows e.raw

def evidenceLines (src : SourceTree) (path symbol : String) : List (Place × EvidenceEntry) :=
  (src.lines path).map fun x => (x.1, ⟨symbol, x.2⟩)

def evidenceEntries (src : SourceTree) : List (Place × EvidenceEntry) :=
  if src.isDir "research/evidence" then
    (src.glob "research/evidence" ".jsonl").flatMap fun name =>
      evidenceLines src ("research/evidence/" ++ name) (stem name)
  else []

/-- What `evidence_append` writes has the file's symbol and the line's key. -/
theorem evidenceOf_ok {symbol : String} {d : IsoDate} {record : Record} {row : EvidenceRow}
    (h : evidenceOf symbol d record = .ok row) :
    row.symbol = symbol ∧ evidenceKey row = canonical record := by
  have hstr : ∀ {key v : String}, nonemptyStr record key = .ok v →
      record.get? key = some (.str v) := by
    intro key v hv
    unfold nonemptyStr at hv
    split at hv
    next hget =>
      split at hv
      · cases hv
      · cases hv
        exact hget
    · cases hv
  unfold evidenceOf at h
  obtain ⟨sym, hsym, h⟩ := except_bind_ok h
  obtain ⟨claim, hclaim, h⟩ := except_bind_ok h
  obtain ⟨url, hurl, h⟩ := except_bind_ok h
  obtain ⟨independence, hindependence, h⟩ := except_bind_ok h
  obtain ⟨sourceType, hsource, h⟩ := except_bind_ok h
  obtain ⟨observed, hobserved, h⟩ := except_bind_ok h
  split at h
  · cases h
  · split at h
    · cases h
    · cases h
      constructor
      · unfold symbolOf at hsym
        dsimp only at hsym
        split at hsym
        · cases hsym
          rfl
        · cases hsym
      · refine Record.dumps_congr spaced fun k => ?_
        rw [Dict.get?_update, Dict.get?_without]
        unfold evidenceFields Dict.ofPairs
        simp only [List.foldl_cons, List.foldl_nil, Dict.get?_set, Dict.get?_empty,
          List.mem_cons, List.not_mem_nil, or_false]
        -- each of the five columns, and everything else
        by_cases h₁ : k = "independence"
        · simp [h₁, hstr hindependence]
        · by_cases h₂ : k = "observed"
          · simp [h₂, hstr hobserved]
          · by_cases h₃ : k = "source_type"
            · simp [h₃, hstr hsource]
            · by_cases h₄ : k = "url"
              · simp [h₄, hstr hurl]
              · by_cases h₅ : k = "claim"
                · simp [h₅, hstr hclaim]
                · simp [h₁, h₂, h₃, h₄, h₅]

theorem evidenceAppend_appended {rows rows' : List EvidenceRow} {symbol : String} {d : IsoDate}
    {record : Record} (h : evidenceAppend py rows symbol d record = .appended rows') :
    ∃ row, evidenceOf symbol d record = .ok row ∧ rows' = rows ++ [row] := by
  unfold evidenceAppend at h
  split at h
  · cases h
  next row hrow =>
    split at h
    · cases h
      exact ⟨row, hrow, rfl⟩
    · cases h

theorem evidenceKeys_append {rows : List EvidenceRow} {row : EvidenceRow} {symbol c : String} :
    c ∈ evidenceKeys (rows ++ [row]) symbol ↔
      c ∈ evidenceKeys rows symbol ∨ (row.symbol = symbol ∧ evidenceKey row = c) := by
  unfold evidenceKeys
  simp [and_assoc]

private theorem evidenceRow_rel {symbol : String} {rows : List EvidenceRow} {seen : List String}
    (record : Record) (h : ∀ c, c ∈ seen ↔ c ∈ evidenceKeys rows symbol) :
    TurnRel (fun c s => c.1 = s ∧ ∀ k, k ∈ c.2 ↔ k ∈ evidenceKeys s symbol)
      (evidenceRow py symbol (rows, seen) record) (evidenceRecord py symbol rows record) := by
  unfold evidenceRow evidenceRecord
  cases dateStr (record.get? "observed") "observed" with
  | error e => exact .skipped
  | ok observed =>
    dsimp only
    by_cases hmem : canonical record ∈ evidenceKeys rows symbol
    · rw [if_pos ((h _).mpr hmem), if_pos hmem]
      exact .already ⟨rfl, h⟩
    · rw [if_neg (fun hc => hmem ((h _).mp hc)), if_neg hmem]
      cases fromisoformat observed with
      | none => exact .raised
      | some d =>
        dsimp only
        cases happend : evidenceAppend py rows symbol d record with
        | refused e => exact .skipped
        | snapshotted => exact .raised
        | raised => exact .raised
        | appended rows' =>
          obtain ⟨row, hrow, rfl⟩ := evidenceAppend_appended happend
          obtain ⟨hsymbol, hkey⟩ := evidenceOf_ok hrow
          refine .wrote ⟨rfl, fun k => ?_⟩
          rw [evidenceKeys_append, List.mem_cons, h, or_comm, eq_comm, hkey]
          simp [hsymbol]

private theorem reads_evidenceFile (path symbol : String) :
    Reads (importEvidenceFile py src path symbol) (evidenceTurn py)
      (evidenceLines src path symbol) := by
  refine reads_map (f := importEvidenceFile py src path symbol) (evidenceTurn py) ?_
  change Reads (src.readJsonl py path _) (lineTurn (readLine py) fun rows record =>
    if py.encodable symbol then evidenceRecord py symbol rows record else .raised) _
  refine reads_wholeFile fun rs => ?_
  cases rs with
  | nil => exact reads_nothing
  | cons r rs =>
    by_cases henc : py.encodable symbol = true
    · simp only [List.isEmpty_cons, henc, if_true, Bool.false_eq_true, if_false]
      exact reads_cached (fun seen rows => ∀ c, c ∈ seen ↔ c ∈ evidenceKeys rows symbol)
        (fun rows => evidenceKeys rows symbol)
        (fun _ _ => Iff.rfl) fun s c a hc => evidenceRow_rel a hc
    · intro s
      rw [turns_cons]
      simp only [List.isEmpty_cons, henc, Bool.false_eq_true, if_false]
      exact .none

theorem reads_evidence : Reads (importEvidence py src) (evidenceTurn py) (evidenceEntries src) :=
  reads_if (reads_parts fun _ _ => reads_evidenceFile _ _)

/-! ## Sectors -/

inductive SectorEntry where
  | refused (reason : Reason)
  | line (cs : List Char)

def sectorRecord (table : Sectors) (line : List Char) : Turn Sectors Counter Reason :=
  if isComment line then .already table
  else match sectorFields line with
    | [symbol, sector, stamp] =>
      if (table.get? symbol).map (fun tag => (tag.1, tag.2.text)) = some (sector, stamp) then
        .already table
      else match sectorStampOf stamp with
        | .error e => .skipped (.ledger e)
        | .ok none => .raised
        | .ok (some d) => match sectorWrite table [(symbol, sector)] d with
          | .error e => .skipped (.ledger e)
          | .ok table' => .wrote table' .sectors
    | fields => .skipped (.columns 3 fields.length)

def sectorTurn (table : Sectors) : SectorEntry → Turn Sectors Counter Reason
  | .refused reason => .skipped reason
  | .line cs => sectorRecord table cs

def sectorEntries (src : SourceTree) : List (Place × SectorEntry) :=
  let path := "research/sectors.tsv"
  if src.isFile path then
    match src.readText path with
    | .error reason => [(⟨path, none⟩, .refused reason)]
    | .ok text => (numbered path 1 (splitlines text)).map fun x => (x.1, .line x.2)
  else []

/-- A tag of one symbol is written as it is, or refused. -/
theorem sectorWrite_one {table : Sectors} {symbol sector : String} {d : IsoDate} :
    sectorWrite table [(symbol, sector)] d =
      if matchesSymbol symbol = false then .error .symbol
      else if sector ∈ sectorNames then .ok (table.set symbol (sector, d))
      else .error (.sector 1) := by
  unfold sectorWrite
  rw [if_neg (by simp), List.zipIdx_cons, List.zipIdx_nil]
  unfold validatedSectors symbolOf
  dsimp only
  cases matchesSymbol symbol with
  | false => rfl
  | true =>
    by_cases hsector : sector ∈ sectorNames
    · rw [if_pos rfl, if_neg (by simp), if_pos hsector]
      change (if sector ∈ sectorNames then (_ : Except LedgerError Sectors) else _).map _ = _
      rw [if_pos hsector]
      rfl
    · rw [if_pos rfl, if_neg (by simp), if_neg hsector]
      change (if sector ∈ sectorNames then (_ : Except LedgerError Sectors) else _).map _ = _
      rw [if_neg hsector]
      rfl

/-- The tags are those of the table. -/
private def TagsOf (tags : Tags) (table : Sectors) : Prop :=
  ∀ symbol, tags.get? symbol = (table.get? symbol).map fun tag => (tag.1, tag.2.text)

private theorem tagsOf_table (table : Sectors) : TagsOf (tagsOf table) table := by
  intro symbol
  unfold tagsOf
  rw [Dict.get?_ofPairs (by rw [List.map_map]; exact table.nodup)]
  unfold Dict.get?
  induction table.items with
  | nil => rfl
  | cons e items ih =>
    rw [List.map_cons, List.lookup_cons, List.lookup_cons]
    cases symbol == e.1 with
    | false => exact ih
    | true => rfl

theorem sectorStampOf_text {stamp : String} {d : IsoDate} (h : sectorStampOf stamp = .ok (some d)) :
    d.text = stamp := by
  unfold sectorStampOf at h
  split at h
  · exact fromisoformat_text (Except.ok.inj h)
  · cases h

private theorem sectorRow_rel {table : Sectors} {tags : Tags} (line : List Char)
    (h : TagsOf tags table) :
    TurnRel (fun c s => c.1 = s ∧ TagsOf c.2 s) (sectorRow (table, tags) line)
      (sectorRecord table line) := by
  unfold sectorRow sectorRecord
  by_cases hblank : isComment line = true
  · rw [if_pos hblank, if_pos hblank]
    exact .already ⟨rfl, h⟩
  · rw [if_neg hblank, if_neg hblank]
    generalize sectorFields line = fields
    match fields with
    | [symbol, sector, stamp] =>
      dsimp only
      rw [h symbol]
      split
      · exact .already ⟨rfl, h⟩
      · cases hstamp : sectorStampOf stamp with
        | error e => exact .skipped
        | ok day? =>
          cases day? with
          | none => exact .raised
          | some d =>
            have hd : d.text = stamp := sectorStampOf_text hstamp
            dsimp only
            rw [sectorWrite_one]
            by_cases hsymbol : matchesSymbol symbol = false
            · rw [if_pos hsymbol]
              exact .skipped
            · rw [if_neg hsymbol]
              by_cases hsector : sector ∈ sectorNames
              · rw [if_pos hsector]
                refine .wrote ⟨rfl, fun symbol' => ?_⟩
                rw [Dict.get?_set, Dict.get?_set]
                split
                · rw [Option.map_some, hd]
                · exact h symbol'
              · rw [if_neg hsector]
                exact .skipped
    | [] => exact .skipped
    | [_] => exact .skipped
    | [_, _] => exact .skipped
    | _ :: _ :: _ :: _ :: _ => exact .skipped

theorem reads_sectors : Reads (importSectors src) sectorTurn (sectorEntries src) := by
  unfold importSectors sectorEntries
  refine reads_if ?_
  cases src.readText "research/sectors.tsv" with
  | error reason =>
    intro s
    exact .refl _
  | ok text =>
    refine reads_map sectorTurn (g := SectorEntry.line) ?_
    exact reads_cached TagsOf tagsOf tagsOf_table
      fun s c a hc => sectorRow_rel a hc

end TradeDesk.Research
