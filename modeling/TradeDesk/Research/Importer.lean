import TradeDesk.Research.Source

/-!
# The importer

`tc/research/importer.py`: the v2 store is moved into the engine's, once.
Each part of the source has its own notion of what is there already: a
document is compared as text, a ledger row by its canonical JSON, a raise by
its id, a score by its position under its id, a sector by its last tag, a
sweep by its symbols. What a part refuses it names and goes on.

An import that raises gives nothing here; what it had written by then is not
modelled. The stamps of the writing, the counts a sector write returns and
the text column `symbol` of the ledgers other than `oi` are left out, as
nothing that is imported reads them.
-/

namespace TradeDesk.Research

open TradeDesk.Lists

/-! ## The store -/

/-- `LEDGER_TABLES`. -/
inductive LedgerName where
  | screen | iv | oi | tombstones | events
deriving DecidableEq, Repr

/-- `LEDGER_REQUIRED`. -/
def LedgerName.required : LedgerName → List String
  | .screen => ["symbol", "t", "src"]
  | .iv => ["symbol", "t", "atm_iv"]
  | .oi => ["symbol", "t"]
  | .tombstones => ["symbol", "date", "gate", "reason", "ref_price"]
  | .events => ["t"]

/-- A row of a ledger; its symbol is what was bound, before `str`. -/
structure LedgerRow where
  date : IsoDate
  symbol : Option Json
  record : Record

abbrev Tables := LedgerName → List LedgerRow

/-- A row of `evidence`. -/
structure EvidenceRow where
  symbol : String
  date : IsoDate
  claim : String
  url : String
  sourceType : String
  observed : String
  independence : String
  extra : Record

/-- A symbol's sector, and the day it was tagged. -/
abbrev Sectors := Dict String (String × IsoDate)

/-- A row that is imported into `universe`; a number may be infinite or none. -/
structure SweepRow where
  symbol : String
  price : ParsedDecimal
  adv10 : ParsedDecimal
  dollarVol : ParsedDecimal
  pctFrom52wkHigh : ParsedDecimal
  optionable : Bool
  leverage : ParsedDecimal
  lastEarnings : String
  isEtf : Bool
  sessionRangePct : Option ParsedDecimal
  description : String
  qualified : Bool
deriving DecidableEq

/-- A row of `universe`, in its sweep. -/
structure SweepEntry where
  asof : IsoDate
  row : SweepRow
deriving DecidableEq

/-- The tables and the documents that the import writes. -/
structure ResearchStore where
  docs : DocStore
  ledgers : Tables
  evidence : List EvidenceRow
  escalations : Escalations
  sectors : Sectors
  universe_ : List SweepEntry

/-- The counts of `ImportReport`. -/
inductive Counter where
  | documents | evidence | escalations | sectors | universe_
  | ledger (l : LedgerName)
deriving DecidableEq, Repr

/-- `ImportReport`: every row newly written, and every skip. -/
abbrev Report := Tally Place Counter Reason

def Report.count (r : Report) (c : Counter) : ℕ := r.wrote.count c

/-- The part of the import that fills one table. -/
abbrev Import (σ : Type) := Part σ Place Counter Reason

def nothing {σ : Type} : Import σ := fun s => some (s, ⟨[], []⟩)

def skip {σ : Type} (path : String) (reason : Reason) : Import σ := fun s =>
  some (s, ⟨[], [(⟨path, none⟩, reason)]⟩)

/-- `DATED.match`, then `date.fromisoformat`: a file whose name is not dated is
skipped, and a date that is none raises. -/
def dated {σ : Type} (path stem : String) (file : IsoDate → Import σ) : Import σ :=
  if matchesDate stem = false then skip path .filename
  else match fromisoformat stem with
    | none => fun _ => none
    | some d => file d

variable (py : Python) (src : SourceTree)

/-! ## Documents -/

/-- `FLAT_DOCS`. -/
def flatDocs : List (DocKind × String) :=
  [(.candidates, "candidates.md"), (.standing, "standing.md"), (.scorecard, "scorecard.md"),
    (.optionsRoster, "options-roster.md"), (.universe, "universe.md")]

/-- A document's file: what kind it is, its date, and what was read. -/
structure DocFile where
  kind : DocKind
  date : Option IsoDate
  content : Except Reason (List Char)

/-- `_import_doc`, of a file that is there. -/
def docTurn (docs : DocStore) (file : DocFile) : Turn DocStore Counter Reason :=
  let d := file.date.map (·.text)
  match file.content with
  | .error reason => .skipped reason
  | .ok body => match docs.read file.kind d with
    | .error _ => .raised
    | .ok current =>
      if current.exists_ && current.body == String.ofList (written body) then .already docs
      else match docs.replace file.kind body d none true with
        | (docs', .ok _) => .wrote docs' .documents
        | (_, .error (.validation message)) => .skipped (.document message)
        | (_, .error _) => .raised

/-- `_import_doc`. -/
def importDoc (path : String) (kind : DocKind) (d : Option IsoDate) : Import DocStore :=
  if src.isFile path then
    fun docs => turns docTurn docs [(⟨path, none⟩, ⟨kind, d, src.readText path⟩)]
  else nothing

/-- `_import_documents`. -/
def importDocuments : Import DocStore :=
  (parts (flatDocs.map fun doc => importDoc src ("research/" ++ doc.2) doc.1 none)).andThen
    (if src.isDir "research/preopen" then
      parts ((src.glob "research/preopen" ".md").map fun name =>
        dated ("research/preopen/" ++ name) (stem name) fun d =>
          importDoc src ("research/preopen/" ++ name) .preopen (some d))
    else nothing)

/-! ## Ledgers -/

/-- `_canonical`. -/
def canonical (record : Record) : String := record.dumps spaced

/-- `_present`. -/
def present (record : Record) (key : String) : Except LedgerError Unit :=
  match record.get? key with
  | none => .error (.notPresent key)
  | some .null => .error (.notPresent key)
  | some (.str s) => if s = "" then .error (.notPresent key) else .ok ()
  | some _ => .ok ()

/-- A text a table takes; what is no string is bound as its `str`. -/
def bindable : Option Json → Bool
  | some (.str s) => py.encodable s
  | _ => true

/-- What `ledger_append` answers. -/
inductive Appended (σ : Type) where
  | appended (s : σ)
  | snapshotted
  | refused (e : LedgerError)
  | raised

/-- `Store.append_ledger`. -/
def appendRow (tables : Tables) (l : LedgerName) (d : IsoDate) (symbol : Option Json)
    (record : Record) : Appended Tables :=
  if bindable py symbol then
    .appended (Function.update tables l (tables l ++ [⟨d, symbol, record⟩]))
  else .raised

/-- `oi_symbol_seen`. -/
def oiSymbolSeen (tables : Tables) (d : IsoDate) (symbol : String) : Bool :=
  (tables .oi).any fun r => r.date == d && r.symbol.any (Json.isStr symbol)

/-- What `ledger_append` checks first. -/
def checkRow (l : LedgerName) (d : IsoDate) (record : Record) : Except LedgerError Unit := do
  l.required.forM (present record)
  if l = .tombstones ∧ (record.get? "date").any (Json.isStr d.text) = false then
    .error .tombstoneDate
  else .ok ()

/-- `ledger_append`. The table's own rule for `oi` is the check made before
the write, as nothing else is writing. -/
def ledgerAppend (tables : Tables) (l : LedgerName) (d : IsoDate) (record : Record) :
    Appended Tables :=
  let symbol := record.get? "symbol"
  match checkRow l d record with
  | .error e => .refused e
  | .ok () =>
    if l = .oi then
      match symbolOf symbol with
      | .error e => .refused e
      | .ok sym =>
        if oiSymbolSeen tables d sym then .snapshotted
        else appendRow py tables l d (some (.str sym)) record
    else appendRow py tables l d symbol record

/-- The canonical texts the table has for a day. -/
def canonicalRows (rows : List LedgerRow) (d : IsoDate) : List String :=
  (rows.filter fun r => r.date == d).map fun r => canonical r.record

/-- The date of a row: its file's, or its own. -/
def rowDate (d : Option IsoDate) (record : Record) : Except LedgerError (Option IsoDate) :=
  match d with
  | some d => .ok (some d)
  | none => (dateStr (record.get? "date") "date").map fromisoformat

/-- The texts seen so far, by day. -/
abbrev Seen := Dict String (List String)

/-- The body of the loop of `_import_ledger_file`. What a refused row had
loaded of a day is loaded again by the next one. -/
def ledgerRow (l : LedgerName) (d : Option IsoDate) (c : Tables × Seen) (record : Record) :
    Turn (Tables × Seen) Counter Reason :=
  match rowDate d record with
  | .error e => .skipped (.ledger e)
  | .ok none => .raised
  | .ok (some day) =>
    let texts := (c.2.get? day.text).getD (canonicalRows (c.1 l) day)
    if canonical record ∈ texts then .already (c.1, c.2.set day.text texts)
    else match ledgerAppend py c.1 l day record with
      | .refused e => .skipped (.ledger e)
      | .snapshotted => .skipped .snapshotted
      | .raised => .raised
      | .appended tables =>
        .wrote (tables, c.2.set day.text (canonical record :: texts)) (.ledger l)

/-- `_import_ledger_file`. -/
def importLedgerFile (l : LedgerName) (path : String) (d : Option IsoDate) : Import Tables :=
  src.readJsonl py path fun rows tables =>
    (turns (ledgerRow py l d) (tables, Dict.empty) rows).map fun r => (r.1.1, r.2)

/-- The files of a directory whose names are a date and an ending. -/
def importDatedFiles (l : LedgerName) (dir : String) (suffix : String) (day : String → String) :
    Import Tables :=
  if src.isDir dir then
    parts ((src.glob dir suffix).map fun name => dated (dir ++ "/" ++ name) (day name) fun d =>
      importLedgerFile py src l (dir ++ "/" ++ name) (some d))
  else nothing

/-- `DATED_LEDGERS`. -/
def datedLedgers : List (String × LedgerName) := [("screen", .screen), ("iv", .iv), ("oi", .oi)]

/-- `_import_dated_ledgers`. -/
def importDatedLedgers : Import Tables :=
  (parts (datedLedgers.map fun e =>
    importDatedFiles py src e.2 ("research/" ++ e.1) ".jsonl" stem)).andThen
    (if src.isFile "research/tombstones.jsonl" then
      importLedgerFile py src .tombstones "research/tombstones.jsonl" none
    else nothing)

/-- What stands before a name's ending. -/
def beforeSuffix (suffix name : String) : String :=
  String.ofList (name.toList.take (name.length - suffix.length))

/-- `_import_events`. -/
def importEvents : Import Tables :=
  importDatedFiles py src .events "status/data" "-events.jsonl" (beforeSuffix "-events.jsonl")

/-! ## Evidence -/

/-- The fields `evidence_append` keeps in columns of their own. -/
def evidenceFields : List String := ["claim", "url", "source_type", "observed", "independence"]

/-- `evidence_append`, whose row goes to `Store.insert_evidence`. -/
def evidenceOf (symbol : String) (d : IsoDate) (record : Record) :
    Except LedgerError EvidenceRow := do
  let sym ← symbolOf (some (.str symbol))
  let claim ← nonemptyStr record "claim"
  let url ← nonemptyStr record "url"
  let independence ← nonemptyStr record "independence"
  let sourceType ← nonemptyStr record "source_type"
  let observed ← nonemptyStr record "observed"
  if sourceType ∉ sourceTypes then .error .sourceType
  else if observed ≠ d.text then .error .observed
  else .ok ⟨sym, d, claim, url, sourceType, observed, independence, record.without evidenceFields⟩

def evidenceAppend (rows : List EvidenceRow) (symbol : String) (d : IsoDate) (record : Record) :
    Appended (List EvidenceRow) :=
  match evidenceOf symbol d record with
  | .error e => .refused e
  | .ok row =>
    if [row.symbol, row.claim, row.url, row.sourceType, row.observed, row.independence].all
        py.encodable then
      .appended (rows ++ [row])
    else .raised

/-- `_evidence_key`. -/
def evidenceKey (row : EvidenceRow) : String :=
  canonical ((Dict.ofPairs [("claim", .str row.claim), ("url", .str row.url),
    ("source_type", .str row.sourceType), ("observed", .str row.observed),
    ("independence", .str row.independence)]).update row.extra)

/-- The keys of `evidence_for`. -/
def evidenceKeys (rows : List EvidenceRow) (symbol : String) : List String :=
  (rows.filter fun r => r.symbol == symbol).map evidenceKey

/-- The body of the inner loop of `_import_evidence`. -/
def evidenceRow (symbol : String) (c : List EvidenceRow × List String) (record : Record) :
    Turn (List EvidenceRow × List String) Counter Reason :=
  match dateStr (record.get? "observed") "observed" with
  | .error e => .skipped (.ledger e)
  | .ok observed =>
    if canonical record ∈ c.2 then .already c
    else match fromisoformat observed with
      | none => .raised
      | some d => match evidenceAppend py c.1 symbol d record with
        | .refused e => .skipped (.ledger e)
        | .snapshotted => .raised
        | .raised => .raised
        | .appended rows => .wrote (rows, canonical record :: c.2) .evidence

/-- The body of the outer one. -/
def importEvidenceFile (path symbol : String) : Import (List EvidenceRow) :=
  src.readJsonl py path fun rs rows =>
    if rs.isEmpty then nothing rows
    else if py.encodable symbol then
      (turns (evidenceRow py symbol) (rows, evidenceKeys rows symbol) rs).map fun r => (r.1.1, r.2)
    else none

/-- `_import_evidence`. -/
def importEvidence : Import (List EvidenceRow) :=
  if src.isDir "research/evidence" then
    parts ((src.glob "research/evidence" ".jsonl").map fun name =>
      importEvidenceFile py src ("research/evidence/" ++ name) (stem name))
  else nothing

/-! ## Escalations -/

/-- The id a raise or a score is bound under. -/
def boundId (record : Record) : Bool := bindable py (record.get? "id")

/-- The body of the loop of `_import_escalations`. An id that no table takes
raises at the first look for its raise. -/
def escalationRow (prior : String → List Json) (c : Escalations × FiledScores) (record : Record) :
    Turn (Escalations × FiledScores) Counter Reason :=
  match importEscalation prior c.2 c.1 record with
  | none => .skipped .kind
  | some (.skipped (.noSuchRaise eid), _) =>
    if boundId py record then .skipped (.ledger (.noSuchRaise eid)) else .raised
  | some (.skipped e, _) => .skipped (.ledger e)
  | some (.raised, _) => .raised
  | some (.already, filed) =>
    if boundId py record || (record.get? "kind").any (Json.isStr "score") then .already (c.1, filed)
    else .raised
  | some (.wrote rows, filed) =>
    if boundId py record then .wrote (rows, filed) .escalations else .raised

/-- `_import_escalations`. -/
def importEscalations : Import Escalations := fun rows =>
  if src.isFile "research/escalations.jsonl" then
    ((src.readJsonl py "research/escalations.jsonl" fun rs c =>
      turns (escalationRow py (existingScores rows)) c rs) (rows, Dict.empty)).map
      fun r => (r.1.1, r.2)
  else nothing rows

/-! ## Sectors -/

/-- `IN_SCOPE_SECTORS`. -/
def inScopeSectors : List String := ["consumer-software", "airlines-transport", "semis-hardware"]

def sectorNames : List String := inScopeSectors ++ ["other"]

/-- What `sector_write` makes of its rows, numbered: the last row of a symbol
stays. -/
def validatedSectors (d : IsoDate) : List ((String × String) × ℕ) → Sectors →
    Except LedgerError Sectors
  | [], validated => .ok validated
  | ((symbol, sector), i) :: rows, validated => do
    let sym ← symbolOf (some (.str symbol))
    if sector ∈ sectorNames then validatedSectors d rows (validated.set sym (sector, d))
    else .error (.sector i)

/-- `sector_write`: every row is checked before any is written. -/
def sectorWrite (table : Sectors) (rows : List (String × String)) (d : IsoDate) :
    Except LedgerError Sectors :=
  if rows.isEmpty then .error .noRows
  else (validatedSectors d (rows.zipIdx 1) Dict.empty).map table.update

/-- `_stamp`: nothing where it raises what no one catches. -/
def sectorStampOf (value : String) : Except LedgerError (Option IsoDate) :=
  if matchesDate value then .ok (fromisoformat value) else .error (.date "date")

/-- A line of the file is a comment, or nothing. -/
def isComment (line : List Char) : Bool :=
  (stripChars line).isEmpty || (line.dropWhile isSpace).head? == some '#'

/-- The fields of a line, stripped. -/
def sectorFields (line : List Char) : List String :=
  (line.splitOn '\t').map fun f => String.ofList (stripChars f)

/-- The tags as the importer has read them: the stamp is a text. -/
abbrev Tags := Dict String (String × String)

def tagsOf (table : Sectors) : Tags :=
  Dict.ofPairs (table.items.map fun e => (e.1, (e.2.1, e.2.2.text)))

/-- The body of the loop of `_import_sectors`. -/
def sectorRow (c : Sectors × Tags) (line : List Char) : Turn (Sectors × Tags) Counter Reason :=
  if isComment line then .already c
  else match sectorFields line with
    | [symbol, sector, stamp] =>
      if c.2.get? symbol = some (sector, stamp) then .already c
      else match sectorStampOf stamp with
        | .error e => .skipped (.ledger e)
        | .ok none => .raised
        | .ok (some d) => match sectorWrite c.1 [(symbol, sector)] d with
          | .error e => .skipped (.ledger e)
          | .ok table => .wrote (table, c.2.set symbol (sector, stamp)) .sectors
    | fields => .skipped (.columns 3 fields.length)

/-- `_import_sectors`. -/
def importSectors : Import Sectors :=
  let path := "research/sectors.tsv"
  if src.isFile path then
    match src.readText path with
    | .error reason => skip path reason
    | .ok text => fun table =>
      (turns sectorRow (table, tagsOf table) (numbered path 1 (splitlines text))).map
        fun r => (r.1.1, r.2)
  else nothing

/-! ## The universe -/

/-- `UNIVERSE_COLUMNS`. -/
def universeColumns : List String :=
  ["symbol", "price", "adv10", "dollar_vol", "pct_from_52wk_high", "optionable", "leverage",
    "last_earnings", "is_etf", "session_range_pct"]

/-- Where `^` matches: the text, and what follows each newline. -/
def lineStarts : List Char → List (List Char)
  | [] => [[]]
  | '\n' :: cs => ('\n' :: cs) :: lineStarts cs
  | c :: cs => match lineStarts cs with
    | _ :: rest => (c :: cs) :: rest
    | [] => [c :: cs]

/-- `ASSEMBLED`, at one place: only the date part of the stamp is read. -/
def assembledAt (cs : List Char) : Option String :=
  let stamp := String.ofList (((cs.drop 10).dropWhile isSpace).take 10)
  if "Assembled:".toList.isPrefixOf cs && matchesDate stamp then some stamp else none

/-- `ASSEMBLED.search`. -/
def assembled (text : List Char) : Option String := (lineStarts text).findSome? assembledAt

/-- `_is_universe_block`. -/
def isUniverseBlock (block : List (List Char)) : Bool :=
  block.head?.any fun l => "symbol\t".toList.isPrefixOf l

/-- `_fenced_tsv`: the first fenced block that starts as the table does; the
last fence may be missing. -/
def fencedTsv (block : Option (List (List Char))) :
    List (List Char) → Option (List (List Char))
  | [] => block.filter isUniverseBlock
  | l :: ls =>
    if "```".toList.isPrefixOf l then
      match block with
      | some b => if isUniverseBlock b then some b else fencedTsv none ls
      | none => fencedTsv (some []) ls
    else fencedTsv (block.map (· ++ [l])) ls

/-- `Decimal(text)`, where it is one. -/
def decimalOf (text : List Char) : Option ParsedDecimal :=
  match parseDecimal (String.ofList text) with
  | .invalid => none
  | d => some d

/-- `_universe_row`, of ten fields. -/
def universeRow (fields : List (List Char)) : Option SweepRow :=
  match fields with
  | [symbol, price, adv10, dollarVol, gap, optionable, leverage, lastEarnings, isEtf, range] => do
    let price ← decimalOf price
    let adv10 ← decimalOf adv10
    let dollarVol ← decimalOf dollarVol
    let gap ← decimalOf gap
    let leverage ← decimalOf leverage
    let range ← if range = ['-'] then some none else (decimalOf range).map some
    return ⟨String.ofList symbol, price, adv10, dollarVol, gap,
      optionable == "true".toList, leverage, String.ofList lastEarnings, isEtf == "true".toList,
      range, "", true⟩
  | _ => none

/-- The body of the loop over the table's rows. -/
def sweepRow (rows : List SweepRow) (line : List Char) : Turn (List SweepRow) Counter Reason :=
  if (stripChars line).isEmpty then .already rows
  else
    let fields := line.splitOn '\t'
    if fields.length ≠ universeColumns.length then
      .skipped (.columns universeColumns.length fields.length)
    else match universeRow fields with
      | none => .skipped .notANumber
      | some row => .already (rows ++ [row])

/-- `Store.universe_asof`: the last day of the table, as text. -/
def universeAsof (table : List SweepEntry) : Option IsoDate :=
  table.foldl (fun newest e => match newest with
    | none => some e.asof
    | some d => if d.text < e.asof.text then some e.asof else some d) none

/-- `Store.replace_universe`: the rows of a day are replaced. Two rows of one
symbol are refused by the table. -/
def replaceUniverse (table : List SweepEntry) (asof : IsoDate) (rows : List SweepRow) :
    Option (List SweepEntry) :=
  if (rows.map (·.symbol)).Nodup then
    some ((table.filter fun e => e.asof != asof) ++ rows.map fun row => ⟨asof, row⟩)
  else none

/-- The sweep is the store's universe. -/
def isStored (table : List SweepEntry) (asof : IsoDate) (rows : List SweepRow) : Bool :=
  let stored := ((table.filter fun e => e.asof == asof).map fun e => e.row.symbol)
  let read := rows.map (·.symbol)
  universeAsof table = some asof && stored.all read.contains && read.all stored.contains

/-- What the file of the universe says of itself: it is not there, it is
refused whole, its date raises, or it has a table. -/
inductive SweepFile where
  | absent
  | refused (reason : Reason)
  | raised
  | table (asof : IsoDate) (lines : List (Place × List Char))

/-- `_import_universe`, up to the rows. -/
def readUniverse : SweepFile :=
  let path := "research/universe.md"
  if src.isFile path then
    match src.readText path with
    | .error reason => .refused reason
    | .ok text => match assembled text with
      | none => .refused .noAssembled
      | some stamp => match fromisoformat stamp with
        | none => .raised
        | some asof => match fencedTsv none (splitlines text) with
          | none => .refused .noTable
          | some block =>
            if (block.headD []).splitOn '\t' = universeColumns.map String.toList then
              .table asof (numbered path 2 block.tail)
            else .refused .columnsMoved
  else .absent

/-- The write at the end of `_import_universe`. -/
def installSweep (table : List SweepEntry) (asof : IsoDate) (rows : List SweepRow) :
    Option (List SweepEntry × ℕ) :=
  if rows.isEmpty || isStored table asof rows then some (table, 0)
  else (replaceUniverse table asof rows).map fun table' => (table', rows.length)

/-- `_import_universe`. -/
def importSweep (file : SweepFile) : Import (List SweepEntry) := fun table =>
  match file with
  | .absent => nothing table
  | .refused reason => skip "research/universe.md" reason table
  | .raised => none
  | .table asof lines => (turns sweepRow [] lines).bind fun r =>
    (installSweep table asof r.1).map fun r' =>
      (r'.1, ⟨List.replicate r'.2 .universe_, r.2.skipped⟩)

def importUniverse : Import (List SweepEntry) := importSweep (readUniverse src)

/-! ## The whole import -/

/-- `import_research`. -/
def importResearch (s : ResearchStore) : Option (ResearchStore × Report) := do
  let (docs, documents) ← importDocuments src s.docs
  let (ledgers, dated) ← importDatedLedgers py src s.ledgers
  let (ledgers, events) ← importEvents py src ledgers
  let (evidence, observations) ← importEvidence py src s.evidence
  let (escalations, predictions) ← importEscalations py src s.escalations
  let (sectors, tags) ← importSectors src s.sectors
  let (sweeps, sweep) ← importUniverse src s.universe_
  return (⟨docs, ledgers, evidence, escalations, sectors, sweeps⟩,
    documents.add (dated.add (events.add (observations.add (predictions.add (tags.add sweep))))))

end TradeDesk.Research
