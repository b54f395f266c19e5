import TradeDesk.Loops.Screen
import TradeDesk.Research.Docs

/-!
# The weekly sweep

`run_weekly_universe` fetches the directory, quotes it in chunks, gates and
ranks what was quoted, and writes twice: the whole qualified set into the
table, the head of it into the document. Everything that can refuse comes
before the first write, except the text of the document, which is composed
between the two (`SweepEnd`).

What a sweep that ends well has installed (`Installed`) is read off its own
history: the directory it was told (`ReadDirectory`), what it asked
(`askedOf`) and the quotes it got (`quotedOf`), a failed chunk being asked
about and not quoted.
-/

namespace TradeDesk.Loops

open TradeDesk.Async TradeDesk.Lists TradeDesk.Research

/-! ## The text of the document -/

def roundHalfEven (x : ℚ) : ℤ :=
  let n := ⌊x⌋
  let r := x - n
  if r < 1 / 2 then n else if 1 / 2 < r then n + 1 else if n % 2 = 0 then n else n + 1

def padded (width n : ℕ) : String :=
  let digits := toString n
  String.ofList (List.replicate (width - digits.length) '0') ++ digits

/-- `_q`: a decimal with so many places; the coefficient has to fit the
context's twenty-eight digits. -/
def decimalText (places : ℕ) (d : ℚ) : Option String :=
  let n := (roundHalfEven (|d| * 10 ^ places)).toNat
  if 10 ^ 28 ≤ n then none
  else
    let whole := (if d < 0 then "-" else "") ++ toString (n / 10 ^ places)
    some (if places = 0 then whole else whole ++ "." ++ padded places (n % 10 ^ places))

example : decimalText 2 (-1 / 400) = some "-0.00" := by decide +kernel
example : decimalText 4 (1265 / 25) = some "50.6000" := by decide +kernel

def boolText (b : Bool) : String := if b then "true" else "false"

/-- `_tsv`. -/
def tsv (r : UniverseRow) : Option String := do
  let price ← decimalText 4 r.price
  let adv10 ← decimalText 0 r.adv10
  let dollarVol ← decimalText 0 r.dollarVol
  let gap ← decimalText 2 r.pctFrom52wkHigh
  let leverage ← decimalText 1 r.leverage
  let range ← match r.sessionRangePct with
    | none => some "-"
    | some rng => decimalText 2 rng
  return "\t".intercalate [r.symbol, price, adv10, dollarVol, gap, boolText r.optionable, leverage,
    if r.lastEarnings = "" then "-" else r.lastEarnings, boolText r.isEtf, range]

def tsvHeader : String :=
  "symbol\tprice\tadv10\tdollar_vol\tpct_from_52wk_high\toptionable" ++
    "\tleverage\tlast_earnings\tis_etf\tsession_range_pct"

/-- The year, month and day of a day number of the Gregorian calendar. -/
def civil (d : Date) : ℤ × ℤ × ℤ :=
  let z := d + 719468
  let era := z / 146097
  let doe := z - era * 146097
  let yoe := (doe - doe / 1460 + doe / 36524 - doe / 146096) / 365
  let doy := doe - (365 * yoe + yoe / 4 - yoe / 100)
  let mp := (5 * doy + 2) / 153
  let month := if mp < 10 then mp + 3 else mp - 9
  (yoe + era * 400 + if month ≤ 2 then 1 else 0, month, doy - (153 * mp + 2) / 5 + 1)

/-- `astimezone(UTC).strftime("%Y-%m-%dT%H:%M:%SZ")`. -/
def utcStamp (i : Instant) : String :=
  let (y, m, d) := civil (i / dayLength)
  let s := i % dayLength / second
  padded 4 y.toNat ++ "-" ++ padded 2 m.toNat ++ "-" ++ padded 2 d.toNat ++ "T" ++
    padded 2 (s / 3600).toNat ++ ":" ++ padded 2 (s / 60 % 60).toNat ++ ":" ++
    padded 2 (s % 60).toNat ++ "Z"

example : utcStamp (dayNumber 2026 9 12 * dayLength + clockTime 11 56) =
    "2026-09-12T11:56:00Z" := by decide +kernel

/-- The lines above the table. -/
def universeHead (counts : Counts) (asof : Instant) : List String :=
  let skipped := if counts.skipped = [] then "-" else ", ".intercalate counts.skipped
  ["# Fallback universe",
    "",
    "This file is never a source for order parameters — every candidate",
    "re-verifies live under §4.9/§4.10. Regenerated weekly by the engine's",
    "weekly_universe job; the daily research tier only reads it.",
    "",
    "Assembled: " ++ utcStamp asof ++ " — fetched " ++ toString counts.fetched ++ " / quoted " ++
      toString counts.quoted ++ " /",
    "qualified " ++ toString counts.qualified ++ " / ranked " ++ toString counts.ranked ++
      " / dropped " ++ toString counts.dropped ++ ".",
    "Stub-filtered " ++ toString counts.stubFiltered ++ "; no usable high/low " ++
      toString counts.nodata ++ ";",
    "chunks " ++ toString counts.chunks ++ " (" ++ toString counts.chunksFailed ++
      " failed). Skipped: " ++ skipped ++ ".",
    "",
    "Tilts: the §4 tilts are not applied here (50-day SMA, 3- and 6-month",
    "returns) and belong to the daily tier — the verbose quote payload this",
    "sweep reads carries no price history to compute them from.",
    "",
    "Columns: symbol, price (regular-session close), 10-day ADV, dollar volume,",
    "% from 52-week high, optionable, leverage (a MULTIPLE: 0 single stock,",
    "1.0 a 1x fund; leveraged and inverse funds are gated out by §3.5 and do",
    "not appear), last earnings date, ETF flag, latest-session range as a",
    "% of price (`-` = the payload carried no usable high/low).",
    "",
    "```"]

/-- `render_universe_md`: nothing, where a number does not fit. -/
def renderUniverseMd (rows : List UniverseRow) (counts : Counts) (asof : Instant) :
    Option String := do
  let table ← rows.mapM tsv
  return "\n".intercalate (universeHead counts asof ++ tsvHeader :: table ++ ["```"]) ++ "\n"

/-! ## The table and what the sweep runs over -/

structure UniverseEntry where
  asof : Date
  row : UniverseRow
deriving DecidableEq, Repr

structure SweepWorld where
  table : List UniverseEntry
  docs : DocStore

namespace SweepWorld

variable (w : SweepWorld)

/-- `replace_universe`: the rows of a day are replaced, older ones stay. -/
def replaceUniverse (asof : Date) (rows : List UniverseRow) : SweepWorld :=
  { w with table := w.table.filter (fun e => e.asof != asof) ++ rows.map fun r => ⟨asof, r⟩ }

/-- `universe_asof`. -/
def universeAsof : Option Date := (w.table.map (·.asof)).max?

/-- `universe_rows(qualified_only=True)`. -/
def universeRows : List UniverseRow :=
  match w.universeAsof with
  | none => []
  | some asof => (((w.table.filter fun e => e.asof == asof && e.row.qualified).map
      (·.row)).mergeSort fun a b => a.symbol ≤ b.symbol)

end SweepWorld

/-- Why the directory is of no use. -/
inductive DirectoryFault where
  | unreachable
  | status (code : ℕ)
  | empty
  | belowFloor (symbols : ℕ)
deriving DecidableEq, Repr

/-- What a sweep raises: `DirectoryUnavailable`, `PartialSweep` and
`EmptyUniverse`, and what its callees do. -/
inductive SweepExc where
  | directory (why : DirectoryFault)
  | csv (e : CsvError)
  | failedChunks (failed chunks : ℕ)
  | emptyUniverse (quoted failed chunks : ℕ)
  | rules (e : Exc)
  | invalidOperation
  | store
  | docs (e : DocError)
  | crashed
deriving DecidableEq, Repr

/-- What the client answers: an `HTTPError`, another exception, or a
response. -/
inductive Fetched where
  | httpError
  | crashed
  | response (status : ℕ) (text : String)
deriving DecidableEq, Repr

/-- What is asked outside: the directory, the quotes of a chunk, and whether
the store takes the rows of the table and the row of `artifacts`. -/
inductive SweepQuery where
  | directory
  | quotesVerbose (symbols : List String)
  | tableTaken
  | artifactTaken
deriving DecidableEq, Repr

/-- A chunk that raises has no quotes. -/
def SweepAnswer : SweepQuery → Type
  | .directory => Fetched
  | .quotesVerbose _ => Option (Dict String VerboseQuote)
  | .tableTaken => Bool
  | .artifactTaken => Bool

abbrev SweepM (α : Type) := Prog SweepWorld SweepQuery SweepAnswer SweepExc α
abbrev SweepHistory := List (Event SweepWorld SweepQuery SweepAnswer)

/-- What is fixed for a sweep; `lower` is `str.lower`. -/
structure SweepSettings where
  rules : Rules
  et : Zone
  lower : String → String

def ofRules {α : Type} (x : Except Exc α) : Except SweepExc α := x.mapError .rules

/-! ## The sweep -/

def sanityFloor : ℕ := 1000
def chunkSize : ℕ := 150

/-- `fetch_symbols`, of what the client answered. -/
def symbolsOf (lower : String → String) : Fetched → Except SweepExc (List String)
  | .httpError => .error (.directory .unreachable)
  | .crashed => .error .crashed
  | .response status text => do
    refuseIf (status / 100 ≠ 2) (.directory (.status status))
    refuseIf (strip text = "") (.directory .empty)
    let symbols ← (parseDirectory lower text).mapError .csv
    refuseIf (symbols.length < sanityFloor) (.directory (.belowFloor symbols.length))
    return symbols

def askDirectory : SweepM Fetched := Prog.query SweepQuery.directory

def askQuotes (chunk : List String) : SweepM (Option (Dict String VerboseQuote)) :=
  Prog.query (SweepQuery.quotesVerbose chunk)

/-- `range(0, len(symbols), CHUNK)`, and the slices. -/
def chunksOf (symbols : List String) : List (List String) :=
  (List.range ((symbols.length + (chunkSize - 1)) / chunkSize)).map fun i =>
    (symbols.drop (i * chunkSize)).take chunkSize

/-- The loop over the chunks: one that fails is counted and costs its own
quotes only. -/
def quoteChunks : List (List String) → Dict String VerboseQuote → ℕ →
    SweepM (Dict String VerboseQuote × ℕ)
  | [], quotes, failed => return (quotes, failed)
  | chunk :: rest, quotes, failed => do
    match ← askQuotes chunk with
    | some got => quoteChunks rest (quotes.update got) failed
    | none => quoteChunks rest quotes (failed + 1)

def replaceUniverse (asof : Date) (rows : List UniverseRow) : SweepM Unit := do
  let taken : Bool ← Prog.query (A := SweepAnswer) .tableTaken
  if taken then .update fun w => w.replaceUniverse asof rows else .raise .store

/-- `docs.replace("universe", ..)`. -/
def replaceDoc (body : String) : SweepM DocWrite := do
  let taken : Bool ← Prog.query (A := SweepAnswer) .artifactTaken
  let written ← .transact
    (fun w => { w with docs := (w.docs.replace .universe body.toList none none taken).1 })
    fun w => (w.docs.replace .universe body.toList none none taken).2
  .check (written.mapError .docs)

def runWeeklyUniverse (cfg : SweepSettings) (now : Instant) : SweepM Counts := do
  let fetched ← askDirectory
  let symbols ← .check (symbolsOf cfg.lower fetched)
  let chunks := (chunksOf symbols).length
  let (quotes, failed) ← quoteChunks (chunksOf symbols) .empty 0
  let maxFailedPct ← .check (ofRules (cfg.rules.get .strategy "universe_max_failed_chunk_pct"))
  let failedPct : ℚ := if chunks = 0 then 0 else failed * 100 / chunks
  .check (refuseIf (maxFailedPct < failedPct) (.failedChunks failed chunks))
  let (rows, counts) ← .check (ofRules (filterUniverse quotes cfg.rules (some 0)))
  .check (refuseIf (rows = []) (.emptyUniverse quotes.items.length failed chunks))
  let rankTop ← .check (ofRules (cfg.rules.getInt .strategy "working_universe_size"))
  let ranked := if rankTop ≠ 0 then headOf rankTop rows else rows
  let counts := { counts with
    fetched := symbols.length
    chunks := chunks
    chunksFailed := failed
    ranked := ranked.length
    dropped := rows.length - ranked.length }
  replaceUniverse (cfg.et.date now) rows
  match renderUniverseMd ranked counts now with
  | none => .raise .invalidOperation
  | some body => do
    let _ ← replaceDoc body
    return counts

end TradeDesk.Loops
