import TradeDesk.Lists.LastOf
import TradeDesk.Scripts.DirLock

/-!
# The sector tags

`scripts/sector-write.sh` reads the file of tags, makes a new one beside it
and moves that into its place, all under the lock of the file. So it writes
once, and of any number of such scripts no tag is lost: a symbol has the one
line that the last script to tag it gave it, or the lines it had
(`sectors_kept`).

A file is its lines. What the shell's pathname expansion makes of a batch line
with a wildcard in it is left out, and so is `mktemp`'s file, which no other
script reads.
-/

namespace TradeDesk.Scripts

open TradeDesk.Lists

/-! ## Arguments -/

abbrev Word := List Char

/-- `valid_symbol`. -/
def validSymbol (w : Word) : Bool :=
  !w.isEmpty && w.all fun c => c.isAlphanum || c == '.' || c == '-'

def sectorWords : List Word :=
  ["consumer-software", "airlines-transport", "semis-hardware", "other"].map String.toList

/-- `valid_sector`. -/
def validSector (w : Word) : Bool := sectorWords.contains w

/-- `valid_date`: digits, in their places. -/
def validDay (w : Word) : Bool :=
  w.length == 10 && w.zipIdx.all fun c => if c.2 = 4 ∨ c.2 = 7 then c.1 == '-' else c.1.isDigit

/-- A symbol and its sector, both checked. -/
structure SectorRow where
  symbol : Word
  sector : Word
  symbolValid : validSymbol symbol = true
  sectorValid : validSector sector = true

def sectorRowOf (symbol sector : Word) : Option SectorRow :=
  if h : validSymbol symbol = true then
    if h' : validSector sector = true then some ⟨symbol, sector, h, h'⟩ else none
  else none

/-- One tag, or a batch on the standard input. -/
inductive SectorRequest where
  | single (row : SectorRow)
  | batch (input : List Word)

/-- A call that came as far as the lock: the date may be empty, and is then the
host's. -/
structure SectorCall where
  request : SectorRequest
  date : Word
  hostDay : Word

/-- The arguments: nothing, where they are refused before the lock. -/
def sectorCallOf (args : List Word) (input : List Word) (hostDay : Word) : Option SectorCall :=
  match args with
  | [] => none
  | first :: rest =>
    if first = "--batch".toList then
      match rest with
      | [] => some ⟨.batch input, [], hostDay⟩
      | [date] => some ⟨.batch input, date, hostDay⟩
      | _ => none
    else match rest with
      | [sector] => (sectorRowOf first sector).map fun row => ⟨.single row, [], hostDay⟩
      | [sector, date] => (sectorRowOf first sector).map fun row => ⟨.single row, date, hostDay⟩
      | _ => none

/-- `set -- $line`. -/
def shellWords (line : Word) : List Word :=
  (line.splitOnP fun c => c == ' ' || c == '\t').filter fun w => !w.isEmpty

/-- The lines of a batch, and the first that is refused. -/
def readRows : ℕ → List Word → Except ℕ (List SectorRow)
  | _, [] => .ok []
  | n, line :: lines =>
    if line.isEmpty || line.head? == some '#' then readRows (n + 1) lines
    else match shellWords line with
      | [symbol, sector] => match sectorRowOf symbol sector with
        | some row => (readRows (n + 1) lines).map (row :: ·)
        | none => .error n
      | _ => .error n

/-! ## The file -/

/-- The file's lines, where there is a file. -/
abbrev TagFile := Option (List Word)

/-- `$1` of `awk -F'\t'`. -/
def firstField (line : Word) : Word := line.takeWhile (· != '\t')

def tagLine (symbol sector day : Word) : Word := symbol ++ '\t' :: (sector ++ '\t' :: day)

/-- The sector of each symbol: its last one, at its first place. -/
def lastSectors (rows : List SectorRow) : Dict Word Word :=
  .ofPairs (rows.map fun row => (row.symbol, row.sector))

/-- Both passes of `awk`: the lines of other symbols, then the new ones. -/
def retag (found : TagFile) (rows : List SectorRow) (day : Word) : List Word :=
  ((found.getD []).filter fun line => ¬ (rows.map (·.symbol)).contains (firstField line)) ++
    (lastSectors rows).items.map fun e => tagLine e.1 e.2 day

/-- The rows and the day a call writes, unless it is refused under the lock. -/
def SectorCall.writes (call : SectorCall) : Option (List SectorRow × Word) :=
  let day := if call.date.isEmpty then some call.hostDay
    else if validDay call.date then some call.date else none
  let rows := match call.request with
    | .single row => some [row]
    | .batch input => match readRows 1 input with
      | .error _ => none
      | .ok rows => if rows.isEmpty then none else some rows
  day.bind fun day => rows.map fun rows => (rows, day)

/-- The script under the lock: it reads the file, and moves the new one into
its place. -/
def SectorCall.body (call : SectorCall) : Body TagFile :=
  match call.writes with
  | none => .exit 2
  | some (rows, day) => .op id fun found => .op (fun _ => some (retag found rows day)) fun _ =>
    .exit 0

/-- The lines of a symbol. -/
def linesOf (symbol : Word) (file : TagFile) : List Word :=
  (file.getD []).filter fun line => firstField line = symbol

/-- The line a call gives a symbol. -/
def SectorCall.tag (symbol : Word) (call : SectorCall) : Option Word :=
  call.writes.bind fun write => ((lastSectors write.1).get? symbol).map fun sector =>
    tagLine symbol sector write.2

/-- The line of the last of these calls that tags the symbol. -/
def lastTag (symbol : Word) (calls : List SectorCall) : Option Word :=
  calls.reverse.findSome? (SectorCall.tag symbol)

/-! ## One write -/

theorem get?_lastSectors (rows : List SectorRow) (symbol : Word) :
    (lastSectors rows).get? symbol =
      lastOf (rows.map fun row => (row.symbol, row.sector)) symbol :=
  get?_ofPairs_last _ _

/-- The symbols of the new lines are those whose old lines are dropped. -/
theorem lastSectors_isSome {rows : List SectorRow} {symbol : Word} :
    ((lastSectors rows).get? symbol).isSome = true ↔ symbol ∈ rows.map (·.symbol) := by
  rw [get?_lastSectors, lastOf_isSome]
  simp [eq_comm]

theorem firstField_tagLine {symbol : Word} (h : validSymbol symbol = true) (sector day : Word) :
    firstField (tagLine symbol sector day) = symbol := by
  have hnotab : ∀ c ∈ symbol, (c != '\t') = true := by
    intro c hc
    unfold validSymbol at h
    have hall := List.all_eq_true.mp (Bool.and_eq_true_iff.mp h).2 c hc
    rw [bne_iff_ne]
    rintro rfl
    exact absurd hall (by decide)
  unfold firstField tagLine
  rw [List.takeWhile_append_of_pos hnotab, List.takeWhile_cons_of_neg (by decide),
    List.append_nil]

/-- Of the lines of a dictionary, those of one key. -/
theorem filter_items {κ α β : Type} [DecidableEq κ] {d : Dict κ α} {line : κ × α → β}
    {field : β → κ} (hfield : ∀ e ∈ d.items, field (line e) = e.1) (k : κ) :
    (d.items.map line).filter (fun l => field l = k) = match d.get? k with
      | some v => [line (k, v)]
      | none => [] := by
  obtain ⟨items, hnodup⟩ := d
  unfold Dict.get?
  dsimp only at *
  induction items with
  | nil => rfl
  | cons e items ih =>
    obtain ⟨k', v⟩ := e
    rw [List.map_cons, List.nodup_cons] at hnodup
    have hrest := ih hnodup.2 fun e he => hfield e (List.mem_cons_of_mem _ he)
    have hhead : field (line (k', v)) = k' := hfield (k', v) List.mem_cons_self
    rw [List.map_cons, List.lookup_cons]
    by_cases hk : k = k'
    · subst hk
      have hnone : items.lookup k = none := by
        rw [List.lookup_eq_none_iff]
        intro e he
        rw [bne_iff_ne]
        rintro rfl
        exact hnodup.1 (List.mem_map.mpr ⟨e, he, rfl⟩)
      rw [hnone] at hrest
      rw [List.filter_cons_of_pos (by simpa using hhead), hrest, beq_self_eq_true]
    · rw [List.filter_cons_of_neg (by simpa [hhead] using Ne.symm hk), hrest,
        beq_eq_false_iff_ne.mpr hk]

/-- **One write**: a symbol that is tagged has its new line and no other, and
another has the lines it had. -/
theorem linesOf_retag (found : TagFile) (rows : List SectorRow) (day symbol : Word) :
    linesOf symbol (some (retag found rows day)) =
      match (lastSectors rows).get? symbol with
      | some sector => [tagLine symbol sector day]
      | none => linesOf symbol found := by
  have hvalid : ∀ e ∈ (lastSectors rows).items, firstField (tagLine e.1 e.2 day) = e.1 := by
    intro e he
    have hmem : e.1 ∈ rows.map (·.symbol) := by
      rw [← lastSectors_isSome, Dict.get?_of_mem he]
      rfl
    obtain ⟨row, -, hrow⟩ := List.mem_map.mp hmem
    rw [← hrow]
    exact firstField_tagLine row.symbolValid _ _
  -- an old line is kept unless its symbol is tagged now
  have hkept : ∀ (lines : List Word), (lines.filter fun line =>
      ¬ (rows.map (·.symbol)).contains (firstField line)).filter
        (fun line => firstField line = symbol) =
      if symbol ∈ rows.map (·.symbol) then []
      else lines.filter fun line => firstField line = symbol := by
    intro lines
    rw [List.filter_filter]
    split
    next hmem =>
      refine List.filter_eq_nil_iff.mpr fun line _ => ?_
      by_cases hfield : firstField line = symbol
      · simp [hfield, List.mem_map.mp hmem]
      · simp [hfield]
    next hmem =>
      refine List.filter_congr fun line _ => ?_
      by_cases hfield : firstField line = symbol
      · simpa [hfield] using hmem
      · simp [hfield]
  unfold linesOf retag
  rw [Option.getD_some, List.filter_append, hkept, filter_items hvalid]
  cases hget : (lastSectors rows).get? symbol with
  | some sector =>
    have hmem : symbol ∈ rows.map (·.symbol) := lastSectors_isSome.mp (by rw [hget]; rfl)
    rw [if_pos hmem]
    rfl
  | none =>
    have hmem : symbol ∉ rows.map (·.symbol) := by
      rw [← lastSectors_isSome, hget]
      decide
    rw [if_neg hmem, List.append_nil]

/-! ## Any number of them -/

theorem SectorCall.body_run (call : SectorCall) (found : TagFile) :
    call.body.run found = match call.writes with
      | none => (found, 2)
      | some (rows, day) => (some (retag found rows day), 0) := by
  unfold SectorCall.body
  cases call.writes with
  | none => rfl
  | some write => rfl

/-- Until the `mv` the file is as it was. -/
theorem SectorCall.body_atomic (call : SectorCall) : call.body.Atomic := by
  intro found rest files h
  unfold SectorCall.body at h ⊢
  cases hwrites : call.writes with
  | none =>
    rw [hwrites] at h
    rcases h.head with ⟨-, rfl⟩ | ⟨f, next, hop, -⟩
    · exact Or.inl rfl
    · cases hop
  | some write =>
    obtain ⟨rows, day⟩ := write
    rw [hwrites] at h
    -- it reads, and then writes once
    rcases h.head with ⟨-, rfl⟩ | ⟨f, next, hop, h⟩
    · exact Or.inl rfl
    · cases hop
      rcases h.head with ⟨-, rfl⟩ | ⟨f, next, hop, h⟩
      · exact Or.inl rfl
      · cases hop
        rcases h.head with ⟨-, rfl⟩ | ⟨f, next, hop, -⟩
        · exact Or.inr rfl
        · cases hop

theorem linesOf_body (call : SectorCall) (found : TagFile) (symbol : Word) :
    linesOf symbol (call.body.run found).1 = match call.tag symbol with
      | some line => [line]
      | none => linesOf symbol found := by
  rw [SectorCall.body_run]
  unfold SectorCall.tag
  cases call.writes with
  | none => rfl
  | some write =>
    obtain ⟨rows, day⟩ := write
    show linesOf symbol (some (retag found rows day)) = _
    rw [linesOf_retag]
    cases hget : (lastSectors rows).get? symbol with
    | none => simp [hget]
    | some sector => simp [hget]

/-- The calls of these numbers. -/
def callsOf (calls : List SectorCall) (order : List ℕ) : List SectorCall :=
  order.filterMap (calls[·]?)

theorem linesOf_inTurn (calls : List SectorCall) (found : TagFile) (order : List ℕ)
    (symbol : Word) : linesOf symbol (inTurn (calls.map SectorCall.body) found order) =
      match lastTag symbol (callsOf calls order) with
      | some line => [line]
      | none => linesOf symbol found := by
  induction order using List.reverseRecOn with
  | nil => rfl
  | append_singleton order i ih =>
    rw [inTurn_concat, List.getElem?_map]
    unfold callsOf at ih ⊢
    rw [List.filterMap_append]
    cases hi : calls[i]? with
    | none => simpa [hi] using ih
    | some call =>
      show linesOf symbol (call.body.run _).1 = _
      rw [linesOf_body]
      unfold lastTag at ih ⊢
      cases htag : call.tag symbol with
      | some line => simp [hi, htag]
      | none => simpa [hi, htag] using ih

private def oneTag : SectorCall :=
  ⟨.single ⟨"ABC".toList, "other".toList, by decide, by decide⟩, "2026-09-07".toList, []⟩

private def twoTags : SectorCall :=
  ⟨.batch (["# weekly", "ABC semis-hardware", "XYZ other"].map String.toList), [],
    "2026-09-08".toList⟩

/-- The batch finds the lock taken, and comes later. -/
private def overlapping : List (LockAct TagFile) :=
  [.start oneTag.body, .start twoTags.body, .step 0, .step 1, .step 0, .step 0, .step 1, .step 0,
    .step 0, .step 0, .step 1, .step 1, .step 1, .step 1]

end TradeDesk.Scripts
