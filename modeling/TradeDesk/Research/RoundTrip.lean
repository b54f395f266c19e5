import TradeDesk.Research.Fenced

/-!
# The document of the sweep, read back

The sweep writes a document for people, and the importer reads the same
document as a table. What stands between the two is text: lines, of which
the importer takes those between two fences, fields between tabs, and the
date after a mark.

A document whose names keep to their field comes apart into the lines it was
made of, and the table's into their fields (`tsv_printed`): every number is
the rounded one, and every text is itself but for an empty date of earnings,
which is printed as a dash and read as one. The day the importer takes is
the sweep's day in UTC, and the table's is its day in New York. So the
document comes back as the rows of the sweep exactly when the names keep to
their field, no two are the same, every row has its date of earnings, and
the two days are one (`universe_reimported_iff`).
-/

namespace TradeDesk.Research

open TradeDesk.Lists TradeDesk.Loops

/-! ## What is printed stays on its line -/

theorem OneLine.str {s t : String} (hs : OneLine s.toList) (ht : OneLine t.toList) :
    OneLine (s ++ t).toList := by
  rw [String.toList_append]
  exact hs.append ht

theorem oneLine_of_all {s : List Char} (h : s.all (fun c => !isLineBreak c && c.toNat != 0) = true) :
    OneLine s := by
  intro c hc
  have hboth := List.all_eq_true.mp h c hc
  rw [Bool.and_eq_true, Bool.not_eq_true', bne_iff_ne] at hboth
  exact hboth

/-- A literal is its characters, which need not be decoded. -/
theorem oneLine_literal {cs : List Char}
    (h : cs.all (fun c => !isLineBreak c && c.toNat != 0) = true) :
    OneLine (String.ofList cs).toList := by
  rw [String.toList_ofList]
  exact oneLine_of_all h

theorem oneField_digits {ds : List ℕ} (h : ∀ d ∈ ds, d < 10) : OneField (ds.map Nat.digitChar) := by
  have hall : ∀ d ∈ List.range 10, isLineBreak (Nat.digitChar d) = false ∧
      (Nat.digitChar d).toNat ≠ 0 ∧ Nat.digitChar d ≠ '\t' := by decide
  have hdigit : ∀ c ∈ ds.map Nat.digitChar,
      isLineBreak c = false ∧ c.toNat ≠ 0 ∧ c ≠ '\t' := by
    intro c hc
    obtain ⟨d, hd, rfl⟩ := List.mem_map.mp hc
    exact hall d (List.mem_range.mpr (h d hd))
  refine ⟨fun c hc => ?_, fun htab => ?_⟩
  · obtain ⟨hbreak, hzero, -⟩ := hdigit c hc
    exact ⟨hbreak, hzero⟩
  · obtain ⟨-, -, hne⟩ := hdigit _ htab
    exact hne rfl

theorem oneLine_number (n : ℕ) : OneLine (toString n).toList := by
  obtain ⟨ds, hds, hlt, -⟩ := toString_digits n
  rw [hds]
  exact (oneField_digits hlt).1

theorem oneLine_padded (width n : ℕ) : OneLine (padded width n).toList := by
  have hzeros : OneLine (List.replicate (width - (toString n).length) '0') := by
    intro c hc
    rw [(List.mem_replicate.mp hc).2]
    exact ⟨by decide, by decide⟩
  have hpadded : (padded width n).toList =
      List.replicate (width - (toString n).length) '0' ++ (toString n).toList := by
    show (String.ofList (List.replicate (width - (toString n).length) '0') ++ toString n).toList = _
    rw [String.toList_append, String.toList_ofList]
  rw [hpadded]
  exact hzeros.append (oneLine_number n)

/-- The stamp is the date, and the time after it. -/
theorem utcStamp_date (i : Instant) :
    ∃ time : String, utcStamp i = dateText (i / dayLength) ++ time ∧ OneLine time.toList := by
  have hcolon : OneLine ":".toList := oneLine_of_all (by decide)
  refine ⟨"T" ++ (padded 2 (i % dayLength / second / 3600).toNat ++ (":" ++
    (padded 2 (i % dayLength / second / 60 % 60).toNat ++ (":" ++
    (padded 2 (i % dayLength / second % 60).toNat ++ "Z"))))), ?_, ?_⟩
  · unfold utcStamp dateText
    dsimp only
    simp only [String.append_assoc]
  · exact OneLine.str (oneLine_of_all (by decide)) (OneLine.str (oneLine_padded _ _)
      (hcolon.str (OneLine.str (oneLine_padded _ _) (hcolon.str
        (OneLine.str (oneLine_padded _ _) (oneLine_of_all (by decide)))))))

theorem oneLine_dateText (d : Date) : OneLine (dateText d).toList := by
  have hdash : OneLine "-".toList := oneLine_of_all (by decide)
  exact OneLine.str (OneLine.str (OneLine.str (OneLine.str (oneLine_padded _ _) hdash)
    (oneLine_padded _ _)) hdash) (oneLine_padded _ _)

/-! ## Above the table -/

/-- A line of the prose. -/
def Prose (l : List Char) : Prop := OneLine l ∧ ¬ IsFence l

/-- A line that begins with a letter is no fence. -/
theorem not_isFence {l : List Char} {c : Char} (h : l.head? = some c) (hc : c.isAlphanum = true) :
    ¬ IsFence l := by
  have hfence : ∃ x, "```".toList = [x, x, x] ∧ x.isAlphanum = false := ⟨_, rfl, rfl⟩
  obtain ⟨x, hx, hplain⟩ := hfence
  intro hl
  cases l with
  | nil => cases h
  | cons d ds =>
    obtain rfl := Option.some.inj h
    unfold IsFence at hl
    rw [hx] at hl
    have heq : (x == d) = true := (Bool.and_eq_true_iff.mp hl).1
    rw [← beq_iff_eq.mp heq, hplain] at hc
    cases hc

theorem prose_str {s t : String} {c : Char} (hs : OneLine s.toList) (hhead : s.toList.head? = some c)
    (hc : c.isAlphanum = true) (ht : OneLine t.toList) : Prose (s ++ t).toList := by
  refine ⟨hs.str ht, not_isFence ?_ hc⟩
  rw [String.toList_append, List.head?_append, hhead]
  rfl

/-- The lines that are the same in every document. -/
def proseBefore : List String := (universeHead ⟨0, 0, 0, 0, 0, 0, 0, [], 0, 0⟩ 0).take 6

def proseAfter : List String := ((universeHead ⟨0, 0, 0, 0, 0, 0, 0, [], 0, 0⟩ 0).drop 10).dropLast

/-- The line with the mark, and the three after it. -/
def countLines (counts : Counts) (asof : Instant) : List String :=
  ((universeHead counts asof).drop 6).take 4

theorem universeHead_eq (counts : Counts) (asof : Instant) : universeHead counts asof =
    proseBefore ++ (countLines counts asof ++ (proseAfter ++ ["```"])) := rfl

theorem prose_literal {cs : List Char}
    (h : cs.all (fun c => !isLineBreak c && c.toNat != 0) = true)
    (hfence : "```".toList.isPrefixOf cs = false) : Prose (String.ofList cs).toList := by
  have hchars : (String.ofList cs).toList = cs := String.toList_ofList
  refine ⟨oneLine_literal h, fun hstart => ?_⟩
  unfold IsFence at hstart
  rw [hchars, hfence] at hstart
  cases hstart

theorem prose_fixed : ∀ s ∈ proseBefore ++ proseAfter, Prose s.toList := by
  repeat refine List.forall_mem_cons.mpr ⟨prose_literal (by decide +kernel) rfl, ?_⟩
  exact fun s hs => by cases hs

theorem proseBefore_unmarked : ∀ s ∈ proseBefore, (s.toList ++ ['\n']).head? ≠ some 'A' := by
  decide +kernel

theorem prose_counts {counts : Counts} {asof : Instant}
    (hskipped : ∀ s ∈ counts.skipped, OneLine s.toList) :
    ∀ s ∈ countLines counts asof, Prose s.toList := by
  obtain ⟨time, hstamp, htime⟩ := utcStamp_date asof
  have hlit : ∀ {cs : List Char}, cs.all (fun c => !isLineBreak c && c.toNat != 0) = true →
      OneLine (String.ofList cs).toList := oneLine_literal
  have hnumber := oneLine_number
  have hnames : OneLine
      (if counts.skipped = [] then "-" else ", ".intercalate counts.skipped).toList := by
    split
    · exact oneLine_of_all (by decide)
    · rw [String.toList_intercalate]
      refine OneLine.intercalate (oneLine_of_all (by decide)) fun l hl => ?_
      obtain ⟨s, hs, rfl⟩ := List.mem_map.mp hl
      exact hskipped s hs
  have hutc : OneLine (utcStamp asof).toList := by
    rw [hstamp]
    exact (oneLine_dateText _).str htime
  intro s hs
  have hlines : countLines counts asof = ["Assembled: " ++ utcStamp asof ++ " — fetched " ++
        toString counts.fetched ++ " / quoted " ++ toString counts.quoted ++ " /",
      "qualified " ++ toString counts.qualified ++ " / ranked " ++ toString counts.ranked ++
        " / dropped " ++ toString counts.dropped ++ ".",
      "Stub-filtered " ++ toString counts.stubFiltered ++ "; no usable high/low " ++
        toString counts.nodata ++ ";",
      "chunks " ++ toString counts.chunks ++ " (" ++ toString counts.chunksFailed ++
        " failed). Skipped: " ++
        (if counts.skipped = [] then "-" else ", ".intercalate counts.skipped) ++ "."] := rfl
  rw [hlines] at hs
  simp only [List.mem_cons, List.not_mem_nil, or_false] at hs
  rcases hs with rfl | rfl | rfl | rfl
  · simp only [String.append_assoc]
    exact prose_str (hlit (by decide +kernel)) rfl rfl
      (hutc.str ((hlit (by decide +kernel)).str ((hnumber _).str
        ((hlit (by decide +kernel)).str ((hnumber _).str (hlit (by decide +kernel)))))))
  · simp only [String.append_assoc]
    exact prose_str (hlit (by decide +kernel)) rfl rfl
      ((hnumber _).str ((hlit (by decide +kernel)).str ((hnumber _).str
        ((hlit (by decide +kernel)).str ((hnumber _).str (hlit (by decide +kernel)))))))
  · simp only [String.append_assoc]
    exact prose_str (hlit (by decide +kernel)) rfl rfl
      ((hnumber _).str ((hlit (by decide +kernel)).str ((hnumber _).str (hlit (by decide +kernel)))))
  · simp only [String.append_assoc]
    exact prose_str (hlit (by decide +kernel)) rfl rfl
      ((hnumber _).str ((hlit (by decide +kernel)).str ((hnumber _).str
        ((hlit (by decide +kernel)).str (hnames.str (hlit (by decide +kernel)))))))

/-- The document's date is the day of the sweep in UTC. -/
theorem assembled_head {counts : Counts} {asof : Instant} (hcal : InCalendar (asof / dayLength))
    (rest : List (List Char)) :
    assembled (document ((universeHead counts asof).map String.toList ++ rest)) =
      some (dateText (asof / dayLength)) := by
  obtain ⟨time, hstamp, -⟩ := utcStamp_date asof
  have hcounts : countLines counts asof = ("Assembled: " ++ utcStamp asof ++ " — fetched " ++
      toString counts.fetched ++ " / quoted " ++ toString counts.quoted ++ " /") ::
      (countLines counts asof).tail := rfl
  have hbefore : ∀ l ∈ proseBefore.map String.toList, '\n' ∉ l ∧ (l ++ ['\n']).head? ≠ some 'A' := by
    intro l hl
    obtain ⟨s, hs, rfl⟩ := List.mem_map.mp hl
    obtain ⟨hline, -⟩ := prose_fixed s (List.mem_append_left _ hs)
    refine ⟨fun hmem => ?_, proseBefore_unmarked s hs⟩
    obtain ⟨hbreak, -⟩ := hline _ hmem
    cases hbreak
  rw [universeHead_eq, List.map_append, List.append_assoc, assembled_document hbefore,
    List.map_append, List.append_assoc, hcounts, List.map_cons, List.cons_append, document_cons,
    hstamp]
  simp only [String.toList_append, List.append_assoc]
  exact assembled_stamp hcal _

/-! ## A row -/

theorem isPrefixOf_field {p : List Char} {x : Char} (hx : x ∉ p) (rest : List Char) :
    ∀ s, p.isPrefixOf (s ++ x :: rest) = p.isPrefixOf s := by
  induction p with
  | nil =>
    intro s
    cases s with
    | nil => rfl
    | cons c cs => rfl
  | cons a p ih =>
    intro s
    have ha : a ≠ x := fun heq => hx (heq ▸ List.mem_cons_self)
    cases s with
    | nil =>
      show ((a == x) && p.isPrefixOf rest) = false
      rw [beq_eq_false_iff_ne.mpr ha, Bool.false_and]
    | cons c cs =>
      show ((a == c) && p.isPrefixOf (cs ++ x :: rest)) = ((a == c) && p.isPrefixOf cs)
      rw [ih fun hmem => hx (List.mem_cons_of_mem _ hmem)]

/-- A field that holds a printed decimal. -/
theorem decimal_field {places : ℕ} {d : ℚ} {text : String} (h : decimalText places d = some text) :
    OneField text.toList ∧ decimalOf text.toList = some (.finite (quantized places d)) ∧
      text.toList ≠ ['-'] ∧ ∃ c ∈ text.toList, isSpace c = false := by
  obtain ⟨ws, fs, hne, hws, hfs, -, -, hchars⟩ := decimalText_chars h
  obtain ⟨w, ws, rfl⟩ := List.exists_cons_of_ne_nil hne
  have hw : w < 10 := hws w List.mem_cons_self
  have hfield : ∀ {s t : List Char}, OneField s → OneField t → OneField (s ++ t) := by
    intro s t hs ht
    refine ⟨hs.1.append ht.1, fun hmem => ?_⟩
    rcases List.mem_append.mp hmem with hmem | hmem
    · exact hs.2 hmem
    · exact ht.2 hmem
  have hsign : OneField (if d < 0 then ['-'] else []) := by
    split
    · exact ⟨oneLine_of_all (by decide), by decide⟩
    · exact ⟨oneLine_of_all (by decide), by decide⟩
  have hfrac : OneField (if places = 0 then [] else '.' :: fs.map Nat.digitChar) := by
    split
    · exact ⟨oneLine_of_all (by decide), by decide⟩
    · have hpoint : OneField ['.'] := ⟨oneLine_of_all (by decide), by decide⟩
      exact hfield hpoint (oneField_digits hfs)
  have hdigit : Nat.digitChar w ∈ text.toList := by
    rw [hchars]
    exact List.mem_append_right _ (List.mem_append_left _ List.mem_cons_self)
  refine ⟨?_, ?_, fun hdash => ?_, Nat.digitChar w, hdigit, (digitChar_spec hw).1⟩
  · rw [hchars]
    exact hfield hsign (hfield (oneField_digits hws) hfrac)
  · unfold decimalOf
    rw [String.ofList_toList, parseDecimal_decimalText h]
  · obtain ⟨-, -, -, -, hminus, -⟩ := digitChar_plain hw
    rw [hdash] at hdigit
    exact hminus (List.mem_singleton.mp hdigit)

/-- What the importer makes of a row. -/
def rowRead (r : Loops.UniverseRow) : SweepRow where
  symbol := r.symbol
  price := .finite (quantized 4 r.price)
  adv10 := .finite (quantized 0 r.adv10)
  dollarVol := .finite (quantized 0 r.dollarVol)
  pctFrom52wkHigh := .finite (quantized 2 r.pctFrom52wkHigh)
  optionable := r.optionable
  leverage := .finite (quantized 1 r.leverage)
  lastEarnings := if r.lastEarnings = "" then "-" else r.lastEarnings
  isEtf := r.isEtf
  sessionRangePct := r.sessionRangePct.map fun rng => .finite (quantized 2 rng)
  description := ""
  qualified := true

/-- The fields of a row that is printed. -/
structure Printed (r : Loops.UniverseRow) (fields : List (List Char)) : Prop where
  read : universeRow fields = some (rowRead r)
  count : fields.length = universeColumns.length
  digits : ∃ f ∈ fields, ∃ c ∈ f, isSpace c = false
  names : ∃ rest, fields = r.symbol.toList :: rest
  earnings : (if r.lastEarnings = "" then "-" else r.lastEarnings).toList ∈ fields
  others : ∀ f ∈ fields, f = r.symbol.toList ∨
    f = (if r.lastEarnings = "" then "-" else r.lastEarnings).toList ∨ OneField f

theorem boolText_read (b : Bool) : ((boolText b).toList == "true".toList) = b ∧
    OneField (boolText b).toList := by
  cases b with
  | true => exact ⟨rfl, oneLine_of_all (by decide), by decide⟩
  | false => exact ⟨rfl, oneLine_of_all (by decide), by decide⟩

/-- **A printed row** is its fields, and they are read as the row. -/
theorem tsv_printed {r : Loops.UniverseRow} {t : String} (h : tsv r = some t) :
    ∃ fields, t.toList = ['\t'].intercalate fields ∧ Printed r fields := by
  unfold tsv at h
  obtain ⟨price, hprice, h⟩ := Option.bind_eq_some_iff.mp h
  obtain ⟨adv10, hadv10, h⟩ := Option.bind_eq_some_iff.mp h
  obtain ⟨dollarVol, hdollarVol, h⟩ := Option.bind_eq_some_iff.mp h
  obtain ⟨gap, hgap, h⟩ := Option.bind_eq_some_iff.mp h
  obtain ⟨leverage, hleverage, h⟩ := Option.bind_eq_some_iff.mp h
  dsimp only at h
  have hlast : ∃ range : String, t = "\t".intercalate [r.symbol, price, adv10, dollarVol, gap,
      boolText r.optionable, leverage, if r.lastEarnings = "" then "-" else r.lastEarnings,
      boolText r.isEtf, range] ∧ OneField range.toList ∧ (if range.toList = ['-'] then some none
      else (decimalOf range.toList).map some) =
        some (r.sessionRangePct.map fun rng => ParsedDecimal.finite (quantized 2 rng)) := by
    cases hr : r.sessionRangePct with
    | none =>
      rw [hr] at h
      refine ⟨"-", (Option.some.inj h).symm, ⟨oneLine_of_all (by decide), by decide⟩, rfl⟩
    | some rng =>
      rw [hr] at h
      obtain ⟨range, hrange, h⟩ := Option.bind_eq_some_iff.mp h
      obtain ⟨frange, drange, hdash, -⟩ := decimal_field hrange
      refine ⟨range, (Option.some.inj h).symm, frange, ?_⟩
      rw [if_neg hdash, drange]
      rfl
  obtain ⟨range, rfl, frange, drange⟩ := hlast
  obtain ⟨fprice, dprice, -, digit⟩ := decimal_field hprice
  obtain ⟨fadv10, dadv10, -⟩ := decimal_field hadv10
  obtain ⟨fdollarVol, ddollarVol, -⟩ := decimal_field hdollarVol
  obtain ⟨fgap, dgap, -⟩ := decimal_field hgap
  obtain ⟨fleverage, dleverage, -⟩ := decimal_field hleverage
  obtain ⟨boptionable, foptionable⟩ := boolText_read r.optionable
  obtain ⟨bisEtf, fisEtf⟩ := boolText_read r.isEtf
  have htab : "\t".toList = ['\t'] := rfl
  refine ⟨[r.symbol.toList, price.toList, adv10.toList, dollarVol.toList, gap.toList,
    (boolText r.optionable).toList, leverage.toList,
    (if r.lastEarnings = "" then "-" else r.lastEarnings).toList, (boolText r.isEtf).toList,
    range.toList], ?_, ?_, rfl, ⟨price.toList, ?_, digit⟩, ⟨_, rfl⟩, ?_, ?_⟩
  · rw [String.toList_intercalate, htab]
    rfl
  · simp only [universeRow, dprice, dadv10, ddollarVol, dgap, dleverage, boptionable, bisEtf,
      String.ofList_toList, Option.bind_eq_bind, Option.bind_some]
    unfold rowRead
    by_cases hdash : range.toList = ['-']
    · rw [if_pos hdash] at drange ⊢
      rw [← Option.some.inj drange]
      rfl
    · rw [if_neg hdash] at drange ⊢
      rw [drange]
      rfl
  · simp
  · simp
  · intro f hf
    simp only [List.mem_cons, List.not_mem_nil, or_false] at hf
    rcases hf with rfl | rfl | rfl | rfl | rfl | rfl | rfl | rfl | rfl | rfl
    · exact Or.inl rfl
    · exact Or.inr (Or.inr fprice)
    · exact Or.inr (Or.inr fadv10)
    · exact Or.inr (Or.inr fdollarVol)
    · exact Or.inr (Or.inr fgap)
    · exact Or.inr (Or.inr foptionable)
    · exact Or.inr (Or.inr fleverage)
    · exact Or.inr (Or.inl rfl)
    · exact Or.inr (Or.inr fisEtf)
    · exact Or.inr (Or.inr frange)

/-! ## The table -/

/-- What has a character that is no space is not trimmed away. -/
theorem stripChars_nonempty {cs : List Char} {c : Char} (hc : c ∈ cs) (hspace : isSpace c = false) :
    (stripChars cs).isEmpty = false := by
  have hdrop : ∀ ds : List Char, c ∈ ds → c ∈ ds.dropWhile isSpace := by
    intro ds hds
    induction ds with
    | nil => cases hds
    | cons d ds ih =>
      rw [List.dropWhile_cons]
      split
      next hd =>
        rcases List.mem_cons.mp hds with rfl | hds
        · rw [hspace] at hd
          cases hd
        · exact ih hds
      · exact hds
  have hmem : c ∈ stripChars cs :=
    List.mem_reverse.mpr (hdrop _ (List.mem_reverse.mpr (hdrop cs hc)))
  rw [List.isEmpty_eq_false_iff]
  exact List.ne_nil_of_mem hmem

/-- A row whose names keep to their field, and do not end the table. -/
structure Fits (r : Loops.UniverseRow) : Prop where
  symbol : OneField r.symbol.toList
  unfenced : ¬ IsFence r.symbol.toList
  earnings : OneField r.lastEarnings.toList

theorem Printed.oneField {r : Loops.UniverseRow} {fields : List (List Char)}
    (h : Printed r fields) (hr : Fits r) : ∀ f ∈ fields, OneField f := by
  intro f hf
  rcases h.others f hf with rfl | rfl | hother
  · exact hr.symbol
  · split
    · exact ⟨oneLine_of_all (by decide), by decide⟩
    · exact hr.earnings
  · exact hother

theorem oneLine_tab : OneLine ['\t'] := oneLine_of_all (by decide)

/-- The line of a row that fits is read as the row. -/
theorem tsv_line {r : Loops.UniverseRow} {t : String} (h : tsv r = some t) (hr : Fits r) :
    Prose t.toList ∧ ∀ rows, sweepRow rows t.toList = .already (rows ++ [rowRead r]) := by
  obtain ⟨fields, htext, hprinted⟩ := tsv_printed h
  have hfields := hprinted.oneField hr
  obtain ⟨rest, hrest⟩ := hprinted.names
  have hsplit : t.toList.splitOn '\t' = fields := by
    rw [htext]
    refine List.splitOn_intercalate '\t' (fun f hf => (hfields f hf).2) ?_
    rw [hrest]
    exact List.cons_ne_nil _ _
  refine ⟨⟨?_, fun hfence => hr.unfenced ?_⟩, fun rows => ?_⟩
  · rw [htext]
    exact OneLine.intercalate oneLine_tab fun f hf => (hfields f hf).1
  · rw [htext, hrest] at hfence
    cases rest with
    | nil => rwa [List.intercalate_singleton] at hfence
    | cons f rest =>
      rw [List.intercalate_cons_cons, List.append_assoc] at hfence
      exact (isPrefixOf_field (by decide) _ _).symm.trans hfence
  · have hspaces : (stripChars t.toList).isEmpty = false := by
      obtain ⟨f, hf, c, hc, hspace⟩ := hprinted.digits
      have hmem : c ∈ t.toList := by
        rw [htext]
        exact mem_intercalate hc hf
      exact stripChars_nonempty hmem hspace
    unfold sweepRow
    rw [hspaces, if_neg Bool.false_ne_true]
    dsimp only
    rw [hsplit, if_neg (not_not_intro hprinted.count), hprinted.read]

theorem numbered_cons (path : String) (n : ℕ) (l : List Char) (ls : List (List Char)) :
    numbered path n (l :: ls) = (⟨path, some n⟩, l) :: numbered path (n + 1) ls := by
  unfold numbered
  rw [List.zipIdx_cons]
  rfl

/-- The rows are read one after the other. -/
theorem turns_rows (path : String) {rows : List Loops.UniverseRow} :
    ∀ {table : List String}, rows.mapM tsv = some table → (∀ r ∈ rows, Fits r) →
    ∀ (n : ℕ) (got : List SweepRow), turns sweepRow got (numbered path n (table.map String.toList)) =
      some (got ++ rows.map rowRead, ⟨[], []⟩) := by
  induction rows with
  | nil =>
    intro table h _ n got
    obtain rfl := Option.some.inj h
    rw [List.map_nil, List.append_nil]
    rfl
  | cons r rows ih =>
    intro table h hfits n got
    rw [List.mapM_cons] at h
    obtain ⟨t, ht, h⟩ := Option.bind_eq_some_iff.mp h
    obtain ⟨ts, hts, h⟩ := Option.bind_eq_some_iff.mp h
    obtain rfl := Option.some.inj h
    obtain ⟨-, hread⟩ := tsv_line ht (hfits r List.mem_cons_self)
    rw [List.map_cons, numbered_cons, turns_cons, hread got]
    dsimp only
    rw [ih hts (fun k hk => hfits k (List.mem_cons_of_mem _ hk)), List.map_cons, List.append_assoc]
    rfl

theorem table_prose {rows : List Loops.UniverseRow} : ∀ {table : List String},
    rows.mapM tsv = some table → (∀ r ∈ rows, Fits r) → ∀ t ∈ table, Prose t.toList := by
  induction rows with
  | nil =>
    intro table h _ t ht
    obtain rfl := Option.some.inj h
    cases ht
  | cons r rows ih =>
    intro table h hfits t ht
    rw [List.mapM_cons] at h
    obtain ⟨t', ht', h⟩ := Option.bind_eq_some_iff.mp h
    obtain ⟨ts, hts, h⟩ := Option.bind_eq_some_iff.mp h
    obtain rfl := Option.some.inj h
    rcases List.mem_cons.mp ht with rfl | ht
    · exact (tsv_line ht' (hfits r List.mem_cons_self)).1
    · exact ih hts (fun k hk => hfits k (List.mem_cons_of_mem _ hk)) t ht

/-! ## The document -/

def universePath : String := "research/universe.md"

variable {src : SourceTree} {rows : List Loops.UniverseRow} {counts : Counts} {now : Instant}
  {text : String}

/-- The lines above the table, without the fence. -/
def proseLines (counts : Counts) (now : Instant) : List (List Char) :=
  (proseBefore ++ (countLines counts now ++ proseAfter)).map String.toList

theorem renderUniverseMd_lines (h : renderUniverseMd rows counts now = some text) :
    ∃ table, rows.mapM tsv = some table ∧ text.toList = document (proseLines counts now ++
      "```".toList :: (tsvHeader.toList :: table.map String.toList ++ ["```".toList])) := by
  unfold renderUniverseMd at h
  obtain ⟨table, htable, h⟩ := Option.bind_eq_some_iff.mp h
  refine ⟨table, htable, ?_⟩
  rw [← Option.some.inj h, toList_document (by simp), universeHead_eq]
  refine congrArg document ?_
  unfold proseLines
  simp only [List.map_append, List.map_cons, List.map_nil, List.append_assoc, List.cons_append,
    List.nil_append]

theorem proseLines_prose (now : Instant) (hskipped : ∀ s ∈ counts.skipped, OneLine s.toList) :
    ∀ l ∈ proseLines counts now, Prose l := by
  intro l hl
  obtain ⟨s, hs, rfl⟩ := List.mem_map.mp hl
  rcases List.mem_append.mp hs with hs | hs
  · exact prose_fixed s (List.mem_append_left _ hs)
  · rcases List.mem_append.mp hs with hs | hs
    · exact prose_counts hskipped s hs
    · exact prose_fixed s (List.mem_append_right _ hs)

theorem readText_of_file (hfile : src.node universePath = some (.file (bytesOf text))) :
    src.isFile universePath = true ∧ src.readText universePath =
      if 0 ∈ bytesOf text then .error .nulInFile else .ok text.toList := by
  have hbytes : src.readBytes universePath = some (bytesOf text) := by
    unfold SourceTree.readBytes
    rw [hfile]
  refine ⟨?_, ?_⟩
  · unfold SourceTree.isFile
    rw [hfile]
  · unfold SourceTree.readText
    rw [hbytes]
    dsimp only
    rw [decode_bytesOf]

/-- The header is the importer's columns. -/
theorem tsvHeader_columns (lines : List (List Char)) : Prose tsvHeader.toList ∧
    isUniverseBlock (tsvHeader.toList :: lines) = true ∧
    tsvHeader.toList.splitOn '\t' = universeColumns.map String.toList := by
  have hheader : tsvHeader.toList = ['\t'].intercalate (universeColumns.map String.toList) := by
    decide +kernel
  have hcolumns : ∀ f ∈ universeColumns.map String.toList, OneField f := by
    have hall : ∀ f ∈ universeColumns.map String.toList,
        f.all (fun c => !isLineBreak c && c.toNat != 0) = true ∧ '\t' ∉ f := by decide +kernel
    intro f hf
    obtain ⟨hline, htab⟩ := hall f hf
    exact ⟨oneLine_of_all hline, htab⟩
  obtain ⟨rest, hrest⟩ : ∃ rest, tsvHeader.toList = "symbol\t".toList ++ rest :=
    ⟨_, hheader.trans (List.intercalate_cons_cons ..)⟩
  refine ⟨⟨?_, not_isFence (c := 's') ?_ rfl⟩, ?_, ?_⟩
  · rw [hheader]
    exact OneLine.intercalate oneLine_tab fun f hf => (hcolumns f hf).1
  · rw [hrest]
    rfl
  · unfold isUniverseBlock
    rw [List.head?_cons, Option.any_some, hrest]
    exact List.isPrefixOf_iff_prefix.mpr (List.prefix_append _ _)
  · rw [hheader]
    exact List.splitOn_intercalate '\t' (fun f hf => (hcolumns f hf).2) (List.cons_ne_nil _ _)

/-- **The table of a document whose rows fit**: its lines are the rows as
they were printed, and its day is that of the sweep in UTC. -/
theorem readUniverse_rendered (hrender : renderUniverseMd rows counts now = some text)
    (hfile : src.node universePath = some (.file (bytesOf text)))
    (hskipped : ∀ s ∈ counts.skipped, OneLine s.toList) (hcal : InCalendar (now / dayLength))
    (hfits : ∀ r ∈ rows, Fits r) :
    ∃ table, rows.mapM tsv = some table ∧ readUniverse src =
      .table ⟨dateText (now / dayLength), dateText_real hcal⟩
        (numbered universePath 2 (table.map String.toList)) := by
  obtain ⟨table, htable, htext⟩ := renderUniverseMd_lines hrender
  refine ⟨table, htable, ?_⟩
  have hprose := proseLines_prose now hskipped
  obtain ⟨hfence, hblock, hcolumns⟩ := tsvHeader_columns (table.map String.toList)
  have htableProse := table_prose htable hfits
  have hbody : ∀ l ∈ tsvHeader.toList :: table.map String.toList, Prose l := by
    intro l hl
    rcases List.mem_cons.mp hl with rfl | hl
    · exact hfence
    · obtain ⟨t, ht, rfl⟩ := List.mem_map.mp hl
      exact htableProse t ht
  have hline : OneLine "```".toList := oneLine_of_all (by decide)
  have hlines : ∀ l ∈ proseLines counts now ++ "```".toList ::
      (tsvHeader.toList :: table.map String.toList ++ ["```".toList]), OneLine l := by
    intro l hl
    rcases List.mem_append.mp hl with hl | hl
    · exact (hprose l hl).1
    · rcases List.mem_cons.mp hl with rfl | hl
      · exact hline
      · rcases List.mem_append.mp hl with hl | hl
        · exact (hbody l hl).1
        · rw [List.mem_singleton.mp hl]
          exact hline
  have hzero : 0 ∉ bytesOf text := by
    intro hmem
    obtain ⟨c, hc, hcode⟩ := zero_mem_bytesOf.mp hmem
    rw [htext] at hc
    obtain ⟨l, hl, hc⟩ := List.mem_flatMap.mp hc
    rcases List.mem_append.mp hc with hc | hc
    · exact (hlines l hl c hc).2 hcode
    · rw [List.mem_singleton.mp hc] at hcode
      cases hcode
  obtain ⟨hisFile, hread⟩ := readText_of_file hfile
  rw [if_neg hzero] at hread
  have hstamp : assembled text.toList = some (dateText (now / dayLength)) := by
    have hhead : proseLines counts now ++ "```".toList ::
        (tsvHeader.toList :: table.map String.toList ++ ["```".toList]) =
        (universeHead counts now).map String.toList ++
          (tsvHeader.toList :: table.map String.toList ++ ["```".toList]) := by
      rw [universeHead_eq]
      unfold proseLines
      simp only [List.map_append, List.map_cons, List.map_nil, List.append_assoc, List.cons_append,
        List.nil_append]
    rw [htext, hhead]
    exact assembled_head hcal _
  have hisFence : "```".toList.isPrefixOf "```".toList = true := rfl
  have htsv : fencedTsv none (splitlines text.toList) =
      some (tsvHeader.toList :: table.map String.toList) := by
    rw [htext, splitlines_lines hlines, fencedTsv_outside fun l hl => (hprose l hl).2]
    have hopen : fencedTsv none ("```".toList ::
        (tsvHeader.toList :: table.map String.toList ++ ["```".toList])) =
        fencedTsv (some []) (tsvHeader.toList :: table.map String.toList ++ ["```".toList]) := by
      conv_lhs => unfold fencedTsv
      exact if_pos hisFence
    rw [hopen, fencedTsv_inside (fun l hl => (hbody l hl).2), List.nil_append]
    unfold fencedTsv
    rw [if_pos hisFence]
    exact if_pos hblock
  have hpath : universePath = "research/universe.md" := rfl
  unfold readUniverse
  dsimp only
  rw [← hpath, if_pos hisFile, hread]
  dsimp only
  rw [hstamp]
  dsimp only
  have hiso : fromisoformat (dateText (now / dayLength)) =
      some ⟨dateText (now / dayLength), dateText_real hcal⟩ := dif_pos (dateText_real hcal)
  rw [hiso]
  dsimp only
  rw [htsv]
  dsimp only
  rw [List.headD_cons, if_pos hcolumns, List.tail_cons]

/-- The rows that fit are installed, unless two have one symbol. -/
theorem importUniverse_rendered (hrender : renderUniverseMd rows counts now = some text)
    (hfile : src.node universePath = some (.file (bytesOf text)))
    (hskipped : ∀ s ∈ counts.skipped, OneLine s.toList) (hcal : InCalendar (now / dayLength))
    (hfits : ∀ r ∈ rows, Fits r) :
    importUniverse src [] = (installSweep [] ⟨dateText (now / dayLength), dateText_real hcal⟩
      (rows.map rowRead)).map fun r => (r.1, ⟨List.replicate r.2 .universe_, []⟩) := by
  obtain ⟨table, htable, hread⟩ := readUniverse_rendered hrender hfile hskipped hcal hfits
  have hturns := turns_rows universePath htable hfits 2 []
  unfold importUniverse
  rw [hread]
  unfold importSweep
  dsimp only
  rw [hturns]
  rfl

theorem installSweep_empty (asof : IsoDate) (got : List SweepRow) : installSweep [] asof got =
    if got = [] then some ([], 0)
    else if (got.map (·.symbol)).Nodup then some (got.map fun row => ⟨asof, row⟩, got.length)
    else none := by
  have hstored : isStored [] asof got = false := rfl
  unfold installSweep
  rw [hstored, Bool.or_false]
  by_cases hempty : got = []
  · rw [if_pos hempty, hempty]
    rfl
  · rw [if_neg hempty, if_neg (by rwa [List.isEmpty_iff])]
    unfold replaceUniverse
    split
    · rfl
    · rfl

/-! ## What any document is read as -/

theorem universeRow_names {fields : List (List Char)} {row : SweepRow}
    (h : universeRow fields = some row) :
    (∃ rest, fields = row.symbol.toList :: rest) ∧ row.lastEarnings.toList ∈ fields := by
  unfold universeRow at h
  split at h
  next symbol price adv10 dollarVol gap optionable leverage lastEarnings isEtf range =>
    obtain ⟨_, _, h⟩ := Option.bind_eq_some_iff.mp h
    obtain ⟨_, _, h⟩ := Option.bind_eq_some_iff.mp h
    obtain ⟨_, _, h⟩ := Option.bind_eq_some_iff.mp h
    obtain ⟨_, _, h⟩ := Option.bind_eq_some_iff.mp h
    obtain ⟨_, _, h⟩ := Option.bind_eq_some_iff.mp h
    have hrow : ∃ row', row'.symbol = String.ofList symbol ∧
        row'.lastEarnings = String.ofList lastEarnings ∧ row' = row := by
      dsimp only at h
      split at h
      · exact ⟨_, rfl, rfl, Option.some.inj h⟩
      · obtain ⟨_, _, h⟩ := Option.bind_eq_some_iff.mp h
        exact ⟨_, rfl, rfl, Option.some.inj h⟩
    obtain ⟨row', hsymbol, hearnings, rfl⟩ := hrow
    rw [hsymbol, hearnings, String.toList_ofList, String.toList_ofList]
    refine ⟨⟨_, rfl⟩, ?_⟩
    simp
  · cases h

/-- A row that is read is a line of the text. -/
theorem turns_sweepRow {lines : List (Place × List Char)} : ∀ {got got' : List SweepRow}
    {t : Report}, turns sweepRow got lines = some (got', t) → ∀ row ∈ got', row ∈ got ∨
      ∃ e ∈ lines, universeRow (e.2.splitOn '\t') = some row := by
  induction lines with
  | nil =>
    intro got got' t h row hrow
    cases h
    exact Or.inl hrow
  | cons e lines ih =>
    intro got got' t h row hrow
    obtain ⟨p, l⟩ := e
    have hlater : ∀ {g : List SweepRow} {u : Report}, turns sweepRow g lines = some (got', u) →
        (row ∈ g → row ∈ got ∨ universeRow (l.splitOn '\t') = some row) → row ∈ got ∨
          ∃ e ∈ (p, l) :: lines, universeRow (e.2.splitOn '\t') = some row := by
      intro g u hg hin
      rcases ih hg row hrow with hmem | ⟨e, he, hread⟩
      · rcases hin hmem with hgot | hread
        · exact Or.inl hgot
        · exact Or.inr ⟨_, List.mem_cons_self, hread⟩
      · exact Or.inr ⟨e, List.mem_cons_of_mem _ he, hread⟩
    rw [turns_cons] at h
    split at h
    next g hstep =>
      refine hlater h fun hmem => ?_
      unfold sweepRow at hstep
      split at hstep
      · cases hstep
        exact Or.inl hmem
      · dsimp only at hstep
        split at hstep
        · cases hstep
        · split at hstep
          · cases hstep
          next new hnew =>
            cases hstep
            rcases List.mem_append.mp hmem with hmem | hmem
            · exact Or.inl hmem
            · rw [List.mem_singleton.mp hmem]
              exact Or.inr hnew
    next g k hstep =>
      -- a row is never written at its turn
      unfold sweepRow at hstep
      split at hstep
      · cases hstep
      · dsimp only at hstep
        split at hstep
        · cases hstep
        · split at hstep
          · cases hstep
          · cases hstep
    next reason hstep =>
      obtain ⟨⟨g, u⟩, hg, hsame⟩ := Option.map_eq_some_iff.mp h
      cases hsame
      exact hlater hg Or.inl
    · cases h

theorem readUniverse_lines {asof : IsoDate} {lines : List (Place × List Char)}
    (hfile : src.node universePath = some (.file (bytesOf text)))
    (h : readUniverse src = .table asof lines) : ∀ e ∈ lines, Prose e.2 := by
  obtain ⟨hisFile, hread⟩ := readText_of_file hfile
  have hpath : universePath = "research/universe.md" := rfl
  unfold readUniverse at h
  dsimp only at h
  rw [← hpath, if_pos hisFile, hread] at h
  by_cases hzero : 0 ∈ bytesOf text
  · rw [if_pos hzero] at h
    cases h
  · rw [if_neg hzero] at h
    dsimp only at h
    have hcodes : ∀ c ∈ text.toList, c.toNat ≠ 0 := fun c hc hcode =>
      hzero (zero_mem_bytesOf.mpr ⟨c, hc, hcode⟩)
    split at h
    · cases h
    · split at h
      · cases h
      · split at h
        · cases h
        next block hblock =>
          split at h
          · cases h
            intro e he
            have hmem : e.2 ∈ block := by
              refine List.mem_of_mem_tail ?_
              rw [← numbered_snd universePath 2 block.tail]
              exact List.mem_map_of_mem he
            rcases fencedTsv_lines hblock e.2 hmem with ⟨b, hb, -⟩ | ⟨hline, hfence⟩
            · cases hb
            · exact ⟨splitlines_oneLine hcodes _ hline, hfence⟩
          · cases h

/-- **Whatever is imported keeps to its field.** -/
theorem imported_names {entries : List SweepEntry} {report : Report}
    (hfile : src.node universePath = some (.file (bytesOf text)))
    (h : importUniverse src [] = some (entries, report)) : ∀ e ∈ entries,
      OneField e.row.symbol.toList ∧ ¬ IsFence e.row.symbol.toList ∧
        OneField e.row.lastEarnings.toList := by
  intro e he
  unfold importUniverse at h
  cases hread : readUniverse src with
  | absent =>
    rw [hread] at h
    cases h
    cases he
  | refused reason =>
    rw [hread] at h
    cases h
    cases he
  | raised =>
    rw [hread] at h
    cases h
  | table asof lines =>
    rw [hread] at h
    obtain ⟨⟨got, t⟩, hturns, hinstall⟩ := Option.bind_eq_some_iff.mp h
    obtain ⟨⟨entries', n⟩, hentries, hsame⟩ := Option.map_eq_some_iff.mp hinstall
    cases hsame
    rw [installSweep_empty] at hentries
    have hrow : e.row ∈ got := by
      split at hentries
      · cases hentries
        cases he
      · split at hentries
        · cases hentries
          obtain ⟨row, hrow, rfl⟩ := List.mem_map.mp he
          exact hrow
        · cases hentries
    rcases turns_sweepRow hturns e.row hrow with hnone | ⟨⟨p, l⟩, hl, hfields⟩
    · cases hnone
    · obtain ⟨hline, hfence⟩ := readUniverse_lines hfile hread _ hl
      obtain ⟨⟨rest, hrest⟩, hearnings⟩ := universeRow_names hfields
      have hjoin : ['\t'].intercalate (l.splitOn '\t') = l := List.intercalate_splitOn '\t'
      have hfield : ∀ f ∈ l.splitOn '\t', OneField f := by
        intro f hf
        refine ⟨fun c hc => hline c ?_, not_mem_splitOn '\t' l f hf⟩
        show c ∈ l
        rw [← hjoin]
        exact mem_intercalate hc hf
      refine ⟨hfield _ ?_, fun hstart => hfence ?_, hfield _ hearnings⟩
      · show e.row.symbol.toList ∈ l.splitOn '\t'
        rw [hrest]
        exact List.mem_cons_self
      · show IsFence l
        rw [← hjoin]
        show IsFence (['\t'].intercalate (l.splitOn '\t'))
        rw [hrest]
        cases rest with
        | nil => rwa [List.intercalate_singleton]
        | cons f rest =>
          rw [List.intercalate_cons_cons, List.append_assoc]
          exact (isPrefixOf_field (by decide) _ _).trans hstart

/-! ## The round trip -/

/-- A row that was imported is a row of the sweep: its texts and its flags,
and its numbers rounded as they are printed. -/
structure Restored (asof : Date) (r : Loops.UniverseRow) (e : SweepEntry) : Prop where
  asof : e.asof.text = dateText asof
  symbol : e.row.symbol = r.symbol
  optionable : e.row.optionable = r.optionable
  isEtf : e.row.isEtf = r.isEtf
  lastEarnings : e.row.lastEarnings = r.lastEarnings
  sessionRangePct : e.row.sessionRangePct =
    r.sessionRangePct.map fun rng => .finite (quantized 2 rng)
  price : e.row.price = .finite (quantized 4 r.price)
  adv10 : e.row.adv10 = .finite (quantized 0 r.adv10)
  dollarVol : e.row.dollarVol = .finite (quantized 0 r.dollarVol)
  pctFrom52wkHigh : e.row.pctFrom52wkHigh = .finite (quantized 2 r.pctFrom52wkHigh)
  leverage : e.row.leverage = .finite (quantized 1 r.leverage)

/-- Importing the tree's document into an empty table gives these rows. -/
def RoundTrips (src : SourceTree) (asof : Date) (rows : List Loops.UniverseRow) : Prop :=
  ∃ entries report, importUniverse src [] = some (entries, report) ∧
    List.Forall₂ (Restored asof) rows entries

/-- A row that has a date of earnings, and whose names fit. -/
def Returns (r : Loops.UniverseRow) : Prop := Fits r ∧ r.lastEarnings ≠ ""

theorem forall₂_left {α β : Type} {R : α → β → Prop} {as : List α} {bs : List β}
    (h : List.Forall₂ R as bs) : ∀ a ∈ as, ∃ b ∈ bs, R a b := by
  induction h with
  | nil => exact fun a ha => by cases ha
  | cons hab _ ih =>
    intro a ha
    rcases List.mem_cons.mp ha with rfl | ha
    · exact ⟨_, List.mem_cons_self, hab⟩
    · obtain ⟨b, hb, hrel⟩ := ih a ha
      exact ⟨b, List.mem_cons_of_mem _ hb, hrel⟩

theorem restored_rowRead {d asof : Date} (hcal : InCalendar d) (hasof : InCalendar asof)
    (r : Loops.UniverseRow) :
    Restored asof r ⟨⟨dateText d, dateText_real hcal⟩, rowRead r⟩ ↔ d = asof ∧ r.lastEarnings ≠ "" := by
  constructor
  · intro h
    refine ⟨dateText_injective hcal hasof h.asof, fun hnone => ?_⟩
    have hread : (if r.lastEarnings = "" then "-" else r.lastEarnings) = r.lastEarnings :=
      h.lastEarnings
    rw [if_pos hnone, hnone] at hread
    exact absurd hread (by decide)
  · rintro ⟨rfl, hearnings⟩
    exact ⟨rfl, rfl, rfl, rfl, if_neg hearnings, rfl, rfl, rfl, rfl, rfl, rfl⟩

/-- **The document comes back as the rows of the sweep** exactly when the
sweep ran on one day in UTC and in New York, no two rows have one symbol,
and every row has its date of earnings and names that keep to their field.
The names that were skipped, which no row has, are one line each. -/
theorem universe_reimported_iff {et : Zone} (hrender : renderUniverseMd rows counts now = some text)
    (hfile : src.node universePath = some (.file (bytesOf text)))
    (hskipped : ∀ s ∈ counts.skipped, OneLine s.toList)
    (hutc : InCalendar (now / dayLength)) (het : InCalendar (et.date now)) :
    RoundTrips src (et.date now) rows ↔ (rows ≠ [] → now / dayLength = et.date now) ∧
      (rows.map (·.symbol)).Nodup ∧ ∀ r ∈ rows, Returns r := by
  have hsymbols : (rows.map rowRead).map (·.symbol) = rows.map (·.symbol) := by
    rw [List.map_map]
    rfl
  constructor
  · rintro ⟨entries, report, himport, hrows⟩
    have hfits : ∀ r ∈ rows, Fits r := by
      intro r hr
      obtain ⟨e, he, hrestored⟩ := forall₂_left hrows r hr
      obtain ⟨hsymbol, hfence, hearnings⟩ := imported_names hfile himport e he
      rw [hrestored.symbol] at hsymbol hfence
      rw [hrestored.lastEarnings] at hearnings
      exact ⟨hsymbol, hfence, hearnings⟩
    rw [importUniverse_rendered hrender hfile hskipped hutc hfits, installSweep_empty, hsymbols]
      at himport
    by_cases hempty : rows = []
    · subst hempty
      exact ⟨fun h => absurd rfl h, List.nodup_nil, fun r hr => by cases hr⟩
    · have hread : rows.map rowRead ≠ [] := fun h => hempty (List.map_eq_nil_iff.mp h)
      rw [if_neg hread] at himport
      by_cases hnodup : (rows.map (·.symbol)).Nodup
      · rw [if_pos hnodup] at himport
        obtain ⟨r', hr', hsame⟩ := Option.map_eq_some_iff.mp himport
        obtain rfl := Option.some.inj hr'
        cases hsame
        have hall : ∀ r ∈ rows, now / dayLength = et.date now ∧ r.lastEarnings ≠ "" := by
          rw [List.map_map, List.forall₂_map_right_iff, List.forall₂_same] at hrows
          exact fun r hr => (restored_rowRead hutc het r).mp (hrows r hr)
        obtain ⟨r, hr⟩ := List.exists_mem_of_ne_nil rows hempty
        exact ⟨fun _ => (hall r hr).1, hnodup, fun r hr => ⟨hfits r hr, (hall r hr).2⟩⟩
      · rw [if_neg hnodup] at himport
        cases himport
  · rintro ⟨hday, hnodup, hreturns⟩
    have hfits : ∀ r ∈ rows, Fits r := fun r hr => (hreturns r hr).1
    have himport := importUniverse_rendered hrender hfile hskipped hutc hfits
    rw [installSweep_empty, hsymbols] at himport
    by_cases hempty : rows = []
    · subst hempty
      exact ⟨[], _, himport, List.Forall₂.nil⟩
    · have hread : rows.map rowRead ≠ [] := fun h => hempty (List.map_eq_nil_iff.mp h)
      rw [if_neg hread, if_pos hnodup] at himport
      refine ⟨_, _, himport, ?_⟩
      rw [List.map_map, List.forall₂_map_right_iff, List.forall₂_same]
      exact fun r hr => (restored_rowRead hutc het r).mpr ⟨hday hempty, (hreturns r hr).2⟩

private def sweptRow (lastEarnings : String) : Loops.UniverseRow :=
  ⟨"KO", 1265 / 18, 15000000, 1054166666, 153 / 40, true, 0, lastEarnings, false, some (7 / 6),
    "Coca-Cola", true⟩

private def sweptCounts : Counts := ⟨2, 2, 1, 0, 0, 1, 0, ["ZZZ"], 1, 0⟩

private def saturday : Instant := dayNumber 2026 9 12 * dayLength + clockTime 11 56

private def treeOf (text : String) : SourceTree where
  node path := if path = universePath then some (.file (bytesOf text)) else none
  names _ := []
  nodup _ := List.nodup_nil

private theorem treeOf_file (text : String) :
    (treeOf text).node universePath = some (.file (bytesOf text)) := by
  show (if universePath = universePath then some (Node.file (bytesOf text)) else none) = _
  exact if_pos rfl

theorem universe_reimported_saturday :
    ∃ text, renderUniverseMd [sweptRow "2026-10-20"] sweptCounts saturday = some text ∧
      RoundTrips (treeOf text) ((Zone.fixed (-clockTime 4 0)).date saturday)
        [sweptRow "2026-10-20"] := by
  have hsome : (renderUniverseMd [sweptRow "2026-10-20"] sweptCounts saturday).isSome = true := by
    decide +kernel
  obtain ⟨text, htext⟩ := Option.isSome_iff_exists.mp hsome
  refine ⟨text, htext, (universe_reimported_iff htext (treeOf_file text) ?_ ?_ ?_).mpr ⟨?_, ?_, ?_⟩⟩
  · intro s hs
    rw [List.mem_singleton.mp hs]
    exact oneLine_of_all (by decide)
  · exact ⟨by decide +kernel, by decide +kernel⟩
  · exact ⟨by decide +kernel, by decide +kernel⟩
  · exact fun _ => by decide +kernel
  · exact List.nodup_singleton _
  · intro r hr
    rw [List.mem_singleton.mp hr]
    exact ⟨⟨⟨oneLine_of_all (by decide), by decide⟩, fun h => (by cases h),
      ⟨oneLine_of_all (by decide), by decide⟩⟩, by decide⟩

/-- A share without a date of earnings comes back with a dash for one. -/
theorem universe_reimported_undated :
    ¬ ∀ (src : SourceTree) (et : Zone) (rows : List Loops.UniverseRow) (counts : Counts)
      (now : Instant) (text : String), (∀ r ∈ rows, r.qualified = true) →
      renderUniverseMd rows counts now = some text →
      src.node universePath = some (.file (bytesOf text)) →
      (∀ s ∈ counts.skipped, OneLine s.toList) → InCalendar (now / dayLength) →
      InCalendar (et.date now) → RoundTrips src (et.date now) rows := by
  intro hclaim
  have hsome : (renderUniverseMd [sweptRow ""] sweptCounts saturday).isSome = true := by
    decide +kernel
  obtain ⟨text, htext⟩ := Option.isSome_iff_exists.mp hsome
  have hfile := treeOf_file text
  have hskipped : ∀ s ∈ sweptCounts.skipped, OneLine s.toList := by
    intro s hs
    rw [List.mem_singleton.mp hs]
    exact oneLine_of_all (by decide)
  have hutc : InCalendar (saturday / dayLength) := ⟨by decide +kernel, by decide +kernel⟩
  have hfits : ∀ r ∈ [sweptRow ""], Fits r := by
    intro r hr
    rw [List.mem_singleton.mp hr]
    exact ⟨⟨oneLine_of_all (by decide), by decide⟩, fun h => (by cases h),
      ⟨oneLine_of_all (by decide), by decide⟩⟩
  obtain ⟨entries, report, himport, hrows⟩ := hclaim (treeOf text) (Zone.fixed (-clockTime 4 0))
    [sweptRow ""] sweptCounts saturday text (fun r hr => by rw [List.mem_singleton.mp hr]; rfl)
    htext hfile hskipped hutc ⟨by decide +kernel, by decide +kernel⟩
  rw [importUniverse_rendered htext hfile hskipped hutc hfits, installSweep_empty] at himport
  cases himport
  cases hrows with
  | cons hrestored _ =>
    have hread : (rowRead (sweptRow "")).lastEarnings = "" := hrestored.lastEarnings
    exact absurd hread (by decide)

end TradeDesk.Research
