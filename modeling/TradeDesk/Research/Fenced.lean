import TradeDesk.Loops.Printed
import TradeDesk.Research.Importer
import TradeDesk.Research.Recovery

/-!
# Lines, fences and the mark

What the importer reads of a document that was put together from lines. A
file is its text's bytes, and has a zero byte only if the text has one. Lines
without a line break come apart where they were put together
(`splitlines_lines`), a block is the lines between two fences, and the mark
of the date is found on the first line that has it.
-/

namespace TradeDesk.Research

open TradeDesk.Loops

/-! ## Bytes -/

/-- A character has a zero byte only if it is the one of code zero. -/
theorem zero_mem_utf8EncodeChar {c : Char} : 0 ∈ String.utf8EncodeChar c ↔ c.toNat = 0 := by
  have hlead : ∀ b m : UInt8, 128 ≤ m.toNat → b ||| m ≠ 0 := by
    intro b m hm hzero
    have hle : m.toNat ≤ (b ||| m).toNat := by
      rw [UInt8.toNat_or]
      exact Nat.right_le_or
    rw [hzero, UInt8.toNat_zero] at hle
    omega
  have hone : ∀ c : Char, c.utf8Size = 1 ↔ c.toNat < 128 := by
    intro c
    rw [Char.utf8Size_eq_one_iff, UInt32.le_iff_toNat_le]
    exact Nat.lt_succ_iff.symm
  have hbig : c.utf8Size ≠ 1 → c.toNat ≠ 0 := by
    intro hsize hzero
    exact hsize ((hone c).mpr (by omega))
  rcases Char.utf8Size_eq c with h | h | h | h
  · rw [String.utf8EncodeChar_eq_singleton h, List.mem_singleton]
    have hsmall := (hone c).mp h
    constructor
    · intro hzero
      have hnat := congrArg UInt8.toNat hzero
      rw [UInt8.toNat_zero, UInt32.toNat_toUInt8] at hnat
      have hval : c.toNat = c.val.toNat := rfl
      omega
    · intro hzero
      have hval : c.val = 0 := UInt32.toNat_inj.mp hzero
      rw [hval]
      rfl
  · rw [String.utf8EncodeChar_eq_cons_cons h]
    refine ⟨fun hmem => ?_, fun hzero => absurd hzero (hbig (by omega))⟩
    rw [List.mem_cons, List.mem_singleton] at hmem
    rcases hmem with hmem | hmem
    · exact absurd hmem.symm (hlead _ _ (by decide))
    · exact absurd hmem.symm (hlead _ _ (by decide))
  · rw [String.utf8EncodeChar_eq_cons_cons_cons h]
    refine ⟨fun hmem => ?_, fun hzero => absurd hzero (hbig (by omega))⟩
    rw [List.mem_cons, List.mem_cons, List.mem_singleton] at hmem
    rcases hmem with hmem | hmem | hmem
    · exact absurd hmem.symm (hlead _ _ (by decide))
    · exact absurd hmem.symm (hlead _ _ (by decide))
    · exact absurd hmem.symm (hlead _ _ (by decide))
  · rw [String.utf8EncodeChar_eq_cons_cons_cons_cons h]
    refine ⟨fun hmem => ?_, fun hzero => absurd hzero (hbig (by omega))⟩
    rw [List.mem_cons, List.mem_cons, List.mem_cons, List.mem_singleton] at hmem
    rcases hmem with hmem | hmem | hmem | hmem
    · exact absurd hmem.symm (hlead _ _ (by decide))
    · exact absurd hmem.symm (hlead _ _ (by decide))
    · exact absurd hmem.symm (hlead _ _ (by decide))
    · exact absurd hmem.symm (hlead _ _ (by decide))

/-- The bytes of a text, as they are written. -/
def bytesOf (text : String) : Bytes := text.toByteArray.data.toList

theorem zero_mem_bytesOf {text : String} : 0 ∈ bytesOf text ↔ ∃ c ∈ text.toList, c.toNat = 0 := by
  have hbytes : bytesOf text = text.toList.flatMap String.utf8EncodeChar := by
    have hencode : text.toByteArray = (text.toList.flatMap String.utf8EncodeChar).toByteArray :=
      String.utf8Encode_toList.symm
    unfold bytesOf
    rw [hencode, List.data_toByteArray]
  rw [hbytes, List.mem_flatMap]
  exact exists_congr fun c => and_congr_right fun _ => zero_mem_utf8EncodeChar

theorem decode_bytesOf (text : String) : decode (bytesOf text) = some text.toList := by
  have hvalid : ByteArray.IsValidUTF8 ⟨(bytesOf text).toArray⟩ := text.isValidUTF8
  have hread : String.fromUTF8? ⟨(bytesOf text).toArray⟩ = some text := dif_pos hvalid
  unfold decode
  rw [hread]
  rfl

/-! ## Lines -/

/-- A text that stays on its line, and has no zero byte. -/
def OneLine (s : List Char) : Prop := ∀ c ∈ s, isLineBreak c = false ∧ c.toNat ≠ 0

/-- A text that stays in its field. -/
def OneField (s : List Char) : Prop := OneLine s ∧ '\t' ∉ s

theorem OneLine.append {s t : List Char} (hs : OneLine s) (ht : OneLine t) : OneLine (s ++ t) := by
  intro c hc
  rcases List.mem_append.mp hc with hc | hc
  · exact hs c hc
  · exact ht c hc

theorem OneLine.intercalate {sep : List Char} (hsep : OneLine sep) :
    ∀ {ls : List (List Char)}, (∀ l ∈ ls, OneLine l) → OneLine (sep.intercalate ls)
  | [], _ => fun c hc => by cases hc
  | [l], h => by
    rw [List.intercalate_singleton]
    exact h l List.mem_cons_self
  | l :: l' :: ls, h => by
    rw [List.intercalate_cons_cons]
    exact ((h l List.mem_cons_self).append hsep).append
      (OneLine.intercalate hsep fun k hk => h k (List.mem_cons_of_mem _ hk))

theorem mem_intercalate {sep l : List Char} {c : Char} (hc : c ∈ l) :
    ∀ {ls : List (List Char)}, l ∈ ls → c ∈ sep.intercalate ls
  | [], hl => by cases hl
  | [k], hl => by
    rw [List.intercalate_singleton]
    rwa [← List.mem_singleton.mp hl]
  | k :: k' :: ls, hl => by
    rw [List.intercalate_cons_cons]
    rcases List.mem_cons.mp hl with rfl | hl
    · exact List.mem_append_left _ (List.mem_append_left _ hc)
    · exact List.mem_append_right _ (mem_intercalate hc hl)

/-- The characters of a document of these lines. -/
def document (ls : List (List Char)) : List Char := ls.flatMap (· ++ ['\n'])

theorem document_cons (l : List Char) (ls : List (List Char)) :
    document (l :: ls) = l ++ '\n' :: document ls := by
  show (l ++ ['\n']) ++ document ls = _
  rw [List.append_assoc]
  rfl

theorem toList_document {ls : List String} (h : ls ≠ []) :
    ("\n".intercalate ls ++ "\n").toList = document (ls.map String.toList) := by
  have hnewline : "\n".toList = ['\n'] := rfl
  rw [String.toList_append, String.toList_intercalate, hnewline]
  induction ls with
  | nil => exact absurd rfl h
  | cons l ls ih =>
    cases ls with
    | nil =>
      rw [List.map_cons, List.map_nil, List.intercalate_singleton]
      exact (document_cons l.toList []).symm
    | cons l' ls =>
      have hrest := ih (List.cons_ne_nil _ _)
      rw [List.map_cons, document_cons, ← hrest, List.map_cons, List.intercalate_cons_cons]
      rw [List.append_assoc, List.append_assoc]
      rfl

theorem linesFrom_line {l : List Char} (h : OneLine l) (rest line : List Char) :
    linesFrom line (l ++ '\n' :: rest) = (line.reverse ++ l) :: linesFrom [] rest := by
  induction l generalizing line with
  | nil =>
    have hcrlf : ¬ IsCrlf '\n' rest := fun hc => by cases hc.1
    rw [List.nil_append, linesFrom_cons hcrlf, if_pos (by decide), List.append_nil]
  | cons c cs ih =>
    have hc : isLineBreak c = false := (h c List.mem_cons_self).1
    have hcrlf : ¬ IsCrlf c (cs ++ '\n' :: rest) := by
      rintro ⟨rfl, -⟩
      cases hc
    rw [List.cons_append, linesFrom_cons hcrlf, hc, if_neg Bool.false_ne_true,
      ih (fun d hd => h d (List.mem_cons_of_mem _ hd)), List.reverse_cons, List.append_assoc]
    rfl

/-- **Lines come apart** where they were put together. -/
theorem splitlines_lines {ls : List (List Char)} (h : ∀ l ∈ ls, OneLine l) :
    splitlines (document ls) = ls := by
  induction ls with
  | nil => rfl
  | cons l ls ih =>
    rw [document_cons]
    refine (linesFrom_line (h l List.mem_cons_self) _ []).trans ?_
    rw [List.reverse_nil, List.nil_append]
    exact congrArg _ (ih fun k hk => h k (List.mem_cons_of_mem _ hk))

/-- The characters of a line are the text's, and no line breaks. -/
theorem linesFrom_chars {p : Char → Prop} {cs : List Char}
    (hcs : ∀ c ∈ cs, isLineBreak c = false → p c) : ∀ line, (∀ c ∈ line, p c) →
    ∀ l ∈ linesFrom line cs, ∀ c ∈ l, p c := by
  induction cs using crlfInduction with
  | nil =>
    intro line hline l hl c hc
    have hlines : linesFrom line [] = if line.isEmpty then [] else [line.reverse] := rfl
    rw [hlines] at hl
    split at hl
    · cases hl
    · rw [List.mem_singleton.mp hl] at hc
      exact hline c (List.mem_reverse.mp hc)
  | crlf cs ih =>
    intro line hline l hl c hc
    have hlines : linesFrom line ('\r' :: '\n' :: cs) = line.reverse :: linesFrom [] cs := rfl
    rw [hlines] at hl
    have hrest := ih fun d hd => hcs d (List.mem_cons_of_mem _ (List.mem_cons_of_mem _ hd))
    rcases List.mem_cons.mp hl with rfl | hl
    · exact hline c (List.mem_reverse.mp hc)
    · exact hrest [] (fun d hd => by cases hd) l hl c hc
  | cons d cs h ih =>
    intro line hline l hl c hc
    have hrest := ih fun e he => hcs e (List.mem_cons_of_mem _ he)
    rw [linesFrom_cons h] at hl
    split at hl
    · rcases List.mem_cons.mp hl with rfl | hl
      · exact hline c (List.mem_reverse.mp hc)
      · exact hrest [] (fun d hd => by cases hd) l hl c hc
    next hd =>
      refine hrest (d :: line) (fun e he => ?_) l hl c hc
      rcases List.mem_cons.mp he with rfl | he
      · exact hcs e List.mem_cons_self (Bool.not_eq_true _ ▸ hd)
      · exact hline e he

theorem splitlines_oneLine {text : List Char} (h : ∀ c ∈ text, c.toNat ≠ 0) :
    ∀ l ∈ splitlines text, OneLine l :=
  linesFrom_chars (fun c hc hbreak => ⟨hbreak, h c hc⟩) [] fun c hc => by cases hc

/-- A field has no separator in it. -/
theorem not_mem_splitOn (x : Char) (cs : List Char) : ∀ f ∈ cs.splitOn x, x ∉ f := by
  induction cs with
  | nil =>
    intro f hf
    rw [List.splitOn_nil] at hf
    rw [List.mem_singleton.mp hf]
    exact List.not_mem_nil
  | cons c cs ih =>
    intro f hf
    rw [List.splitOn_cons_eq_if_modifyHead] at hf
    split at hf
    · rcases List.mem_cons.mp hf with rfl | hf
      · exact List.not_mem_nil
      · exact ih f hf
    next hc =>
      obtain ⟨first, rest, hsplit⟩ := List.exists_cons_of_ne_nil (List.splitOn_ne_nil x cs)
      rw [hsplit, List.modifyHead_cons] at hf
      rw [hsplit] at ih
      rcases List.mem_cons.mp hf with rfl | hf
      · intro hmem
        rcases List.mem_cons.mp hmem with rfl | hmem
        · exact hc (beq_self_eq_true _)
        · exact ih first List.mem_cons_self hmem
      · exact ih f (List.mem_cons_of_mem _ hf)

/-! ## Fences -/

def IsFence (l : List Char) : Prop := "```".toList.isPrefixOf l = true

theorem fencedTsv_cons (block : Option (List (List Char))) {l : List Char} (h : ¬ IsFence l)
    (ls : List (List Char)) : fencedTsv block (l :: ls) = fencedTsv (block.map (· ++ [l])) ls := by
  conv_lhs => unfold fencedTsv
  exact if_neg h

/-- Outside a block, lines that are no fence are passed over. -/
theorem fencedTsv_outside {ls : List (List Char)} (h : ∀ l ∈ ls, ¬ IsFence l)
    (rest : List (List Char)) : fencedTsv none (ls ++ rest) = fencedTsv none rest := by
  induction ls with
  | nil => rfl
  | cons l ls ih =>
    rw [List.cons_append, fencedTsv_cons none (h l List.mem_cons_self)]
    exact ih fun k hk => h k (List.mem_cons_of_mem _ hk)

/-- Inside one, they are taken. -/
theorem fencedTsv_inside {ls : List (List Char)} (h : ∀ l ∈ ls, ¬ IsFence l)
    (rest block : List (List Char)) :
    fencedTsv (some block) (ls ++ rest) = fencedTsv (some (block ++ ls)) rest := by
  induction ls generalizing block with
  | nil => rw [List.nil_append, List.append_nil]
  | cons l ls ih =>
    rw [List.cons_append, fencedTsv_cons _ (h l List.mem_cons_self), Option.map_some,
      ih (fun k hk => h k (List.mem_cons_of_mem _ hk)), List.append_assoc]
    rfl

/-- A block is lines of the text, none of them a fence. -/
theorem fencedTsv_lines {ls got : List (List Char)} : ∀ {block : Option (List (List Char))},
    fencedTsv block ls = some got → ∀ l ∈ got,
      (∃ b, block = some b ∧ l ∈ b) ∨ (l ∈ ls ∧ ¬ IsFence l) := by
  induction ls with
  | nil =>
    intro block h l hl
    have hblock : block = some got := (Option.filter_eq_some_iff.mp h).1
    exact Or.inl ⟨got, hblock, hl⟩
  | cons k ls ih =>
    intro block h l hl
    have hrest : ∀ {b : Option (List (List Char))}, fencedTsv b ls = some got →
        (∀ b', b = some b' → l ∈ b' → (∃ b, block = some b ∧ l ∈ b) ∨ (l = k ∧ ¬ IsFence k)) →
        (∃ b, block = some b ∧ l ∈ b) ∨ (l ∈ k :: ls ∧ ¬ IsFence l) := by
      intro b hb hin
      rcases ih hb l hl with ⟨b', rfl, hmem⟩ | ⟨hmem, hfence⟩
      · rcases hin b' rfl hmem with hblock | ⟨rfl, hfence⟩
        · exact Or.inl hblock
        · exact Or.inr ⟨List.mem_cons_self, hfence⟩
      · exact Or.inr ⟨List.mem_cons_of_mem _ hmem, hfence⟩
    by_cases hk : IsFence k
    · have hfence : "```".toList.isPrefixOf k = true := hk
      unfold fencedTsv at h
      rw [if_pos hfence] at h
      split at h
      next b =>
        split at h
        · cases h
          exact Or.inl ⟨_, rfl, hl⟩
        · exact hrest h fun b' hb' => by cases hb'
      next =>
        refine hrest h fun b' hb' hmem => ?_
        cases hb'
        cases hmem
    · rw [fencedTsv_cons block hk] at h
      refine hrest h fun b' hb' hmem => ?_
      obtain ⟨b, rfl, rfl⟩ := Option.map_eq_some_iff.mp hb'
      rcases List.mem_append.mp hmem with hmem | hmem
      · exact Or.inl ⟨b, rfl, hmem⟩
      · exact Or.inr ⟨List.mem_singleton.mp hmem, hk⟩

/-! ## The mark of the date -/

theorem lineStarts_self (cs : List Char) : ∃ rest, lineStarts cs = cs :: rest := by
  induction cs with
  | nil => exact ⟨[], rfl⟩
  | cons c cs ih =>
    obtain ⟨rest, hrest⟩ := ih
    unfold lineStarts
    split
    next heq => cases heq
    next cs' heq =>
      rw [← heq]
      exact ⟨_, rfl⟩
    next c' cs' _ heq =>
      obtain ⟨rfl, rfl⟩ := List.cons.inj heq
      rw [hrest]
      exact ⟨_, rfl⟩

theorem lineStarts_line {l : List Char} (h : '\n' ∉ l) (rest : List Char) :
    lineStarts (l ++ '\n' :: rest) = (l ++ '\n' :: rest) :: lineStarts rest := by
  induction l with
  | nil => rfl
  | cons c cs ih =>
    have hc : c ≠ '\n' := fun heq => h (heq ▸ List.mem_cons_self)
    have hrest := ih fun hmem => h (List.mem_cons_of_mem _ hmem)
    rw [List.cons_append]
    conv_lhs => unfold lineStarts
    split
    next heq => cases heq
    next heq => exact absurd (List.cons.inj heq).1 hc
    next c' cs' _ heq =>
      obtain ⟨rfl, rfl⟩ := List.cons.inj heq
      rw [hrest]

/-- A line that starts with another letter does not have the mark. -/
theorem assembled_line {l : List Char} (h : '\n' ∉ l) (hmark : (l ++ ['\n']).head? ≠ some 'A')
    (rest : List Char) : assembled (l ++ '\n' :: rest) = assembled rest := by
  have hstart : assembledAt (l ++ '\n' :: rest) = none := by
    have hmarked : "Assembled:".toList.isPrefixOf (l ++ '\n' :: rest) = false := by
      cases l with
      | nil => rfl
      | cons c cs =>
        have hc : 'A' ≠ c := fun heq => hmark (heq ▸ rfl)
        exact congrArg (· && _) (beq_eq_false_iff_ne.mpr hc)
    unfold assembledAt
    rw [hmarked]
    rfl
  unfold assembled
  rw [lineStarts_line h, List.findSome?_cons, hstart]

theorem assembled_document {ls : List (List Char)} (h : ∀ l ∈ ls, '\n' ∉ l ∧
    (l ++ ['\n']).head? ≠ some 'A') (rest : List (List Char)) :
    assembled (document (ls ++ rest)) = assembled (document rest) := by
  induction ls with
  | nil => rfl
  | cons l ls ih =>
    obtain ⟨hline, hmark⟩ := h l List.mem_cons_self
    rw [List.cons_append, document_cons, assembled_line hline hmark]
    exact ih fun k hk => h k (List.mem_cons_of_mem _ hk)

theorem digitValue_isSome {d : ℕ} (h : d < 10) : (digitValue (Nat.digitChar d)).isSome = true := by
  rw [digitValue_digitChar h]
  rfl

theorem assembledAt_of {cs : List Char} {stamp : String}
    (hmark : "Assembled:".toList.isPrefixOf cs = true)
    (hstamp : String.ofList (((cs.drop 10).dropWhile isSpace).take 10) = stamp)
    (hdate : matchesDate stamp = true) : assembledAt cs = some stamp := by
  unfold assembledAt
  dsimp only
  rw [hmark, hstamp, hdate]
  rfl

theorem mark_stands (text : List Char) :
    "Assembled:".toList.isPrefixOf ("Assembled: ".toList ++ text) = true ∧
      ("Assembled: ".toList ++ text).drop 10 = ' ' :: text := ⟨rfl, rfl⟩

/-- The date is what follows the mark. -/
theorem assembled_stamp {d : Date} (h : InCalendar d) (rest : List Char) :
    assembled ("Assembled: ".toList ++ ((dateText d).toList ++ rest)) = some (dateText d) := by
  obtain ⟨y3, y2, y1, y0, m1, m0, d1, d0, hlt, hchars, -⟩ := dateText_chars h
  simp only [List.mem_cons, List.not_mem_nil, or_false, forall_eq_or_imp, forall_eq] at hlt
  obtain ⟨hy3, hy2, hy1, hy0, hm1, hm0, hd1, hd0⟩ := hlt
  have hspace : isSpace (Nat.digitChar y3) = false := (digitChar_spec hy3).1
  have htake : ((dateText d).toList ++ rest).take 10 = (dateText d).toList := by
    rw [hchars]
    rfl
  have hdrop : (' ' :: ((dateText d).toList ++ rest)).dropWhile isSpace =
      (dateText d).toList ++ rest := by
    rw [List.dropWhile_cons_of_pos (by decide), hchars]
    exact List.dropWhile_cons_of_neg (by rw [hspace]; decide)
  have hdate : matchesDate (dateText d) = true := by
    have hend : beforeEnd (dateText d).toList = (dateText d).toList := by
      have hlast : Nat.digitChar d0 ≠ '\n' := by
        intro heq
        have hnot := (digitChar_spec hd0).1
        rw [heq] at hnot
        cases hnot
      unfold beforeEnd
      refine if_neg ?_
      rw [hchars]
      exact fun heq => hlast (Option.some.inj heq)
    unfold matchesDate
    rw [hend, hchars]
    simp [digitValue_isSome, *]
  obtain ⟨starts, hstarts⟩ := lineStarts_self ("Assembled: ".toList ++ ((dateText d).toList ++ rest))
  have hat : assembledAt ("Assembled: ".toList ++ ((dateText d).toList ++ rest)) =
      some (dateText d) := by
    refine assembledAt_of ?_ ?_ hdate
    · exact (mark_stands _).1
    · rw [(mark_stands _).2, hdrop, htake, String.ofList_toList]
  unfold assembled
  rw [hstarts, List.findSome?_cons, hat]

end TradeDesk.Research
