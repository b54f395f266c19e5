import TradeDesk.JsonText.Decoder
import Mathlib.Data.List.Forall2
import Mathlib.Data.Nat.Digits.Lemmas

/-!
# The texts of a JSON value

A value has many texts: blanks may stand between its parts, and a character
of a string may be written as itself or as an escape. `StringText`,
`IntText`, `ArrayText` and `ObjectText` are all of them, whatever writer
they are from. The decoder reads each of them back (`Reads`), whatever
follows: a number alone depends on what stands after it (`Stops`).

Reading may also fail, where an integer is too long to convert; so what is
read is a result, and a bracket's is that of its items (`collect`).
-/

namespace TradeDesk.JsonText

variable {α β : Type}

/-! ## Spelling -/

def Blank (ws : List Char) : Prop := ∀ c ∈ ws, isBlank c = true

/-- A character: itself, or one of its escapes. -/
inductive CharText (c : Char) : List Char → Prop where
  | raw : c ≠ '"' → c ≠ '\\' → 0x20 ≤ c.toNat → CharText c [c]
  | short {e : Char} : escapeValue e = some c.toNat → CharText c ['\\', e]
  | unit {x y z w : Char} : hex4 x y z w = some c.toNat → CharText c ['\\', 'u', x, y, z, w]
  | pair {x y z w x' y' z' w' : Char} {hi lo : ℕ} : hex4 x y z w = some hi →
      hex4 x' y' z' w' = some lo → isHigh hi = true → isLow lo = true → joinPair hi lo = c.toNat →
      CharText c ['\\', 'u', x, y, z, w, '\\', 'u', x', y', z', w']

inductive Spelled : List Char → List Char → Prop where
  | nil : Spelled [] []
  | cons {c : Char} {unit cs body : List Char} : CharText c unit → Spelled cs body →
      Spelled (c :: cs) (unit ++ body)

def StringText (s : String) (t : List Char) : Prop :=
  ∃ body, Spelled s.toList body ∧ t = '"' :: (body ++ ['"'])

/-- The decimal digits of an integer. -/
def intDigits (n : ℤ) : List Char := Nat.toDigits 10 n.natAbs

def intText (n : ℤ) : List Char := (if n < 0 then ['-'] else []) ++ intDigits n

def IntText (n : ℤ) (t : List Char) : Prop := t = intText n

/-- Items with a comma between them, and blanks around it. -/
inductive Items (P : α → List Char → Prop) : List α → List Char → Prop where
  | last {x : α} {t b : List Char} : P x t → Blank b → Items P [x] (t ++ b)
  | more {x : α} {xs : List α} {t b a r : List Char} : P x t → Blank b → Blank a → Items P xs r →
      Items P (x :: xs) (t ++ (b ++ ',' :: (a ++ r)))

def ArrayText (P : α → List Char → Prop) (xs : List α) (t : List Char) : Prop :=
  (xs = [] ∧ ∃ a, Blank a ∧ t = '[' :: (a ++ [']'])) ∨
    ∃ a r, Blank a ∧ Items P xs r ∧ t = '[' :: (a ++ (r ++ [']']))

def MemberText (P : α → List Char → Prop) (m : String × α) (t : List Char) : Prop :=
  ∃ key a b value, StringText m.1 key ∧ Blank a ∧ Blank b ∧ P m.2 value ∧
    t = key ++ (a ++ ':' :: (b ++ value))

/-- The texts of an object that has members. -/
def ObjectText (P : α → List Char → Prop) (members : List (String × α)) (t : List Char) : Prop :=
  ∃ a r, Blank a ∧ Items (MemberText P) members r ∧ t = '\x7b' :: (a ++ (r ++ ['\x7d']))

/-! ## Reading -/

/-- A number does not go on here. -/
def Stops (rest : List Char) : Prop :=
  ∀ c ∈ rest.head?, c.isDigit = false ∧ c ≠ '.' ∧ c ≠ 'e' ∧ c ≠ 'E'

def withRest (r : Except Fault α) (rest : List Char) : Scan α := r.map fun x => (x, rest)

/-- A scanner reads a text, whatever follows it, and the text is not one
that could be taken for a blank or a closing bracket. -/
structure Reads (scan : List Char → Scan α) (r : Except Fault α) (t : List Char) : Prop where
  scan_eq : ∀ rest, Stops rest → scan (t ++ rest) = withRest r rest
  head : ∃ c cs, t = c :: cs ∧ isBlank c = false ∧ c ≠ ']' ∧ c ≠ '\x7d'

/-- The results of items, in their order: the first that fails is that of
all. -/
def collect : List (Except Fault α) → Except Fault (List α)
  | [] => .ok []
  | .error f :: _ => .error f
  | .ok x :: rs => (collect rs).map (x :: ·)

/-! ### Blanks -/

theorem skipBlanks_append {ws cs : List Char} (h : Blank ws) :
    skipBlanks (ws ++ cs) = skipBlanks cs :=
  List.dropWhile_append_of_pos h

theorem skipBlanks_cons {c : Char} {cs : List Char} (h : isBlank c = false) :
    skipBlanks (c :: cs) = c :: cs :=
  List.dropWhile_cons_of_neg (by rw [h]; exact Bool.false_ne_true)

theorem stops_cons {c : Char} {cs : List Char}
    (h : c.isDigit = false ∧ c ≠ '.' ∧ c ≠ 'e' ∧ c ≠ 'E') : Stops (c :: cs) := by
  intro d hd
  obtain rfl := Option.some.inj hd
  exact h

theorem stops_blank {ws cs : List Char} (h : Blank ws) (hcs : Stops cs) : Stops (ws ++ cs) := by
  cases ws with
  | nil => exact hcs
  | cons c ws =>
    have hc := h c List.mem_cons_self
    unfold isBlank at hc
    rw [decide_eq_true_iff] at hc
    refine stops_cons ?_
    rcases hc with rfl | rfl | rfl | rfl
    · decide
    · decide
    · decide
    · decide

/-! ### Strings -/

theorem scanUnits_quote (cs : List Char) : scanUnits ('"' :: cs) = some ([], cs) := by
  rw [scanUnits.eq_def]
  rfl

theorem scanUnits_raw {c : Char} (cs : List Char) (hquote : c ≠ '"') (hslash : c ≠ '\\')
    (hcontrol : 0x20 ≤ c.toNat) : scanUnits (c :: cs) = consUnit c.toNat (scanUnits cs) := by
  rw [scanUnits.eq_def]
  dsimp only
  rw [if_neg hquote, if_neg hslash, if_neg (by omega)]

theorem scanUnits_short {e : Char} {n : ℕ} (cs : List Char) (h : escapeValue e = some n) :
    scanUnits ('\\' :: e :: cs) = consUnit n (scanUnits cs) := by
  have hu : e ≠ 'u' := by
    rintro rfl
    cases h
  rw [scanUnits.eq_def]
  dsimp only
  rw [if_neg (by decide), if_pos rfl]
  split
  next heq => exact absurd (List.cons.inj heq).1 hu
  next e' cs' _ heq =>
    obtain ⟨rfl, rfl⟩ := List.cons.inj heq
    rw [h]
  next heq => cases heq

theorem scanUnits_unit {x y z w : Char} {n : ℕ} (cs : List Char) (h : hex4 x y z w = some n) :
    scanUnits ('\\' :: 'u' :: x :: y :: z :: w :: cs) = consUnit n (scanUnits cs) := by
  rw [scanUnits.eq_def]
  dsimp only
  rw [if_neg (by decide), if_pos rfl]
  simp only [h]

theorem joinPairs_cons {n : ℕ} {us : List ℕ} (h : isHigh n = false) :
    joinPairs (n :: us) = n :: joinPairs us := by
  cases us with
  | nil => rfl
  | cons m us =>
    have hnot : ¬ (isHigh n && isLow m) = true := by
      rw [h]
      exact Bool.false_ne_true
    rw [joinPairs, if_neg hnot]

theorem joinPairs_pair {hi lo : ℕ} (us : List ℕ) (hhi : isHigh hi = true) (hlo : isLow lo = true) :
    joinPairs (hi :: lo :: us) = joinPair hi lo :: joinPairs us := by
  rw [joinPairs, hhi, hlo]
  rfl

/-- No character is half of a pair. -/
theorem char_not_high (c : Char) : isHigh c.toNat = false := by
  unfold isHigh
  rw [Bool.and_eq_false_iff, decide_eq_false_iff_not, decide_eq_false_iff_not]
  rcases c.valid with h | h
  · left
    have hlt : c.toNat < 0xd800 := h
    omega
  · right
    have hlt : 0xdfff < c.toNat := h.1
    omega

/-- One character is read as its units, which are joined to its code point. -/
theorem scanUnits_char {c : Char} {unit : List Char} (h : CharText c unit) (rest : List Char) :
    ∃ us, scanUnits (unit ++ rest) = (scanUnits rest).map (fun r => (us ++ r.1, r.2)) ∧
      ∀ vs, joinPairs (us ++ vs) = c.toNat :: joinPairs vs := by
  have hsingle : ∀ vs, joinPairs ([c.toNat] ++ vs) = c.toNat :: joinPairs vs :=
    fun vs => joinPairs_cons (char_not_high c)
  cases h with
  | raw hquote hslash hcontrol => exact ⟨[c.toNat], scanUnits_raw rest hquote hslash hcontrol, hsingle⟩
  | short he => exact ⟨[c.toNat], scanUnits_short rest he, hsingle⟩
  | unit hx => exact ⟨[c.toNat], scanUnits_unit rest hx, hsingle⟩
  | pair hx hx' hhi hlo hjoin =>
    rename_i x y z w x' y' z' w' hi lo
    refine ⟨[hi, lo], ?_, fun vs => ?_⟩
    · have hfirst := scanUnits_unit ('\\' :: 'u' :: x' :: y' :: z' :: w' :: rest) hx
      rw [scanUnits_unit rest hx'] at hfirst
      refine hfirst.trans ?_
      unfold consUnit
      rw [Option.map_map]
      rfl
    · rw [← hjoin]
      exact joinPairs_pair vs hhi hlo

/-- **A string's spelling is read back**, up to its closing quote. -/
theorem scanString_spelled {cs body rest : List Char} (h : Spelled cs body) :
    scanString (body ++ '"' :: rest) = .ok (cs.map Char.toNat, rest) := by
  suffices hunits : ∃ us, scanUnits (body ++ '"' :: rest) = some (us, rest) ∧
      joinPairs us = cs.map Char.toNat by
    obtain ⟨us, hscan, hjoin⟩ := hunits
    unfold scanString
    rw [hscan]
    show Except.ok (joinPairs us, rest) = _
    rw [hjoin]
  induction h with
  | nil => exact ⟨[], scanUnits_quote rest, rfl⟩
  | cons hchar _ ih =>
    obtain ⟨us, hscan, hjoin⟩ := ih
    obtain ⟨vs, hchars, hfirst⟩ := scanUnits_char hchar _
    refine ⟨vs ++ us, ?_, ?_⟩
    · rw [List.append_assoc, hchars, hscan]
      rfl
    · rw [hfirst, hjoin]
      rfl

theorem scanString_text {s : String} {t : List Char} (h : StringText s t) (rest : List Char) :
    ∃ body, t = '"' :: body ∧ scanString (body ++ rest) = .ok (codes s, rest) := by
  obtain ⟨body, hbody, ht⟩ := h
  refine ⟨body ++ ['"'], ht, ?_⟩
  rw [List.append_assoc]
  exact scanString_spelled hbody

theorem reads_string {nested : Option (List Char → Scan Value)} {s : String} {t : List Char}
    (h : StringText s t) : Reads (scanValue nested) (.ok (.str (codes s))) t := by
  refine ⟨fun rest _ => ?_, ?_⟩
  · obtain ⟨body, ht, hscan⟩ := scanString_text h rest
    rw [ht]
    show scanValue nested ('"' :: (body ++ rest)) = _
    rw [scanValue.eq_def]
    dsimp only
    rw [if_pos rfl, hscan]
    rfl
  · obtain ⟨body, -, ht⟩ := h
    exact ⟨'"', body ++ ['"'], ht, by decide, by decide, by decide⟩

/-! ### Numbers -/

theorem naturalOf_snoc (ds : List Char) (d : Char) :
    naturalOf (ds ++ [d]) = 10 * naturalOf ds + (d.toNat - 48) := by
  unfold naturalOf ofDigits
  rw [List.map_append, List.foldl_append]
  rfl

theorem digitChar_value : ∀ d < 10, (Nat.digitChar d).toNat - 48 = d ∧
    (Nat.digitChar d = '0' → d = 0) := by decide

/-- The digits of a number are read as it, and only zero begins with a zero. -/
theorem toDigits_read (n : ℕ) : naturalOf (Nat.toDigits 10 n) = n ∧
    ∃ c cs, Nat.toDigits 10 n = c :: cs ∧ (c = '0' → n = 0 ∧ cs = []) := by
  induction n using Nat.strong_induction_on with
  | _ n ih =>
    by_cases hn : n < 10
    · obtain ⟨hvalue, hzero⟩ := digitChar_value n hn
      rw [Nat.toDigits_of_lt_base hn]
      refine ⟨?_, n.digitChar, [], rfl, fun h => ⟨hzero h, rfl⟩⟩
      show 10 * 0 + (n.digitChar.toNat - 48) = n
      omega
    · obtain ⟨hvalue, c, cs, hdigits, hhead⟩ := ih (n / 10) (by omega)
      obtain ⟨hlast, -⟩ := digitChar_value (n % 10) (Nat.mod_lt n (by decide))
      rw [Nat.toDigits_of_base_le (by decide) (by omega)]
      refine ⟨?_, c, cs ++ [(n % 10).digitChar], ?_, fun h => ?_⟩
      · rw [naturalOf_snoc, hvalue, hlast]
        omega
      · rw [hdigits, List.cons_append]
      · have hzero := (hhead h).1
        omega

theorem intDigits_digit {n : ℤ} : ∀ c ∈ intDigits n, c.isDigit = true :=
  fun _ hc => Nat.isDigit_of_mem_toDigits (by decide) (by decide) hc

theorem takeDigits_stop {ds rest : List Char} (hds : ∀ c ∈ ds, c.isDigit = true)
    (hrest : Stops rest) : (ds ++ rest).takeWhile Char.isDigit = ds ∧
      (ds ++ rest).dropWhile Char.isDigit = rest := by
  have hstop : rest.takeWhile Char.isDigit = [] ∧ rest.dropWhile Char.isDigit = rest := by
    cases rest with
    | nil => exact ⟨rfl, rfl⟩
    | cons c cs =>
      have hc : ¬ c.isDigit = true := by
        rw [(hrest c rfl).1]
        exact Bool.false_ne_true
      exact ⟨List.takeWhile_cons_of_neg hc, List.dropWhile_cons_of_neg hc⟩
  rw [List.takeWhile_append_of_pos hds, List.dropWhile_append_of_pos hds, hstop.1, hstop.2,
    List.append_nil]
  exact ⟨rfl, rfl⟩

theorem scanFraction_stop {rest : List Char} (h : Stops rest) : scanFraction rest = ([], rest) := by
  unfold scanFraction
  split
  next c cs => exact absurd rfl (h '.' rfl).2.1
  next => rfl

theorem scanExponent_stop {rest : List Char} (h : Stops rest) : scanExponent rest = ([], rest) := by
  cases rest with
  | nil => rfl
  | cons e cs =>
    obtain ⟨-, -, he, hE⟩ := h e rfl
    unfold scanExponent
    dsimp only
    rw [if_neg]
    rintro ⟨rfl | rfl, -⟩
    · exact he rfl
    · exact hE rfl

/-- What reading an integer gives: it may have too many digits. -/
def intResult (n : ℤ) : Except Fault Value :=
  if maxDigits < (intDigits n).length then .error .digits else .ok (.int n)

theorem scanUnsigned_digits (negative : Bool) (n : ℤ) {rest : List Char} (h : Stops rest) :
    scanUnsigned negative (intDigits n ++ rest) =
      withRest (if maxDigits < (intDigits n).length then .error .digits
        else .ok (.int (if negative then -(n.natAbs : ℤ) else n.natAbs))) rest := by
  obtain ⟨hvalue, c, cs, hdigits, hzero⟩ := toDigits_read n.natAbs
  have hall : ∀ d ∈ c :: cs, d.isDigit = true := by
    rw [← hdigits]
    exact intDigits_digit
  have hwhole : scanWhole (c :: cs ++ rest) = some (c :: cs, rest) := by
    obtain ⟨htake, hdrop⟩ := takeDigits_stop (fun d hd => hall d (List.mem_cons_of_mem _ hd)) h
    unfold scanWhole
    rw [List.cons_append]
    dsimp only
    split
    next hc =>
      rw [hc, (hzero hc).2]
      rfl
    next => rw [if_pos (hall c List.mem_cons_self), htake, hdrop]
  have htext : intDigits n = c :: cs := hdigits
  have hnatural : naturalOf (c :: cs) = n.natAbs := by
    rw [← hdigits]
    exact hvalue
  unfold scanUnsigned
  rw [htext, hwhole]
  dsimp only
  rw [scanFraction_stop h]
  dsimp only
  rw [scanExponent_stop h]
  dsimp only
  rw [if_pos ⟨rfl, rfl⟩, hnatural]
  split
  · rfl
  · rfl

/-- No constant begins with a digit, or with a minus sign before one. -/
theorem constants_none {c : Char} {cs : List Char} (h : c.isDigit = true ∨
    c = '-' ∧ ∃ d ds, cs = d :: ds ∧ d.isDigit = true) :
    (constants.find? fun e => e.1.toList.isPrefixOf (c :: cs)) = none := by
  rw [List.find?_eq_none]
  intro e he
  unfold constants at he
  simp only [List.mem_cons, List.not_mem_nil, or_false] at he
  have hdigit : ∀ {d : Char}, d.isDigit = true → d ∉ ['n', 't', 'f', 'N', 'I', '-'] := by
    intro d hd hmem
    simp only [List.mem_cons, List.not_mem_nil, or_false] at hmem
    rcases hmem with rfl | rfl | rfl | rfl | rfl | rfl
    all_goals cases hd
  have hfirst : ∀ {a : Char} {as : List Char}, (a :: as).isPrefixOf (c :: cs) = true → a = c := by
    intro a as hpre
    rw [List.isPrefixOf_iff_prefix] at hpre
    exact (List.cons_prefix_cons.mp hpre).1
  intro hpre
  rcases h with hc | ⟨rfl, d, ds, rfl, hd⟩
  · have hnot := hdigit hc
    rcases he with rfl | rfl | rfl | rfl | rfl | rfl
    all_goals
      rw [← hfirst hpre] at hnot
      exact hnot (by decide)
  · rcases he with rfl | rfl | rfl | rfl | rfl | rfl
    · exact absurd (hfirst hpre) (by decide)
    · exact absurd (hfirst hpre) (by decide)
    · exact absurd (hfirst hpre) (by decide)
    · exact absurd (hfirst hpre) (by decide)
    · exact absurd (hfirst hpre) (by decide)
    · rw [List.isPrefixOf_iff_prefix] at hpre
      have hrest := (List.cons_prefix_cons.mp hpre).2
      have hI := (List.cons_prefix_cons.mp hrest).1
      exact hdigit hd (by rw [← hI]; decide)

theorem reads_int {nested : Option (List Char → Scan Value)} {n : ℤ} {t : List Char}
    (h : IntText n t) : Reads (scanValue nested) (intResult n) t := by
  obtain ⟨-, c, cs, hdigits, -⟩ := toDigits_read n.natAbs
  have hc : c.isDigit = true := by
    refine @intDigits_digit n c ?_
    show c ∈ Nat.toDigits 10 n.natAbs
    rw [hdigits]
    exact List.mem_cons_self
  have hbrackets : ∀ {d : Char}, d.isDigit = true ∨ d = '-' →
      d ≠ '"' ∧ d ≠ '\x7b' ∧ d ≠ '[' ∧ isBlank d = false ∧ d ≠ ']' ∧ d ≠ '\x7d' := by
    intro d hd
    by_contra hcon
    have hmem : d ∈ ['"', '\x7b', '[', ' ', '\t', '\n', '\r', ']', '\x7d'] := by
      unfold isBlank at hcon
      simp only [decide_eq_false_iff_not] at hcon
      simp only [List.mem_cons, List.not_mem_nil, or_false]
      tauto
    simp only [List.mem_cons, List.not_mem_nil, or_false] at hmem
    rcases hmem with rfl | rfl | rfl | rfl | rfl | rfl | rfl | rfl | rfl
    all_goals
      rcases hd with hd | hd
      · cases hd
      · cases hd
  -- a number is what none of the other branches takes
  have hscan : ∀ {d : Char} {ds : List Char}, (d.isDigit = true ∨
      d = '-' ∧ ∃ e es, ds = e :: es ∧ e.isDigit = true) →
      scanValue nested (d :: ds) = scanNumber (d :: ds) := by
    intro d ds hd
    obtain ⟨hquote, hbrace, hbracket, -⟩ := hbrackets (hd.imp_right And.left)
    rw [scanValue.eq_def]
    dsimp only
    rw [if_neg hquote, if_neg hbrace, if_neg hbracket, constants_none hd]
  have hdigitsText : intDigits n = c :: cs := hdigits
  by_cases hn : n < 0
  · have htext : t = '-' :: (c :: cs) := by
      rw [h, intText, if_pos hn, hdigitsText]
      rfl
    refine ⟨fun rest hrest => ?_, '-', c :: cs, htext, by decide, by decide, by decide⟩
    rw [htext]
    refine (hscan (.inr ⟨rfl, c, cs ++ rest, rfl, hc⟩)).trans ?_
    have hunsigned := scanUnsigned_digits true n hrest
    rw [hdigitsText] at hunsigned
    have habs : -(n.natAbs : ℤ) = n := by omega
    show scanUnsigned true (c :: cs ++ rest) = _
    rw [hunsigned, if_pos rfl, habs]
    unfold intResult
    rw [hdigitsText]
  · have htext : t = c :: cs := by
      rw [h, intText, if_neg hn, hdigitsText]
      rfl
    obtain ⟨-, -, -, hblank, hbracket, hbrace⟩ := hbrackets (.inl hc)
    refine ⟨fun rest hrest => ?_, c, cs, htext, hblank, hbracket, hbrace⟩
    rw [htext, List.cons_append, hscan (.inl hc)]
    have hunsigned := scanUnsigned_digits false n hrest
    rw [hdigitsText] at hunsigned
    have habs : (n.natAbs : ℤ) = n := by omega
    have hminus : c ≠ '-' := by
      rintro rfl
      cases hc
    have hnumber : scanNumber (c :: (cs ++ rest)) = scanUnsigned false (c :: cs ++ rest) := by
      unfold scanNumber
      split
      next heq => exact absurd (List.cons.inj heq).1 hminus
      next => rfl
    rw [hnumber, hunsigned, if_neg Bool.false_ne_true, habs]
    unfold intResult
    rw [hdigitsText]

/-! ### Brackets -/

theorem Items.head {P : α → List Char → Prop} {xs : List α} {r : List Char} (h : Items P xs r)
    (hP : ∀ x ∈ xs, ∀ t, P x t → ∃ c cs, t = c :: cs ∧ isBlank c = false ∧ c ≠ ']' ∧ c ≠ '\x7d') :
    ∃ c cs, r = c :: cs ∧ isBlank c = false ∧ c ≠ ']' ∧ c ≠ '\x7d' := by
  cases h with
  | last hx _ =>
    obtain ⟨c, cs, rfl, hc⟩ := hP _ List.mem_cons_self _ hx
    exact ⟨c, _, rfl, hc⟩
  | more hx _ _ _ =>
    obtain ⟨c, cs, rfl, hc⟩ := hP _ List.mem_cons_self _ hx
    exact ⟨c, _, rfl, hc⟩

theorem Items.length_le {P : α → List Char → Prop} {xs : List α} {r : List Char}
    (h : Items P xs r) : xs.length ≤ r.length + 1 := by
  induction h with
  | last _ _ => simp
  | more _ _ _ _ ih =>
    simp only [List.length_cons, List.length_append]
    omega

theorem scanItems_fail {item : List Char → Scan β} {close : Char} {cs : List Char} {f : Fault}
    (n : ℕ) (h : item cs = .error f) : scanItems item close (n + 1) cs = .error f := by
  rw [scanItems, h]

theorem scanItems_last {item : List Char → Scan β} {close : Char} {cs b rest : List Char} {x : β}
    (n : ℕ) (h : item cs = .ok (x, b ++ close :: rest)) (hb : Blank b)
    (hclose : isBlank close = false) : scanItems item close (n + 1) cs = .ok ([x], rest) := by
  rw [scanItems, h]
  dsimp only
  rw [skipBlanks_append hb, skipBlanks_cons hclose]
  dsimp only
  rw [if_pos rfl]

theorem scanItems_more {item : List Char → Scan β} {close : Char} {cs b rest : List Char} {x : β}
    (n : ℕ) (h : item cs = .ok (x, b ++ ',' :: rest)) (hb : Blank b) (hclose : ',' ≠ close) :
    scanItems item close (n + 1) cs =
      match scanItems item close n (skipBlanks rest) with
      | .error f => .error f
      | .ok (xs, rest) => .ok (x :: xs, rest) := by
  rw [scanItems, h]
  dsimp only
  rw [skipBlanks_append hb, skipBlanks_cons (by decide)]
  dsimp only
  exact (if_neg hclose).trans (if_pos rfl)

/-- **The scanner of items reads each in its turn.** -/
theorem scanItems_reads {item : List Char → Scan β} {close : Char} {P : α → List Char → Prop}
    {res : α → Except Fault β} {xs : List α} {r : List Char}
    (hclose : close = ']' ∨ close = '\x7d') (h : Items P xs r)
    (hreads : ∀ x ∈ xs, ∀ t, P x t → Reads item (res x) t) {n : ℕ} (hn : xs.length ≤ n)
    (rest : List Char) :
    scanItems item close n (r ++ close :: rest) = withRest (collect (xs.map res)) rest := by
  have hmark : isBlank close = false ∧ ',' ≠ close ∧ ∀ cs, Stops (close :: cs) := by
    rcases hclose with rfl | rfl
    · exact ⟨by decide, by decide, fun cs => stops_cons (by decide)⟩
    · exact ⟨by decide, by decide, fun cs => stops_cons (by decide)⟩
  obtain ⟨hblank, hcomma, hstop⟩ := hmark
  induction h generalizing n with
  | @last x t b hx hb =>
    obtain ⟨m, rfl⟩ : ∃ m, n = m + 1 := Nat.exists_eq_succ_of_ne_zero (by
      rw [List.length_singleton] at hn
      omega)
    have hscan := (hreads x List.mem_cons_self t hx).scan_eq (b ++ close :: rest)
      (stops_blank hb (hstop rest))
    rw [List.append_assoc, List.map_singleton]
    cases hres : res x with
    | error f =>
      rw [hres] at hscan
      exact scanItems_fail m hscan
    | ok y =>
      rw [hres] at hscan
      exact scanItems_last m hscan hb hblank
  | @more x xs t b a r hx hb ha hitems ih =>
    obtain ⟨m, rfl⟩ : ∃ m, n = m + 1 := Nat.exists_eq_succ_of_ne_zero (by
      rw [List.length_cons] at hn
      omega)
    have hothers : ∀ z ∈ xs, ∀ u, P z u → Reads item (res z) u :=
      fun z hz => hreads z (List.mem_cons_of_mem _ hz)
    have hscan := (hreads x List.mem_cons_self t hx).scan_eq
      (b ++ ',' :: (a ++ (r ++ close :: rest))) (stops_blank hb (stops_cons (by decide)))
    have htext : t ++ (b ++ ',' :: (a ++ r)) ++ close :: rest =
        t ++ (b ++ ',' :: (a ++ (r ++ close :: rest))) := by simp
    rw [htext, List.map_cons]
    cases hres : res x with
    | error f =>
      rw [hres] at hscan
      exact scanItems_fail m hscan
    | ok y =>
      rw [hres] at hscan
      obtain ⟨c, cs, hr, hc, -⟩ := hitems.head fun z hz u hu => (hothers z hz u hu).head
      have hskip : skipBlanks (a ++ (r ++ close :: rest)) = r ++ close :: rest := by
        rw [skipBlanks_append ha, hr]
        exact skipBlanks_cons hc
      rw [scanItems_more m hscan hb hcomma, hskip,
        ih hothers (by rw [List.length_cons] at hn; omega)]
      show _ = withRest ((collect (xs.map res)).map (y :: ·)) rest
      cases collect (xs.map res) with
      | error f => rfl
      | ok ys => rfl

/-- Between an opening bracket and its closing one. -/
theorem scanBracketed_items {item : List Char → Scan β} {close : Char}
    {P : α → List Char → Prop} {res : α → Except Fault β} {xs : List α} {a r : List Char}
    (hclose : close = ']' ∨ close = '\x7d') (ha : Blank a) (h : Items P xs r)
    (hreads : ∀ x ∈ xs, ∀ t, P x t → Reads item (res x) t) (rest : List Char) :
    scanBracketed item close (a ++ (r ++ close :: rest)) =
      withRest (collect (xs.map res)) rest := by
  obtain ⟨c, cs, hr, hc, hbracket, hbrace⟩ := h.head fun z hz u hu => (hreads z hz u hu).head
  have hne : c ≠ close := by
    rcases hclose with rfl | rfl
    · exact hbracket
    · exact hbrace
  have hlength := h.length_le
  unfold scanBracketed
  rw [skipBlanks_append ha, hr, List.cons_append, skipBlanks_cons hc]
  dsimp only
  rw [if_neg hne, ← List.cons_append, ← hr]
  refine scanItems_reads hclose h hreads ?_ rest
  rw [hr, List.length_cons] at hlength
  rw [List.length_append, List.length_cons]
  omega

theorem scanBracketed_empty {item : List Char → Scan β} {close : Char} {a : List Char}
    (ha : Blank a) (hclose : isBlank close = false) (rest : List Char) :
    scanBracketed item close (a ++ close :: rest) = .ok ([], rest) := by
  unfold scanBracketed
  rw [skipBlanks_append ha, skipBlanks_cons hclose]
  dsimp only
  rw [if_pos rfl]

theorem scanValue_object (value : List Char → Scan Value) (cs : List Char) :
    scanValue (some value) ('\x7b' :: cs) =
      mapValue .obj (scanBracketed (scanMember value) '\x7d' cs) := by
  rw [scanValue.eq_def]
  rfl

theorem scanValue_array (value : List Char → Scan Value) (cs : List Char) :
    scanValue (some value) ('[' :: cs) = mapValue .arr (scanBracketed value ']' cs) := by
  rw [scanValue.eq_def]
  rfl

theorem mapValue_withRest (f : α → Value) (r : Except Fault α) (rest : List Char) :
    mapValue f (withRest r rest) = withRest (r.map f) rest := by
  cases r with
  | error e => rfl
  | ok x => rfl

/-- **An array is read as its items.** -/
theorem reads_array {value : List Char → Scan Value} {P : α → List Char → Prop}
    {res : α → Except Fault Value} {xs : List α} {t : List Char} (h : ArrayText P xs t)
    (hreads : ∀ x ∈ xs, ∀ t, P x t → Reads value (res x) t) :
    Reads (scanValue (some value)) ((collect (xs.map res)).map .arr) t := by
  rcases h with ⟨rfl, a, ha, rfl⟩ | ⟨a, r, ha, hitems, rfl⟩
  · refine ⟨fun rest _ => ?_, '[', _, rfl, by decide, by decide, by decide⟩
    have htext : '[' :: (a ++ [']']) ++ rest = '[' :: (a ++ ']' :: rest) := by simp
    rw [htext, scanValue_array, scanBracketed_empty ha (by decide)]
    rfl
  · refine ⟨fun rest _ => ?_, '[', _, rfl, by decide, by decide, by decide⟩
    have htext : '[' :: (a ++ (r ++ [']'])) ++ rest = '[' :: (a ++ (r ++ ']' :: rest)) := by simp
    rw [htext, scanValue_array, scanBracketed_items (.inl rfl) ha hitems hreads, mapValue_withRest]

/-- After its key and the colon a member is its value. -/
theorem scanMember_colon {value : List Char → Scan Value} {cs b rest : List Char} {key : List ℕ}
    (h : scanString cs = .ok (key, b ++ ':' :: rest)) (hb : Blank b) :
    scanMember value ('"' :: cs) =
      match value (skipBlanks rest) with
      | .error f => .error f
      | .ok (v, rest) => .ok ((key, v), rest) := by
  unfold scanMember
  dsimp only
  rw [if_pos rfl, h]
  unfold scanKeyed
  dsimp only
  rw [skipBlanks_append hb, skipBlanks_cons (by decide)]
  dsimp only
  exact if_pos rfl

theorem reads_member {value : List Char → Scan Value} {P : α → List Char → Prop}
    {res : α → Except Fault Value} {m : String × α} {t : List Char} (h : MemberText P m t)
    (hreads : ∀ t, P m.2 t → Reads value (res m.2) t) :
    Reads (scanMember value) ((res m.2).map fun v => (codes m.1, v)) t := by
  obtain ⟨key, a, b, vt, hkey, ha, hb, hvalue, rfl⟩ := h
  obtain ⟨hscan, c, cs, hvt, hc, -⟩ := hreads vt hvalue
  refine ⟨fun rest hrest => ?_, ?_⟩
  · obtain ⟨body, hbody, hstring⟩ := scanString_text hkey (a ++ ':' :: (b ++ (vt ++ rest)))
    have htext : key ++ (a ++ ':' :: (b ++ vt)) ++ rest =
        '"' :: (body ++ (a ++ ':' :: (b ++ (vt ++ rest)))) := by
      rw [hbody]
      simp
    have hskip : skipBlanks (b ++ (vt ++ rest)) = vt ++ rest := by
      rw [skipBlanks_append hb, hvt]
      exact skipBlanks_cons hc
    rw [htext, scanMember_colon hstring ha, hskip, hscan rest hrest]
    cases res m.2 with
    | error f => rfl
    | ok v => rfl
  · obtain ⟨body, -, hbody⟩ := hkey
    exact ⟨'"', _, by rw [hbody]; rfl, by decide, by decide, by decide⟩

/-- **An object is read as its members**, whatever follows it. -/
theorem scan_object {value : List Char → Scan Value} {P : α → List Char → Prop}
    {res : α → Except Fault Value} {members : List (String × α)} {t : List Char}
    (h : ObjectText P members t)
    (hreads : ∀ m ∈ members, ∀ t, P m.2 t → Reads value (res m.2) t) (rest : List Char) :
    scanValue (some value) (t ++ rest) = withRest
      ((collect (members.map fun m => (res m.2).map fun v => (codes m.1, v))).map .obj) rest := by
  obtain ⟨a, r, ha, hitems, rfl⟩ := h
  have htext : '\x7b' :: (a ++ (r ++ ['\x7d'])) ++ rest =
      '\x7b' :: (a ++ (r ++ '\x7d' :: rest)) := by simp
  rw [htext, scanValue_object, scanBracketed_items (.inr rfl) ha hitems
    fun m hm t ht => reads_member ht (hreads m hm), mapValue_withRest]

theorem ObjectText.head {P : α → List Char → Prop} {members : List (String × α)} {t : List Char}
    (h : ObjectText P members t) :
    ∃ c cs, t = c :: cs ∧ isBlank c = false ∧ c ≠ ']' ∧ c ≠ '\x7d' := by
  obtain ⟨a, r, -, -, rfl⟩ := h
  exact ⟨'\x7b', _, rfl, by decide, by decide, by decide⟩

end TradeDesk.JsonText
