import TradeDesk.Desk.Options
import TradeDesk.Desk.Run
import TradeDesk.Loops.Tick
import Mathlib.Data.List.TakeWhile

/-!
# Two parsers of an option symbol

The account's clocks read an option symbol with `parse_osi`
(`tc/loops/clocks.py`), the desk with `osi_expiry` (`tc/desk/options.py`).
The first matches the whole symbol, its root in capitals and dots, and puts
the year in this century. The second looks for the last fifteen characters,
whatever is before them, and reads the year as `strptime` does: 69 is 1969.

On the symbols of the form (`OsiSymbol`) both see the same six digits, so
they agree exactly when these name no date, or the root is one the first
accepts and the year is before 69 (`parsers_agree_iff`). The root of an
adjusted contract has a digit, and is then no option to the clocks.
-/

namespace TradeDesk.Loops

open TradeDesk.Desk

/-! ## The form -/

/-- A letter, a digit or a dot. -/
def isOsiRoot (c : Char) : Bool := c.isAlpha || c.isDigit || c == '.'

/-- The parts of an option symbol. -/
structure OsiSymbol where
  root : List Char
  padding : ℕ
  yy : Fin 100
  mm : Fin 100
  dd : Fin 100
  kind : Char
  strike : List (Fin 10)
  root_length : 1 ≤ root.length ∧ root.length ≤ 6
  root_chars : ∀ c ∈ root, isOsiRoot c = true
  kind_eq : kind = 'C' ∨ kind = 'P'
  strike_length : strike.length = 8

/-- Both digits of a number below a hundred. -/
def twoDigits (n : Fin 100) : List ℕ := [n.val / 10, n.val % 10]

namespace OsiSymbol

variable (o : OsiSymbol)

def day : List ℕ := twoDigits o.yy ++ twoDigits o.mm ++ twoDigits o.dd

/-- The fifteen characters after the root. -/
def tail : List Char :=
  o.day.map Nat.digitChar ++ o.kind :: o.strike.map fun d => Nat.digitChar d.val

def chars : List Char := o.root ++ (List.replicate o.padding ' ' ++ o.tail)

def text : String := String.ofList o.chars

/-- The six digits name a day of a calendar year. -/
def NamesDate : Prop :=
  1 ≤ o.mm.val ∧ o.mm.val ≤ 12 ∧ 1 ≤ o.dd.val ∧ (o.dd.val : ℤ) ≤ monthLength (2000 + o.yy.val) o.mm.val

/-- A root the clocks' parser accepts: capitals and dots. -/
def isRoot (c : Char) : Bool := ('A' ≤ c && c ≤ 'Z') || c == '.'

end OsiSymbol

variable {o : OsiSymbol}

/-! ## Characters -/

theorem digitValue_digitChar {d : ℕ} (h : d < 10) : digitValue (Nat.digitChar d) = some d := by
  have hall : ∀ e ∈ List.range 10, digitValue (Nat.digitChar e) = some e := by decide
  exact hall d (List.mem_range.mpr h)

/-- A digit is no space, no letter and no dot, and has no case. -/
theorem digitChar_spec {d : ℕ} (h : d < 10) : isSpace (Nat.digitChar d) = false ∧
    OsiSymbol.isRoot (Nat.digitChar d) = false ∧ Nat.digitChar d ≠ ' ' ∧
    Nat.digitChar d ≠ '\n' ∧ (Nat.digitChar d).toUpper = Nat.digitChar d ∧
    (Nat.digitChar d).toNat < 128 := by
  have hall : ∀ e ∈ List.range 10, isSpace (Nat.digitChar e) = false ∧
      OsiSymbol.isRoot (Nat.digitChar e) = false ∧ Nat.digitChar e ≠ ' ' ∧
      Nat.digitChar e ≠ '\n' ∧ (Nat.digitChar e).toUpper = Nat.digitChar e ∧
      (Nat.digitChar e).toNat < 128 := by decide
  exact hall d (List.mem_range.mpr h)

/-- A character of a root is ASCII and no space. -/
theorem isOsiRoot_spec {c : Char} (h : isOsiRoot c = true) : c.toNat < 128 ∧ isSpace c = false := by
  have hsmall : c.toNat < 128 := by
    have hupper (h : c.isUpper = true) : c.val.toNat ≤ 90 := (of_decide_eq_true h).2
    have hlower (h : c.isLower = true) : c.val.toNat ≤ 122 :=
      of_decide_eq_true (Bool.and_eq_true_iff.mp h).2
    have hdigit (h : c.isDigit = true) : c.val.toNat ≤ 57 :=
      of_decide_eq_true (Bool.and_eq_true_iff.mp h).2
    unfold isOsiRoot at h
    rw [Bool.or_eq_true, Bool.or_eq_true, beq_iff_eq] at h
    rcases h with (h | h) | h
    · rcases Bool.or_eq_true_iff.mp h with h | h
      · exact lt_of_le_of_lt (hupper h) (by decide)
      · exact lt_of_le_of_lt (hlower h) (by decide)
    · exact lt_of_le_of_lt (hdigit h) (by decide)
    · rw [h]
      decide
  refine ⟨hsmall, ?_⟩
  have hall : ∀ n ∈ List.range 128, isOsiRoot (Char.ofNat n) = true →
      isSpace (Char.ofNat n) = false := by decide +kernel
  have hc := hall c.toNat (List.mem_range.mpr hsmall)
  rw [Char.ofNat_toNat] at hc
  exact hc h

theorem filterMap_digits : ∀ {ds : List ℕ}, (∀ d ∈ ds, d < 10) →
    (ds.map Nat.digitChar).filterMap digitValue = ds := by
  intro ds h
  induction ds with
  | nil => rfl
  | cons d ds ih =>
    rw [List.map_cons, List.filterMap_cons, digitValue_digitChar (h d List.mem_cons_self)]
    dsimp only
    rw [ih fun e he => h e (List.mem_cons_of_mem _ he)]

theorem stripChars_same {cs : List Char} {a z : Char} (hhead : cs.head? = some a)
    (hlast : cs.getLast? = some z) (ha : isSpace a = false) (hz : isSpace z = false) :
    stripChars cs = cs := by
  obtain ⟨rest, rfl⟩ := List.head?_eq_some_iff.mp hhead
  unfold stripChars
  rw [List.dropWhile_cons_of_neg (by simp [ha])]
  rw [List.getLast?_eq_head?_reverse] at hlast
  obtain ⟨back, hback⟩ := List.head?_eq_some_iff.mp hlast
  rw [hback, List.dropWhile_cons_of_neg (by simp [hz]), ← hback, List.reverse_reverse]

/-! ## The tail -/

theorem twoDigits_lt (n : Fin 100) : ∀ d ∈ twoDigits n, d < 10 := by
  intro d hd
  simp only [twoDigits, List.mem_cons, List.not_mem_nil, or_false] at hd
  omega

theorem day_lt : ∀ d ∈ o.day, d < 10 := by
  intro d hd
  simp only [OsiSymbol.day, List.mem_append] at hd
  rcases hd with (hd | hd) | hd
  · exact twoDigits_lt _ d hd
  · exact twoDigits_lt _ d hd
  · exact twoDigits_lt _ d hd

theorem tail_length : o.tail.length = 15 := by
  simp [OsiSymbol.tail, OsiSymbol.day, twoDigits, o.strike_length]

theorem tail_day : (o.tail.take 6).filterMap digitValue = o.day := by
  have hsix : o.tail.take 6 = o.day.map Nat.digitChar := by
    unfold OsiSymbol.tail
    exact List.take_left' (by simp [OsiSymbol.day, twoDigits])
  rw [hsix, filterMap_digits day_lt]

theorem tail_kind : o.tail[6]? = some o.kind := by
  unfold OsiSymbol.tail
  rw [List.getElem?_append_right (by simp [OsiSymbol.day, twoDigits])]
  simp [OsiSymbol.day, twoDigits]

theorem tail_strike : (o.tail.drop 7).filterMap digitValue = o.strike.map (·.val) := by
  have hseven : o.tail.drop 7 = (o.strike.map (·.val)).map Nat.digitChar := by
    unfold OsiSymbol.tail
    rw [List.drop_append]
    simp [OsiSymbol.day, twoDigits]
  rw [hseven, filterMap_digits]
  intro d hd
  obtain ⟨e, _, rfl⟩ := List.mem_map.mp hd
  exact e.isLt

theorem tail_head : ∃ d < 10, o.tail.head? = some (Nat.digitChar d) := by
  refine ⟨o.yy.val / 10, by omega, ?_⟩
  simp [OsiSymbol.tail, OsiSymbol.day, twoDigits]

theorem tail_last : ∃ d < 10, o.tail.getLast? = some (Nat.digitChar d) := by
  have hne : o.strike ≠ [] := by
    intro hnil
    have hlen := o.strike_length
    rw [hnil] at hlen
    cases hlen
  refine ⟨(o.strike.getLast hne).val, (o.strike.getLast hne).isLt, ?_⟩
  unfold OsiSymbol.tail
  rw [List.getLast?_append_cons, List.getLast?_cons, List.getLast?_map,
    List.getLast?_eq_getLast_of_ne_nil hne]
  rfl

/-! ## The date -/

/-- A leap day is one of either century: 1969 to 1999 and 2069 to 2099 have
the same months. -/
theorem monthLength_century {y m : ℤ} (h0 : 69 ≤ y) (h1 : y < 100) :
    monthLength (1900 + y) m = monthLength (2000 + y) m := by
  have hleap : isLeap (1900 + y) = isLeap (2000 + y) := by
    have h4 : (1900 + y) % 4 = (2000 + y) % 4 := by omega
    have h100 : (1900 + y) % 100 = (2000 + y) % 100 := by omega
    have hcentury : (2000 + y) % 100 ≠ 0 := by omega
    have hne : ((2000 + y) % 100 != 0) = true := bne_iff_ne.mpr hcentury
    unfold isLeap
    rw [h4, h100, hne, Bool.true_or, Bool.true_or]
  unfold monthLength
  rw [hleap]

theorem twoDigits_value (n : Fin 100) :
    (10 * ((n.val / 10 : ℕ) : ℤ) + ((n.val % 10 : ℕ) : ℤ)) = n.val := by
  omega

theorem thisCentury_day : thisCentury o.day =
    if 1 ≤ (o.mm.val : ℤ) ∧ (o.mm.val : ℤ) ≤ 12 ∧ 1 ≤ (o.dd.val : ℤ) ∧
      (o.dd.val : ℤ) ≤ monthLength (2000 + o.yy.val) o.mm.val then
      some (dayNumber (2000 + o.yy.val) o.mm.val o.dd.val) else none := by
  rw [← twoDigits_value o.yy, ← twoDigits_value o.mm, ← twoDigits_value o.dd]
  rfl

theorem expiryOf_day : expiryOf o.day =
    if 1 ≤ (o.mm.val : ℤ) ∧ (o.mm.val : ℤ) ≤ 12 ∧ 1 ≤ (o.dd.val : ℤ) ∧
      (o.dd.val : ℤ) ≤ monthLength (2000 + o.yy.val) o.mm.val then
      some (dayNumber (if (o.yy.val : ℤ) ≤ 68 then 2000 + o.yy.val else 1900 + o.yy.val)
        o.mm.val o.dd.val) else none := by
  have hread : expiryOf o.day =
      if 1 ≤ (o.mm.val : ℤ) ∧ (o.mm.val : ℤ) ≤ 12 ∧ 1 ≤ (o.dd.val : ℤ) ∧ (o.dd.val : ℤ) ≤
        monthLength (if (o.yy.val : ℤ) ≤ 68 then 2000 + o.yy.val else 1900 + o.yy.val) o.mm.val then
        some (dayNumber (if (o.yy.val : ℤ) ≤ 68 then 2000 + o.yy.val else 1900 + o.yy.val)
          o.mm.val o.dd.val) else none := by
    rw [← twoDigits_value o.yy, ← twoDigits_value o.mm, ← twoDigits_value o.dd]
    rfl
  rw [hread]
  by_cases hy : (o.yy.val : ℤ) ≤ 68
  · rw [if_pos hy]
  · rw [if_neg hy, monthLength_century (by omega) (by omega)]

theorem namesDate_iff : o.NamesDate ↔ 1 ≤ (o.mm.val : ℤ) ∧ (o.mm.val : ℤ) ≤ 12 ∧
    1 ≤ (o.dd.val : ℤ) ∧ (o.dd.val : ℤ) ≤ monthLength (2000 + o.yy.val) o.mm.val := by
  unfold OsiSymbol.NamesDate
  omega

/-- Different years of the same day are different days. -/
theorem dayNumber_century {y m d : ℤ} :
    (dayNumber (2000 + y) m d : ℤ) ≠ (dayNumber (1900 + y) m d : ℤ) := by
  unfold dayNumber Date
  dsimp only
  split <;> omega

/-! ## The clocks' parser -/

theorem root_cons (o : OsiSymbol) : ∃ c rest, o.root = c :: rest :=
  List.exists_cons_of_ne_nil fun hnil => by
    have hlen := o.root_length.1
    rw [hnil] at hlen
    cases hlen

theorem stripChars_text : stripChars o.chars = o.chars := by
  obtain ⟨c, rest, hroot⟩ := root_cons o
  obtain ⟨d, hd, hlast⟩ := tail_last (o := o)
  have hc : isOsiRoot c = true := o.root_chars c (hroot ▸ List.mem_cons_self)
  have hhead : o.chars.head? = some c := by
    unfold OsiSymbol.chars
    rw [hroot]
    rfl
  have hend : o.chars.getLast? = some (Nat.digitChar d) := by
    unfold OsiSymbol.chars
    rw [List.getLast?_append, List.getLast?_append, hlast]
    rfl
  exact stripChars_same hhead hend (isOsiRoot_spec hc).2 (digitChar_spec hd).1

/-- What stands after the root: padding, and then a digit. -/
theorem rest_head : ∃ c, (List.replicate o.padding ' ' ++ o.tail).head? = some c ∧
    OsiSymbol.isRoot c = false := by
  obtain ⟨d, hd, hhead⟩ := tail_head (o := o)
  cases hp : o.padding with
  | zero => exact ⟨_, by simpa using hhead, (digitChar_spec hd).2.1⟩
  | succ n => exact ⟨' ', by rw [List.replicate_succ]; rfl, by decide⟩

theorem dropWhile_padding : (List.replicate o.padding ' ' ++ o.tail).dropWhile isSpace = o.tail := by
  obtain ⟨d, hd, hhead⟩ := tail_head (o := o)
  obtain ⟨rest, hrest⟩ := List.head?_eq_some_iff.mp hhead
  have hspaces : ∀ c ∈ List.replicate o.padding ' ', isSpace c = true := by
    intro c hc
    rw [(List.mem_replicate.mp hc).2]
    decide
  rw [List.dropWhile_append_of_pos hspaces, hrest,
    List.dropWhile_cons_of_neg (by simp [(digitChar_spec hd).1])]

/-- The root as the clocks' parser reads it. -/
private theorem takeWhile_root (hroot : o.root.all OsiSymbol.isRoot = true) :
    o.chars.takeWhile OsiSymbol.isRoot = o.root ∧
      o.chars.dropWhile OsiSymbol.isRoot = List.replicate o.padding ' ' ++ o.tail := by
  obtain ⟨c, hhead, hc⟩ := rest_head (o := o)
  obtain ⟨rest, hrest⟩ := List.head?_eq_some_iff.mp hhead
  have hall : ∀ c ∈ o.root, OsiSymbol.isRoot c = true := List.all_eq_true.mp hroot
  unfold OsiSymbol.chars
  rw [List.takeWhile_append_of_pos hall, List.dropWhile_append_of_pos hall, hrest,
    List.takeWhile_cons_of_neg (by simp [hc]), List.dropWhile_cons_of_neg (by simp [hc])]
  exact ⟨List.append_nil _, rfl⟩

theorem parseOsi_eq (symbol : String) : parseOsi symbol =
    (let cs := stripChars symbol.toList
    let root := cs.takeWhile OsiSymbol.isRoot
    let tail := (cs.dropWhile OsiSymbol.isRoot).dropWhile isSpace
    let day := (tail.take 6).filterMap digitValue
    let strike := (tail.drop 7).filterMap digitValue
    match thisCentury day, tail[6]? with
    | some expiry, some kind =>
      if 1 ≤ root.length ∧ root.length ≤ 6 ∧ tail.length = 15 ∧ strike.length = 8 ∧
          (kind = 'C' ∨ kind = 'P') then
        some ⟨String.ofList root, expiry, kind, (ofDigits strike : ℚ) / 1000⟩
      else none
    | _, _ => none) := rfl

theorem toList_text (o : OsiSymbol) : o.text.toList = o.chars := String.toList_ofList

theorem parseOsi_root (hroot : o.root.all OsiSymbol.isRoot = true) :
    (parseOsi o.text).map (·.expiry) = thisCentury o.day := by
  obtain ⟨htake, hdrop⟩ := takeWhile_root hroot
  rw [parseOsi_eq, toList_text, stripChars_text]
  dsimp only
  rw [htake, hdrop, dropWhile_padding, tail_day, tail_kind, tail_strike, tail_length]
  cases hday : thisCentury o.day with
  | none => rfl
  | some expiry =>
    dsimp only
    rw [if_pos ⟨o.root_length.1, o.root_length.2, rfl, by rw [List.length_map, o.strike_length],
      o.kind_eq⟩]
    rfl

/-- A root with another character is not read to its end, and what is left
is too long. -/
theorem parseOsi_otherRoot (hroot : ¬ o.root.all OsiSymbol.isRoot = true) :
    parseOsi o.text = none := by
  rw [parseOsi_eq, toList_text, stripChars_text]
  dsimp only
  have hlong : 16 ≤ ((o.chars.dropWhile OsiSymbol.isRoot).dropWhile isSpace).length := by
    have hleft : o.root.dropWhile OsiSymbol.isRoot ≠ [] := by
      rw [Ne, List.dropWhile_eq_nil_iff]
      exact fun hall => hroot (List.all_eq_true.mpr hall)
    obtain ⟨c, rest, hrest⟩ := List.exists_cons_of_ne_nil hleft
    have hc : c ∈ o.root :=
      (List.dropWhile_suffix OsiSymbol.isRoot).subset (hrest ▸ List.mem_cons_self)
    have hspace : isSpace c = false := (isOsiRoot_spec (o.root_chars c hc)).2
    unfold OsiSymbol.chars
    rw [List.dropWhile_append, hrest, List.isEmpty_cons, if_neg Bool.false_ne_true,
      List.cons_append, List.dropWhile_cons_of_neg (by simp [hspace])]
    simp [tail_length]
    omega
  cases hday : thisCentury _ with
  | none => rfl
  | some expiry =>
    cases hkind : ((o.chars.dropWhile OsiSymbol.isRoot).dropWhile isSpace)[6]? with
    | none => rfl
    | some kind => exact if_neg fun hcond => by omega

/-! ## The desk's parser -/

/-- `str.upper` on ASCII text. -/
def AsciiUpper (upper : String → String) : Prop :=
  ∀ s : String, (∀ c ∈ s.toList, c.toNat < 128) → upper s = String.ofList (s.toList.map Char.toUpper)

theorem kind_spec : o.kind ≠ ' ' ∧ o.kind.toUpper = o.kind ∧ o.kind.toNat < 128 := by
  rcases o.kind_eq with h | h
  · rw [h]
    decide
  · rw [h]
    decide

/-- The tail is digits and the kind: no space, and the same in capitals. -/
theorem tail_chars : ∀ c ∈ o.tail, c ≠ ' ' ∧ c.toUpper = c ∧ c.toNat < 128 := by
  intro c hc
  unfold OsiSymbol.tail at hc
  rcases List.mem_append.mp hc with hc | hc
  · obtain ⟨d, hd, rfl⟩ := List.mem_map.mp hc
    obtain ⟨_, _, hne, _, hup, hascii⟩ := digitChar_spec (day_lt d hd)
    exact ⟨hne, hup, hascii⟩
  · rcases List.mem_cons.mp hc with rfl | hc
    · exact kind_spec
    · obtain ⟨d, _, rfl⟩ := List.mem_map.mp hc
      obtain ⟨_, _, hne, _, hup, hascii⟩ := digitChar_spec d.isLt
      exact ⟨hne, hup, hascii⟩

theorem withoutSpaces_text : withoutSpaces o.text = String.ofList (o.root ++ o.tail) := by
  have hroot : o.root.filter (· != ' ') = o.root := by
    rw [List.filter_eq_self]
    intro c hc
    have hspace := (isOsiRoot_spec (o.root_chars c hc)).2
    rw [bne_iff_ne]
    rintro rfl
    revert hspace
    decide
  have htail : o.tail.filter (· != ' ') = o.tail := by
    rw [List.filter_eq_self]
    exact fun c hc => bne_iff_ne.mpr (tail_chars c hc).1
  have hpad : (List.replicate o.padding ' ').filter (· != ' ') = [] := by
    rw [List.filter_eq_nil_iff]
    intro c hc
    rw [(List.mem_replicate.mp hc).2]
    decide
  unfold withoutSpaces
  rw [toList_text]
  unfold OsiSymbol.chars
  rw [List.filter_append, List.filter_append, hroot, hpad, htail, List.nil_append]

theorem osiFields_tail (root : List Char) : osiFields (root ++ o.tail) = some o.day := by
  obtain ⟨d, hd, hlast⟩ := tail_last (o := o)
  have hend : (root ++ o.tail).getLast? ≠ some '\n' := by
    rw [List.getLast?_append, hlast]
    exact fun heq => (digitChar_spec hd).2.2.2.1 (Option.some.inj heq)
  have hdrop : (root ++ o.tail).drop ((root ++ o.tail).length - 15) = o.tail := by
    rw [List.length_append, tail_length, Nat.add_sub_cancel]
    exact List.drop_left
  have hkind : some o.kind = some 'C' ∨ some o.kind = some 'P' := by
    rcases o.kind_eq with h | h
    · exact .inl (congrArg some h)
    · exact .inr (congrArg some h)
  unfold osiFields
  rw [if_neg hend]
  dsimp only
  rw [hdrop, tail_day, tail_kind, tail_strike, tail_length]
  exact if_pos ⟨rfl, rfl, by rw [List.length_map, o.strike_length], hkind⟩

theorem osiExpiry_text {cfg : Settings} (hupper : AsciiUpper cfg.upper) :
    osiExpiry cfg o.text = match expiryOf o.day with
      | some d => .ok d
      | none => .error (.notOsi o.text) := by
  have hascii : ∀ c ∈ (String.ofList (o.root ++ o.tail)).toList, c.toNat < 128 := by
    rw [String.toList_ofList]
    intro c hc
    rcases List.mem_append.mp hc with hc | hc
    · exact (isOsiRoot_spec (o.root_chars c hc)).1
    · exact (tail_chars c hc).2.2
  have htail : o.tail.map Char.toUpper = o.tail :=
    (List.map_congr_left fun c hc => (tail_chars c hc).2.1).trans (List.map_id _)
  unfold osiExpiry
  rw [withoutSpaces_text, hupper _ hascii, String.toList_ofList, String.toList_ofList,
    List.map_append, htail, osiFields_tail]
  rfl

/-! ## Agreement -/

/-- The two parsers agree on a symbol, and so the tick and the desk's watch
close a position in it on the same days. -/
structure ParsersAgree (cfg : Settings) (symbol : String) : Prop where
  accepts : (parseOsi symbol).isSome = true ↔ ∃ d, osiExpiry cfg symbol = .ok d
  expiry : ∀ ref d, parseOsi symbol = some ref → osiExpiry cfg symbol = .ok d → ref.expiry = d
  closes : ∀ (p : Position) (closeDte : ℤ) (today : Date), p.symbol = symbol →
    ((∃ a ∈ optionClock p closeDte today, a.kind = .optionClose) ↔
      ∃ d, osiExpiry cfg symbol = .ok d ∧ d - today ≤ closeDte)

theorem optionClock_close {p : Position} {closeDte : ℤ} {today : Date} :
    (∃ a ∈ optionClock p closeDte today, a.kind = .optionClose) ↔
      ∃ ref, parseOsi p.symbol = some ref ∧ ref.expiry - today ≤ closeDte := by
  unfold optionClock
  dsimp only
  cases parseOsi p.symbol with
  | none => simp
  | some ref =>
    dsimp only
    by_cases hclose : ref.expiry - today ≤ closeDte
    · rw [if_pos hclose]
      exact iff_of_true ⟨_, List.mem_singleton_self _, rfl⟩ ⟨ref, rfl, hclose⟩
    · have hlate : ¬ ∃ ref', some ref = some ref' ∧ ref'.expiry - today ≤ closeDte := by
        rintro ⟨ref', heq, hle⟩
        cases heq
        exact hclose hle
      refine iff_of_false ?_ hlate
      rw [if_neg hclose]
      rintro ⟨a, ha, hkind⟩
      split at ha
      · rw [List.mem_singleton.mp ha] at hkind
        cases hkind
      · cases ha

theorem parsersAgree_of_expiry {cfg : Settings} {symbol : String}
    (h : ∀ d, osiExpiry cfg symbol = .ok d ↔ ∃ ref, parseOsi symbol = some ref ∧ ref.expiry = d) :
    ParsersAgree cfg symbol := by
  refine ⟨?_, ?_, ?_⟩
  · rw [Option.isSome_iff_exists]
    constructor
    · rintro ⟨ref, href⟩
      exact ⟨ref.expiry, (h _).mpr ⟨ref, href, rfl⟩⟩
    · rintro ⟨d, hd⟩
      obtain ⟨ref, href, _⟩ := (h d).mp hd
      exact ⟨ref, href⟩
  · intro ref d href hd
    obtain ⟨ref', href', hexp⟩ := (h d).mp hd
    rw [href] at href'
    cases href'
    exact hexp
  · intro p closeDte today hp
    rw [optionClock_close, hp]
    constructor
    · rintro ⟨ref, href, hclose⟩
      exact ⟨ref.expiry, (h _).mpr ⟨ref, href, rfl⟩, hclose⟩
    · rintro ⟨d, hd, hclose⟩
      obtain ⟨ref, href, rfl⟩ := (h d).mp hd
      exact ⟨ref, href, hclose⟩

/-- **The parsers agree exactly when the digits name no date, or the root is
capitals and dots and the year is before 69.** -/
theorem parsers_agree_iff {cfg : Settings} (hupper : AsciiUpper cfg.upper) (o : OsiSymbol) :
    ParsersAgree cfg o.text ↔
      ¬ o.NamesDate ∨ (o.root.all OsiSymbol.isRoot = true ∧ o.yy.val ≤ 68) := by
  have hdesk := osiExpiry_text (o := o) hupper
  rw [expiryOf_day] at hdesk
  by_cases hdate : o.NamesDate
  · rw [if_pos (namesDate_iff.mp hdate)] at hdesk
    dsimp only at hdesk
    by_cases hroot : o.root.all OsiSymbol.isRoot = true
    · have hclocks := parseOsi_root hroot
      rw [thisCentury_day, if_pos (namesDate_iff.mp hdate)] at hclocks
      obtain ⟨ref, href, hexp⟩ := Option.map_eq_some_iff.mp hclocks
      constructor
      · intro h
        have hsame := h.expiry ref _ href hdesk
        refine .inr ⟨hroot, ?_⟩
        by_contra hyear
        rw [if_neg (by omega)] at hsame
        exact dayNumber_century (hexp.symm.trans hsame)
      · rintro (hnot | ⟨_, hyear⟩)
        · exact absurd hdate hnot
        · rw [if_pos (by omega)] at hdesk
          refine parsersAgree_of_expiry fun d => ?_
          rw [hdesk]
          constructor
          · intro heq
            cases heq
            exact ⟨ref, href, hexp⟩
          · rintro ⟨ref', href', rfl⟩
            rw [href] at href'
            cases href'
            rw [hexp]
    · have hclocks := parseOsi_otherRoot hroot
      constructor
      · intro h
        have hsome := h.accepts.mpr ⟨_, hdesk⟩
        rw [hclocks] at hsome
        cases hsome
      · rintro (hnot | ⟨hall, _⟩)
        · exact absurd hdate hnot
        · exact absurd hall hroot
  · rw [if_neg fun hall => hdate (namesDate_iff.mpr hall)] at hdesk
    dsimp only at hdesk
    have hclocks : parseOsi o.text = none := by
      by_cases hroot : o.root.all OsiSymbol.isRoot = true
      · have hmap := parseOsi_root hroot
        rw [thisCentury_day, if_neg fun hall => hdate (namesDate_iff.mpr hall)] at hmap
        exact Option.map_eq_none_iff.mp hmap
      · exact parseOsi_otherRoot hroot
    refine iff_of_true (parsersAgree_of_expiry fun d => ?_) (.inl hdate)
    rw [hdesk, hclocks]
    simp

/-- The desk's settings with the case mapping of ASCII text. -/
def asciiSettings : Settings :=
  { deskSettings with upper := fun s => String.ofList (s.toList.map Char.toUpper) }

/-- The November 2026 calls of a symbol, at fifty. -/
def novemberCall (root : List Char) (h : 1 ≤ root.length ∧ root.length ≤ 6)
    (hroot : root.all isOsiRoot = true) : OsiSymbol :=
  ⟨root, 1, 26, 11, 20, 'C', [0, 0, 0, 5, 0, 0, 0, 0], h, List.all_eq_true.mp hroot, .inl rfl, rfl⟩

theorem parsers_agree_plain : ParsersAgree asciiSettings
    (novemberCall ['A', 'M', 'H'] (by decide) (by decide)).text := by
  refine (parsers_agree_iff (fun _ _ => rfl) _).mpr (.inr ⟨by decide, by decide⟩)

/-- The contract of an adjusted symbol is an option to the desk, and no
option to the clocks. -/
theorem parsers_disagree_adjusted : ¬ ∀ (cfg : Settings) (o : OsiSymbol), AsciiUpper cfg.upper →
    ParsersAgree cfg o.text := by
  intro hall
  have hagree := hall asciiSettings (novemberCall ['A', 'M', 'H', '1'] (by decide) (by decide))
    fun _ _ => rfl
  have hexpiry : osiExpiry asciiSettings
      (novemberCall ['A', 'M', 'H', '1'] (by decide) (by decide)).text =
        .ok (dayNumber 2026 11 20) := by decide +kernel
  have hsome := hagree.accepts.mpr ⟨_, hexpiry⟩
  revert hsome
  decide +kernel

end TradeDesk.Loops
