import TradeDesk.RuleFile.Flat
import TradeDesk.RuleFile.Reports

/-!
# One value, two readers

The shell keeps a value as it is written, and whoever reads it there reads a
decimal number; the engine's value is the `Decimal` of what PyYAML made of
it. They are one number just if the value is written as both read it
(`sameNumber_iff`): without bars, not as an integer to another base than
ten (an octal one below eight is the same number), and with no more digits
than a double shows.
-/

namespace TradeDesk.RuleFile

open TradeDesk.Loops (digitValue_digitChar digitChar_spec digitChar_plain digitChar_toNat
  isSpecial_digit ofDigits_snoc parseDecimal_plain parseUnsigned_whole signOf)

/-- A value of the shell as a decimal number, in which bars have no place. -/
def shellNumber (val : String) : Option ℚ :=
  if val.toList.contains '_' then none
  else match parseDecimal val with
    | .finite q => some q
    | _ => none

/-- A value that is written as both read it. -/
def SameNumber (val : List Char) : Prop :=
  '_' ∉ val ∧ match formOf val with
    | .float => ∃ q, parseDecimal (String.ofList val) = .finite q ∧ shownFloat q = .finite q
    | .int .decimal _ => True
    | .int .octal ds => baseValue 8 ds < 8
    | .date | .text => ∃ q, parseDecimal (String.ofList val) = .finite q
    | _ => False

theorem shellNumber_eq_some {val : List Char} {q : ℚ} :
    shellNumber (String.ofList val) = some q ↔
      '_' ∉ val ∧ parseDecimal (String.ofList val) = .finite q := by
  unfold shellNumber
  rw [String.toList_ofList]
  by_cases hbar : '_' ∈ val
  · rw [if_pos (List.contains_iff_mem.mpr hbar)]
    exact iff_of_false (fun h => by cases h) fun h => h.1 hbar
  · rw [if_neg (mt List.contains_iff_mem.mp hbar), and_iff_right hbar]
    cases parseDecimal (String.ofList val) <;> simp

/-! ## Digits -/

/-- Digits to a base. -/
def readIn (b : ℕ) (ds : List ℕ) : ℕ := ds.foldl (fun n d => b * n + d) 0

theorem readIn_snoc (b : ℕ) (ds : List ℕ) (d : ℕ) :
    readIn b (ds ++ [d]) = b * readIn b ds + d := by
  unfold readIn
  rw [List.foldl_append]
  rfl

theorem readIn_le (ds : List ℕ) : readIn 8 ds ≤ readIn 10 ds := by
  induction ds using List.reverseRecOn with
  | nil => exact le_rfl
  | append_singleton ds d ih =>
    rw [readIn_snoc, readIn_snoc]
    omega

/-- **Octal digits are the same number to base ten** only if it has no more
than one. -/
theorem readIn_eq_iff {ds : List ℕ} (h : ∀ d ∈ ds, d < 8) :
    readIn 8 ds = readIn 10 ds ↔ readIn 8 ds < 8 := by
  induction ds using List.reverseRecOn with
  | nil => exact iff_of_true rfl (by decide)
  | append_singleton ds d ih =>
    have hd : d < 8 := h d (List.mem_append_right _ List.mem_cons_self)
    have hrest := ih fun e he => h e (List.mem_append_left _ he)
    have hle := readIn_le ds
    rw [readIn_snoc, readIn_snoc]
    constructor
    · intro heq
      omega
    · intro hlt
      have hzero : readIn 8 ds = 0 := by omega
      rw [hzero] at hrest ⊢
      rw [← hrest.mpr (by decide)]

theorem exists_digits {cs : List Char} (h : ∀ c ∈ cs, isAsciiDigit c = true) :
    ∃ ds : List ℕ, cs = ds.map Nat.digitChar ∧ ∀ d ∈ ds, d < 10 := by
  induction cs with
  | nil => exact ⟨[], rfl, fun d hd => by cases hd⟩
  | cons c cs ih =>
    obtain ⟨d, hd, hc⟩ := digit_of_ascii (h c List.mem_cons_self)
    obtain ⟨ds, hcs, hds⟩ := ih fun x hx => h x (List.mem_cons_of_mem c hx)
    refine ⟨d :: ds, ?_, List.forall_mem_cons.mpr ⟨hd, hds⟩⟩
    rw [List.map_cons, ← hc, ← hcs]

private theorem digitOf_digitChar {d : ℕ} (h : d < 10) : digitOf (Nat.digitChar d) = d := by
  have hall : ∀ e ∈ List.range 10, digitOf (Nat.digitChar e) = e := by decide
  exact hall d (List.mem_range.mpr h)

theorem baseValue_digits {b : ℕ} {ds : List ℕ} (h : ∀ d ∈ ds, d < 10) :
    baseValue b (ds.map Nat.digitChar) = readIn b ds := by
  have hfilter : (ds.map Nat.digitChar).filter (· != '_') = ds.map Nat.digitChar := by
    refine List.filter_eq_self.mpr fun c hc => ?_
    obtain ⟨d, hd, rfl⟩ := List.mem_map.mp hc
    exact bne_iff_ne.mpr (digitChar_plain (h d hd)).2.2.2.2.2.2
  unfold baseValue readIn
  rw [hfilter, List.foldl_map]
  refine List.foldl_ext _ _ _ fun n d hd => ?_
  rw [digitOf_digitChar (h d hd)]

/-! ## Integers -/

theorem formOf_int {val ds : List Char} {base : Radix} (h : formOf val = .int base ds) :
    intForm (signOf val).2 = some (base, ds) := by
  unfold formOf at h
  dsimp only at h
  split at h
  next => cases h
  split at h
  next => cases h
  split at h
  next => cases h
  split at h
  next => cases h
  split at h
  next => cases h
  split at h
  next => cases h
  split at h
  next heq =>
    cases h
    exact heq
  next =>
    split at h
    next => cases h
    next => cases h

/-- What is written of an integer in each notation. -/
theorem intForm_digits {u ds : List Char} {base : Radix} (h : intForm u = some (base, ds)) :
    match base with
    | .binary => u = '0' :: 'b' :: ds
    | .hex => u = '0' :: 'x' :: ds
    | .octal => u = '0' :: ds ∧ ∀ c ∈ ds, ('0' ≤ c ∧ c ≤ '7') ∨ c = '_'
    | .decimal => u = ds ∧ ds ≠ [] ∧ ∀ c ∈ ds, isDigitOrBar c = true := by
  unfold intForm at h
  split at h
  next =>
    split at h
    next => cases h; rfl
    next => cases h
  next =>
    split at h
    next => cases h; rfl
    next => cases h
  next =>
    split at h
    next hall =>
      cases h
      refine ⟨rfl, fun c hc => ?_⟩
      simpa using List.all_eq_true.mp hall c hc
    next => cases h
  next d ds' _ _ _ =>
    split at h
    next hall =>
      cases h
      obtain ⟨hd, hds⟩ := Bool.and_eq_true_iff.mp hall
      refine ⟨rfl, List.cons_ne_nil d ds', List.forall_mem_cons.mpr ⟨?_, List.all_eq_true.mp hds⟩⟩
      unfold isDigitOrBar
      rw [hd]
      rfl
    next => cases h
  next => cases h

theorem signOf_subset (val : List Char) : (signOf val).2 ⊆ val := by
  unfold signOf
  split
  next => exact List.subset_cons_self _ _
  next => exact List.subset_cons_self _ _
  next => exact List.Subset.refl _

section

variable {val : List Char}

/-- A value of digits is read as the number they are. -/
theorem parseDecimal_digits {ds : List ℕ} (hplain : ∀ c ∈ val, isSpace c = false ∧ c ≠ '_')
    (hval : (signOf val).2 = ds.map Nat.digitChar) (hne : ds ≠ []) (hds : ∀ d ∈ ds, d < 10) :
    parseDecimal (String.ofList val) =
      .finite ((if (signOf val).1 then -(readIn 10 ds : ℤ) else readIn 10 ds : ℤ) : ℤ) := by
  obtain ⟨d, ds', rfl⟩ := List.exists_cons_of_ne_nil hne
  rw [parseDecimal_plain hplain, hval, parseUnsigned_whole hne hds, List.map_cons,
    isSpecial_digit (hds d List.mem_cons_self)]
  have hread : (ofDigits (d :: ds') : ℚ) = ((readIn 10 (d :: ds') : ℤ) : ℚ) := rfl
  simp only [Bool.false_eq_true, if_false, hread]
  split
  next => rw [Int.cast_neg]
  next => rfl

/-- A letter behind the first digit is no decimal number. -/
theorem parseDecimal_letter {c : Char} {ds : List Char}
    (hplain : ∀ c ∈ val, isSpace c = false ∧ c ≠ '_') (hval : (signOf val).2 = '0' :: c :: ds)
    (hc : digitValue c = none) (hother : c ≠ '.' ∧ c ≠ 'e' ∧ c ≠ 'E') :
    parseDecimal (String.ofList val) = .invalid := by
  have htake : takeDigits ('0' :: c :: ds) = ([0], c :: ds) := by
    have hzero : digitValue '0' = some 0 := by decide
    unfold takeDigits
    rw [hzero]
    unfold takeDigits
    rw [hc]
  have hnone : parseUnsigned ('0' :: c :: ds) = none := by
    unfold parseUnsigned
    rw [htake]
    dsimp only
    split
    next heq => exact absurd (List.cons.inj heq).1 hother.1
    next =>
      have hexp : parseExponent (c :: ds) = none := if_neg (not_or.mpr hother.2)
      show (parseExponent (c :: ds)).map _ = none
      rw [hexp]
      rfl
  have hspecial := @isSpecial_digit 0 (c :: ds) (by decide)
  have hdigit : Nat.digitChar 0 = '0' := rfl
  rw [hdigit] at hspecial
  rw [parseDecimal_plain hplain, hval, hnone, hspecial]
  rfl

/-! ## The two readings -/

theorem plain_of_value (hval : IsValue val) (hbar : '_' ∉ val) :
    ∀ c ∈ val, isSpace c = false ∧ c ≠ '_' := by
  intro c hc
  refine ⟨?_, ?_⟩
  · by_contra hspace
    have hyes : isSpace c = true := by simpa using hspace
    have hno := of_codes (P := fun c => isValueChar c = false) hyes (by decide)
    rw [hval.2 c hc] at hno
    cases hno
  · rintro rfl
    exact hbar hc

variable {texts : Texts} {sec : String} {key : YamlKey} {d : Decimal}

private theorem not_ok_of_refused {x y : Except String String} {f : String → String → String} :
    (do let k ← x; let v ← y; (.error (f k v) : Except String Decimal)) ≠ .ok d := by
  intro h
  cases x with
  | error e => cases h
  | ok k =>
    cases y with
    | error e => cases h
    | ok v => cases h

theorem decimalOf_ok {value : Yaml} {text : String}
    (h : decimalOf texts sec key value text = .ok d) : Decimal.ofText text = some d := by
  unfold decimalOf at h
  split at h
  next heq =>
    cases h
    exact heq
  next => exact absurd h not_ok_of_refused

theorem toDecimal_int {n : ℤ} (h : toDecimal texts sec key (.int n) = .ok d) : d = .finite n := by
  have hcases : (if Yaml.isLong n then .error texts.tooLong else .ok (.finite n)) =
      (.ok d : Except String Decimal) := h
  split at hcases
  next => cases hcases
  next =>
    cases hcases
    rfl

theorem toDecimal_float {x : Decimal} (h : toDecimal texts sec key (.float x) = .ok d) : d = x :=
  (Except.ok.inj h).symm

theorem toDecimal_str {text : String} (h : toDecimal texts sec key (.str text) = .ok d) :
    Decimal.ofText text = some d := decimalOf_ok h

theorem toDecimal_other {text : String} {falsy : Bool}
    (h : toDecimal texts sec key (.other (some text) falsy) = .ok d) :
    Decimal.ofText text = some d := decimalOf_ok h

/-- A text that is a `Decimal` is one to the shell if it is finite. -/
private theorem ofText_finite {text : String} (h : Decimal.ofText text = some d) :
    (∃ q, d = .finite q ∧ parseDecimal text = .finite q) ↔ ∃ q, parseDecimal text = .finite q := by
  unfold Decimal.ofText at h
  constructor
  · rintro ⟨q, -, hq⟩
    exact ⟨q, hq⟩
  · rintro ⟨q, hq⟩
    rw [hq] at h
    cases h
    exact ⟨q, rfl, hq⟩

/-- **The shell and the engine read one number** just if it is written as both
read it. -/
theorem sameNumber_iff (hval : IsValue val) (hd : toDecimal texts sec key (resolve val) = .ok d) :
    (∃ q, d = .finite q ∧ shellNumber (String.ofList val) = some q) ↔ SameNumber val := by
  by_cases hbar : '_' ∈ val
  · refine iff_of_false ?_ fun h => h.1 hbar
    rintro ⟨q, -, hq⟩
    exact (shellNumber_eq_some.mp hq).1 hbar
  have hplain := plain_of_value hval hbar
  have hunder : ∀ {c}, c ∈ (signOf val).2 → c ≠ '_' := fun hc => (hplain _ (signOf_subset val hc)).2
  unfold SameNumber
  simp only [shellNumber_eq_some, hbar, not_false_eq_true, true_and]
  have hres : ∀ {value : Yaml}, resolve val = value → toDecimal texts sec key value = .ok d :=
    fun h => h ▸ hd
  unfold resolve at hres
  dsimp only at hres
  cases hform : formOf val with
  | bool b =>
    rw [hform] at hres
    have hbool : toDecimal texts sec key (.bool b) = .ok d := hres rfl
    exact absurd hbool not_ok_of_refused
  | null =>
    rw [hform] at hres
    have hnull : toDecimal texts sec key .null = .ok d := hres rfl
    exact absurd hnull not_ok_of_refused
  | infinity =>
    rw [hform] at hres
    rw [toDecimal_float (hres rfl)]
    exact iff_of_false (fun ⟨q, hq, _⟩ => by cases hq) id
  | nan =>
    rw [hform] at hres
    rw [toDecimal_float (hres rfl)]
    exact iff_of_false (fun ⟨q, hq, _⟩ => by cases hq) id
  | float =>
    rw [hform] at hres
    have hfloat := toDecimal_float (hres rfl)
    generalize parseDecimal (String.ofList val) = parsed at hfloat ⊢
    constructor
    · rintro ⟨q, hq, rfl⟩
      exact ⟨q, rfl, hfloat.symm.trans hq⟩
    · rintro ⟨q, rfl, hq⟩
      exact ⟨q, hfloat.trans hq, rfl⟩
  | date =>
    rw [hform] at hres
    exact ofText_finite (toDecimal_other (hres rfl))
  | text =>
    rw [hform] at hres
    exact ofText_finite (toDecimal_str (hres rfl))
  | int base ds =>
    rw [hform] at hres
    have hd' := toDecimal_int (hres rfl)
    have hdigits := intForm_digits (formOf_int hform)
    -- digits without bars are read by the shell to base ten
    have hread : ∀ {es : List ℕ}, (signOf val).2 = es.map Nat.digitChar → es ≠ [] →
        (∀ e ∈ es, e < 10) → ∀ n : ℕ, d = .finite ((if (signOf val).1 then -(n : ℤ)
          else n : ℤ) : ℤ) → ((∃ q, d = .finite q ∧ parseDecimal (String.ofList val) = .finite q) ↔
            n = readIn 10 es) := by
      intro es hes hne hlt n hn
      rw [parseDecimal_digits hplain hes hne hlt, hn]
      constructor
      · rintro ⟨q, hq, hq'⟩
        cases hq
        simp only [ParsedDecimal.finite.injEq, Int.cast_inj] at hq'
        split at hq'
        next => omega
        next => omega
      · rintro rfl
        exact ⟨_, rfl, rfl⟩
    cases base with
    | binary =>
      rw [parseDecimal_letter hplain hdigits (by decide) (by decide)]
      exact iff_of_false (fun ⟨q, _, hq⟩ => by cases hq) id
    | hex =>
      rw [parseDecimal_letter hplain hdigits (by decide) (by decide)]
      exact iff_of_false (fun ⟨q, _, hq⟩ => by cases hq) id
    | decimal =>
      obtain ⟨hu, hne, hall⟩ := hdigits
      obtain ⟨es, rfl, hlt⟩ := @exists_digits ds fun c hc =>
        (Bool.or_eq_true_iff.mp (hall c hc)).resolve_right fun hc' =>
          hunder (hu ▸ hc) (eq_of_beq hc')
      refine iff_of_true ((hread hu (by simpa using hne) hlt _ hd').mpr ?_) trivial
      exact baseValue_digits hlt
    | octal =>
      obtain ⟨hu, hall⟩ := hdigits
      have height : ∀ c ∈ ds, '0' ≤ c ∧ c ≤ '7' := fun c hc =>
        (hall c hc).resolve_right fun hc' => hunder (hu ▸ List.mem_cons_of_mem _ hc) hc'
      obtain ⟨es, rfl, hlt⟩ := @exists_digits ds fun c hc =>
        Bool.and_eq_true_iff.mpr ⟨decide_eq_true (height c hc).1,
          decide_eq_true (Char.le_trans (height c hc).2 (by decide))⟩
      have hsmall : ∀ e ∈ es, e < 8 := by
        have hdigit : ∀ e ∈ List.range 10, Nat.digitChar e ≤ '7' → e < 8 := by decide
        intro e he
        exact hdigit e (List.mem_range.mpr (hlt e he))
          (height _ (List.mem_map_of_mem he)).2
      rw [@hread (0 :: es) hu (List.cons_ne_nil 0 es)
        (List.forall_mem_cons.mpr ⟨by decide, hlt⟩) _ hd']
      show baseValue 8 (es.map Nat.digitChar) = readIn 10 es ↔
        baseValue 8 (es.map Nat.digitChar) < 8
      rw [baseValue_digits hlt]
      exact readIn_eq_iff hsmall

end

end TradeDesk.RuleFile
