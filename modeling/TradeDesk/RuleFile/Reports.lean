import TradeDesk.RuleFile.Checks
import TradeDesk.Loops.Printed

/-!
# When the checker reports

`run_checks` runs its checks one after another with nothing around them, so
it returns exactly if each of them does (`foldlM_runCheck_returns`). A check
that only searches the lines of files cannot raise. Of the others, one
lemma each says when it returns:

* the annotations, when every number stated is one (`returns_checkMark`:
  the pattern lets `1.2.3` through, `Decimal` does not) and is compared with
  no signaling NaN;
* tightness and the derived rules, when the rules they compare are there,
  are no NaN, and are finite where `int` is taken of them;
* the dead keys and the schedule, when `rules.yml` and `config.yml` decode,
  and PyYAML raises nothing on the second but an error of its own.

`Reportable` is all of this together, in terms of the tree.
-/

namespace TradeDesk.RuleFile

open TradeDesk.Research (splitlines)
open TradeDesk.Loops (digitValue_digitChar digitChar_spec digitChar_plain isSpecial_digit
  signOf signOf_digit parseDecimal_plain)

/-! ## Computations that return -/

section

variable {α β γ ε : Type}

/-- The computation does not raise. -/
def Returns (x : Except ε α) : Prop := ∃ a, x = .ok a

theorem returns_ok {a : α} : Returns (.ok a : Except ε α) := ⟨a, rfl⟩

theorem returns_pure {a : α} : Returns (pure a : Except ε α) := ⟨a, rfl⟩

theorem not_returns_error {e : ε} : ¬ Returns (.error e : Except ε α) := by
  intro h
  obtain ⟨a, ha⟩ := h
  cases ha

theorem returns_bind {x : Except ε α} {f : α → Except ε β} :
    Returns (x >>= f) ↔ ∃ a, x = .ok a ∧ Returns (f a) := by
  cases x with
  | error e =>
    refine iff_of_false not_returns_error fun h => ?_
    obtain ⟨a, ha, -⟩ := h
    cases ha
  | ok a =>
    refine ⟨fun h => ⟨a, rfl, h⟩, fun h => ?_⟩
    obtain ⟨b, hb, hf⟩ := h
    cases hb
    exact hf

/-- What comes after cannot raise. -/
theorem returns_bind_of {x : Except ε α} {f : α → Except ε β} (hf : ∀ a, Returns (f a)) :
    Returns (x >>= f) ↔ Returns x := by
  rw [returns_bind]
  refine ⟨fun h => ?_, fun h => ?_⟩
  · obtain ⟨a, ha, -⟩ := h
    exact ⟨a, ha⟩
  · obtain ⟨a, ha⟩ := h
    exact ⟨a, ha, hf a⟩

/-- Whether what comes after raises does not depend on the value. -/
theorem returns_bind_const {x : Except ε α} {f : α → Except ε β} {P : Prop}
    (hf : ∀ a, x = .ok a → (Returns (f a) ↔ P)) : Returns (x >>= f) ↔ Returns x ∧ P := by
  rw [returns_bind]
  refine ⟨fun h => ?_, fun h => ?_⟩
  · obtain ⟨a, ha, hr⟩ := h
    exact ⟨⟨a, ha⟩, (hf a ha).mp hr⟩
  · obtain ⟨⟨a, ha⟩, hp⟩ := h
    exact ⟨a, ha, (hf a ha).mpr hp⟩

theorem returns_mapM {f : α → Except ε β} {l : List α} :
    Returns (l.mapM f) ↔ ∀ a ∈ l, Returns (f a) := by
  induction l with
  | nil =>
    rw [List.mapM_nil]
    exact iff_of_true returns_pure fun a ha => by cases ha
  | cons a l ih =>
    rw [List.mapM_cons, returns_bind_const (P := ∀ b ∈ l, Returns (f b)), List.forall_mem_cons]
    intro b hb
    rw [returns_bind_of fun bs => returns_pure, ih]

theorem returns_foldlM {f : β → α → Except ε β} {P : α → Prop}
    (hf : ∀ b a, Returns (f b a) ↔ P a) {l : List α} {b : β} :
    Returns (l.foldlM f b) ↔ ∀ a ∈ l, P a := by
  induction l generalizing b with
  | nil =>
    rw [List.foldlM_nil]
    exact iff_of_true returns_pure fun a ha => by cases ha
  | cons a l ih =>
    rw [List.foldlM_cons, returns_bind_const (fun c _ => ih), hf, List.forall_mem_cons]

theorem returns_orRaise {e : Raised} {x : Option α} : Returns (orRaise e x) ↔ x.isSome = true := by
  cases x with
  | none => exact iff_of_false not_returns_error Bool.false_ne_true
  | some a => exact iff_of_true returns_ok rfl

theorem orRaise_ok {e : Raised} {x : Option α} {a : α} (h : orRaise e x = .ok a) :
    x = some a := by
  cases x with
  | none => cases h
  | some b =>
    cases h
    rfl

end

/-! ## Stated numbers -/

/-- A decimal digit, by its value. -/
theorem digit_of_ascii {c : Char} (h : isAsciiDigit c = true) :
    ∃ d < 10, c = Nat.digitChar d := by
  obtain ⟨hlow, hhigh⟩ := Bool.and_eq_true_iff.mp h
  have hl : ('0' : Char).toNat ≤ c.toNat := of_decide_eq_true hlow
  have hh : c.toNat ≤ ('9' : Char).toNat := of_decide_eq_true hhigh
  have hall : ∀ n ∈ List.range 58, 48 ≤ n → Char.ofNat n = Nat.digitChar (n - 48) := by decide
  have h0 : ('0' : Char).toNat = 48 := rfl
  have h9 : ('9' : Char).toNat = 57 := rfl
  refine ⟨c.toNat - 48, by omega, ?_⟩
  rw [← hall c.toNat (List.mem_range.mpr (by omega)) (by omega), Char.ofNat_toNat]

private theorem point_not_digit : isAsciiDigit '.' = false := by decide

private theorem digitValue_point : digitValue '.' = none := by decide

/-- The digits in front, where nothing but digits and points follows. -/
theorem takeDigits_ascii {cs : List Char} (h : ∀ c ∈ cs, isAsciiDigit c = true ∨ c = '.') :
    (takeDigits cs).2 = cs.dropWhile isAsciiDigit ∧
      ((takeDigits cs).1 = [] ↔ cs.takeWhile isAsciiDigit = []) := by
  induction cs with
  | nil => exact ⟨rfl, iff_of_true rfl rfl⟩
  | cons c cs ih =>
    obtain ⟨htail, -⟩ := ih fun x hx => h x (List.mem_cons_of_mem c hx)
    rcases h c List.mem_cons_self with hc | rfl
    · obtain ⟨d, hd, rfl⟩ := digit_of_ascii hc
      unfold takeDigits
      rw [digitValue_digitChar hd, List.dropWhile_cons_of_pos hc, List.takeWhile_cons_of_pos hc]
      exact ⟨htail, by simp⟩
    · unfold takeDigits
      rw [digitValue_point]
      exact ⟨rfl, iff_of_true rfl rfl⟩

/-- Without its leading digits a number has the same points. -/
private theorem count_dropWhile (cs : List Char) :
    (cs.dropWhile isAsciiDigit).count '.' = cs.count '.' := by
  induction cs with
  | nil => rfl
  | cons c cs ih =>
    by_cases hc : isAsciiDigit c = true
    · rw [List.dropWhile_cons_of_pos hc, ih, List.count_cons_of_ne]
      intro he
      rw [he, point_not_digit] at hc
      cases hc
    · rw [List.dropWhile_cons_of_neg hc]

/-- What is left of digits and points starts with a point. -/
private theorem dropWhile_point {cs : List Char} (h : ∀ c ∈ cs, isAsciiDigit c = true ∨ c = '.') :
    cs.dropWhile isAsciiDigit = [] ∨
      ∃ r, cs.dropWhile isAsciiDigit = '.' :: r ∧ ∀ c ∈ r, isAsciiDigit c = true ∨ c = '.' := by
  cases hd : cs.dropWhile isAsciiDigit with
  | nil => exact Or.inl rfl
  | cons x r =>
    have hsub : ∀ c ∈ x :: r, isAsciiDigit c = true ∨ c = '.' := fun c hc =>
      h c ((List.dropWhile_suffix isAsciiDigit).subset (hd ▸ hc))
    have hx : ¬ isAsciiDigit x = true := by
      have hhead := List.head?_dropWhile_not isAsciiDigit cs
      rw [hd] at hhead
      simpa using hhead
    refine Or.inr ⟨r, ?_, fun c hc => hsub c (List.mem_cons_of_mem x hc)⟩
    rw [(hsub x List.mem_cons_self).resolve_left hx]

/-- Digits and points are a number if there is one point at most. -/
theorem parseUnsigned_ascii {cs : List Char} (hhead : cs.head?.any isAsciiDigit = true)
    (h : ∀ c ∈ cs, isAsciiDigit c = true ∨ c = '.') :
    (parseUnsigned cs).isSome = true ↔ cs.count '.' ≤ 1 := by
  obtain ⟨hrest, hwhole⟩ := takeDigits_ascii h
  have hne : (takeDigits cs).1.isEmpty = false := by
    rw [← Bool.not_eq_true, List.isEmpty_iff, hwhole]
    obtain ⟨c, rest, rfl⟩ : ∃ c rest, cs = c :: rest := by
      cases cs with
      | nil => cases hhead
      | cons c rest => exact ⟨c, rest, rfl⟩
    rw [List.takeWhile_cons_of_pos (by simpa using hhead)]
    exact List.cons_ne_nil _ _
  have hexp : ∀ r : List Char, parseExponent ('.' :: r) = none := fun r => rfl
  unfold parseUnsigned
  dsimp only
  rw [← count_dropWhile, hrest]
  rcases dropWhile_point h with he | ⟨r, he, hr⟩
  · rw [he]
    simp [hne, parseExponent]
  · rw [he]
    obtain ⟨hfrac, -⟩ := takeDigits_ascii hr
    show (if ((takeDigits cs).1.isEmpty && (takeDigits r).1.isEmpty) = true then none
      else (parseExponent (takeDigits r).2).map _).isSome = true ↔ _
    rw [hfrac, hne, Bool.false_and, if_neg Bool.false_ne_true, Option.isSome_map]
    rw [List.count_cons_self, ← count_dropWhile r]
    rcases dropWhile_point hr with hr' | ⟨r', hr', -⟩
    · rw [hr']
      exact iff_of_true rfl (by simp)
    · rw [hr', hexp, List.count_cons_self]
      exact iff_of_false Bool.false_ne_true (by omega)

/-- **A stated number** is one if it has one point at most, and then is finite. -/
theorem ofText_ascii {cs : List Char} (hhead : cs.head?.any isAsciiDigit = true)
    (h : ∀ c ∈ cs, isAsciiDigit c = true ∨ c = '.') :
    ((Decimal.ofText (String.ofList cs)).isSome = true ↔ cs.count '.' ≤ 1) ∧
      ∀ d, Decimal.ofText (String.ofList cs) = some d → ∃ q, d = .finite q := by
  obtain ⟨c, rest, rfl⟩ : ∃ c rest, cs = c :: rest := by
    cases cs with
    | nil => cases hhead
    | cons c rest => exact ⟨c, rest, rfl⟩
  have hplain : ∀ x ∈ c :: rest, isSpace x = false ∧ x ≠ '_' := by
    intro x hx
    rcases h x hx with hx | rfl
    · obtain ⟨d, hd, rfl⟩ := digit_of_ascii hx
      exact ⟨(digitChar_spec hd).1, (digitChar_plain hd).2.2.2.2.2.2⟩
    · exact ⟨by decide, by decide⟩
  obtain ⟨d, hd, rfl⟩ := digit_of_ascii (c := c) (by simpa using hhead)
  have hparse := parseDecimal_plain hplain
  rw [signOf_digit hd] at hparse
  dsimp only at hparse
  rw [isSpecial_digit hd, if_neg Bool.false_ne_true] at hparse
  have hiff := parseUnsigned_ascii hhead h
  unfold Decimal.ofText
  rw [hparse]
  cases hp : parseUnsigned (Nat.digitChar d :: rest) with
  | none =>
    rw [hp] at hiff
    exact ⟨hiff, fun x hx => by cases hx⟩
  | some q =>
    rw [hp] at hiff
    refine ⟨hiff, fun x hx => ?_⟩
    cases hx
    exact ⟨q, rfl⟩

/-! ## Annotations -/

/-- A match states a number of digits and points, which a digit begins. -/
theorem annotationAt_num {cs rest : List Char} {a : Mark} (h : annotationAt cs = some (a, rest)) :
    a.num.head?.any isAsciiDigit = true ∧ ∀ c ∈ a.num, isAsciiDigit c = true ∨ c = '.' := by
  unfold annotationAt at h
  obtain ⟨r₁, -, h⟩ := Option.bind_eq_some_iff.mp h
  obtain ⟨r₂, -, h⟩ := Option.bind_eq_some_iff.mp h
  split at h
  next hcond =>
    cases h
    refine ⟨(Bool.and_eq_true_iff.mp hcond).1, fun c hc => ?_⟩
    have hboth := List.mem_takeWhile_imp hc
    simpa using hboth
  next => cases h

theorem annotations_num {line : List Char} {a : Mark} (h : a ∈ annotations line) :
    a.num.head?.any isAsciiDigit = true ∧ ∀ c ∈ a.num, isAsciiDigit c = true ∨ c = '.' := by
  unfold annotations at h
  generalize 0 = skip at h
  induction line generalizing skip with
  | nil => cases skip <;> cases h
  | cons c cs ih =>
    cases skip with
    | succ k => exact ih k h
    | zero =>
      simp only [annotationsFrom] at h
      split at h
      next b rest hb =>
        rcases List.mem_cons.mp h with rfl | h
        · exact annotationAt_num hb
        · exact ih _ h
      next => exact ih 0 h

section

variable {t : Tree} {texts : Texts} {table : List (String × Decimal)} {p : Path}

/-- An annotation that can be compared: its number is one, and its rule is no
signaling NaN. -/
def Comparable (table : List (String × Decimal)) (a : Mark) : Prop :=
  a.num.count '.' ≤ 1 ∧ table.lookup (String.ofList a.key) ≠ some .snan

private theorem ne?_isSome {q : ℚ} {d : Decimal} :
    (Decimal.ne? (.finite q) d).isSome = true ↔ d ≠ .snan := by
  unfold Decimal.ne?
  split
  next h => exact iff_of_false Bool.false_ne_true (by simpa using h)
  next h =>
    refine iff_of_true ?_ (by simpa using h)
    split <;> rfl

theorem returns_checkMark {i : ℕ} {line : List Char} {a : Mark} (h : a ∈ annotations line) :
    Returns (checkMark texts table p i a) ↔ Comparable table a := by
  obtain ⟨hhead, hchars⟩ := annotations_num h
  obtain ⟨hsome, hfinite⟩ := ofText_ascii hhead hchars
  unfold checkMark Comparable
  dsimp only
  rw [returns_bind_const (P := table.lookup (String.ofList a.key) ≠ some .snan), returns_orRaise,
    hsome]
  intro stated hstated
  obtain ⟨q, rfl⟩ := hfinite stated (orRaise_ok hstated)
  split
  next hnone =>
    rw [hnone]
    exact iff_of_true returns_pure (by simp)
  next value hvalue =>
    rw [hvalue, returns_bind_of fun b => returns_pure, returns_orRaise, ne?_isSome]
    simp

/-- The annotated lines of a file. -/
def marksOf (t : Tree) (texts : Texts) (p : Path) : List Mark :=
  (linesOf t texts p "annotations").2.flatMap fun l => annotations l.1

theorem returns_checkFile :
    Returns (checkFile t texts table p) ↔ ∀ a ∈ marksOf t texts p, Comparable table a := by
  unfold checkFile
  dsimp only
  rw [returns_bind_of fun _ => returns_pure, returns_mapM]
  constructor
  · intro hall a ha
    obtain ⟨l, hl, ha⟩ := List.mem_flatMap.mp ha
    exact (returns_checkMark ha).mp
      (hall (l.2, a) (List.mem_flatMap.mpr ⟨l, hl, List.mem_map.mpr ⟨a, ha, rfl⟩⟩))
  · intro hall m hm
    obtain ⟨l, hl, hm⟩ := List.mem_flatMap.mp hm
    obtain ⟨a, ha, rfl⟩ := List.mem_map.mp hm
    exact (returns_checkMark ha).mpr (hall a (List.mem_flatMap.mpr ⟨l, hl, ha⟩))

theorem returns_checkAnnotations {rules : Rules} :
    Returns (checkAnnotations t texts rules) ↔
      ∃ table, ruleTable rules = some table ∧
        ∀ p ∈ walk t (some [".md"]) none, ∀ a ∈ marksOf t texts p, Comparable table a := by
  unfold checkAnnotations
  rw [returns_bind]
  constructor
  · intro h
    obtain ⟨table, htable, h⟩ := h
    rw [returns_bind_of fun _ => returns_pure, returns_mapM] at h
    exact ⟨table, orRaise_ok htable, fun p hp => returns_checkFile.mp (h p hp)⟩
  · intro h
    obtain ⟨table, htable, h⟩ := h
    refine ⟨table, by rw [htable]; rfl, ?_⟩
    rw [returns_bind_of fun _ => returns_pure, returns_mapM]
    exact fun p hp => returns_checkFile.mpr (h p hp)

end

/-! ## The rules that are compared -/

/-- The rule is there, and no NaN. -/
def Rules.HasNumber (rules : Rules) (sec key : String) : Prop :=
  ∃ d, rules.get sec key = .ok d ∧ d.isNan = false

/-- The rule is there, and `int` can be taken of it. -/
def Rules.HasFinite (rules : Rules) (sec key : String) : Prop :=
  ∃ q, rules.get sec key = .ok (.finite q)

section

variable {texts : Texts} {rules : Rules}

theorem le?_isSome {a b : Decimal} :
    (a.le? b).isSome = true ↔ a.isNan = false ∧ b.isNan = false := by
  unfold Decimal.le?
  split
  next h =>
    refine iff_of_false Bool.false_ne_true fun hno => ?_
    rw [hno.1, hno.2] at h
    cases h
  next h =>
    refine iff_of_true ?_ (by simpa using h)
    split <;> rfl

theorem lt?_isSome {a b : Decimal} :
    (a.lt? b).isSome = true ↔ a.isNan = false ∧ b.isNan = false := by
  unfold Decimal.lt?
  rw [Option.isSome_map, le?_isSome, and_comm]

theorem returns_checkRow {row : TightnessRow} :
    Returns (checkRow texts rules row) ↔
      rules.HasNumber "strategy" row.skey ∧ rules.HasNumber "manual" row.mkey := by
  obtain ⟨skey, mkey, side, label⟩ := row
  unfold checkRow
  dsimp only
  rw [returns_bind]
  constructor
  · intro h
    obtain ⟨s, hs, h⟩ := h
    obtain ⟨m, hm, h⟩ := returns_bind.mp h
    rw [returns_bind_of fun _ => returns_pure, returns_orRaise] at h
    obtain ⟨hsn, hmn⟩ : s.isNan = false ∧ m.isNan = false := by
      cases side with
      | ge => exact (le?_isSome.mp h).symm
      | le => exact le?_isSome.mp h
    exact ⟨⟨s, hs, hsn⟩, ⟨m, hm, hmn⟩⟩
  · intro h
    obtain ⟨⟨s, hs, hsn⟩, ⟨m, hm, hmn⟩⟩ := h
    refine ⟨s, hs, returns_bind.mpr ⟨m, hm, ?_⟩⟩
    rw [returns_bind_of fun _ => returns_pure, returns_orRaise]
    cases side with
    | ge => exact le?_isSome.mpr ⟨hmn, hsn⟩
    | le => exact le?_isSome.mpr ⟨hsn, hmn⟩

theorem returns_checkTightness :
    Returns (checkTightness texts rules) ↔ ∀ row ∈ TIGHTNESS,
      rules.HasNumber "strategy" row.skey ∧ rules.HasNumber "manual" row.mkey := by
  unfold checkTightness
  rw [returns_bind_of fun _ => returns_pure, returns_mapM]
  exact forall_congr' fun row => forall_congr' fun _ => returns_checkRow

theorem returns_getInt {key : String} :
    Returns (rules.getInt key) ↔ rules.HasFinite "manual" key := by
  unfold Rules.getInt
  rw [returns_bind]
  constructor
  · intro h
    obtain ⟨d, hd, h⟩ := h
    rw [returns_orRaise] at h
    cases d with
    | finite q => exact ⟨q, hd⟩
    | infinity _ | nan | snan => cases h
  · intro h
    obtain ⟨q, hq⟩ := h
    exact ⟨.finite q, hq, returns_ok⟩

/-- The rules of the identity between the option floors. -/
def DTE_KEYS : List String :=
  ["option_close_at_dte", "option_max_blind_days", "option_dte_execution_margin_days",
    "option_min_dte"]

theorem returns_dteFloorIdentityHolds :
    Returns (dteFloorIdentityHolds rules) ↔ ∀ key ∈ DTE_KEYS, rules.HasFinite "manual" key := by
  unfold dteFloorIdentityHolds DTE_KEYS
  rw [returns_bind_const fun _ _ => returns_bind_const fun _ _ => returns_bind_const fun _ _ =>
    returns_bind_of fun _ => returns_pure]
  simp only [returns_getInt, List.forall_mem_cons, List.not_mem_nil, false_implies, implies_true,
    and_true]

/-- The band is compared number by number, and `mn <= sd <= mx` raises no
more than its first half, once `mn < mx` did not. -/
theorem returns_checkDerived :
    Returns (checkDerived texts rules) ↔
      (∀ key ∈ DTE_KEYS, rules.HasFinite "manual" key) ∧
        rules.HasNumber "manual" "option_min_delta" ∧
        rules.HasNumber "manual" "option_max_delta" ∧
        rules.HasNumber "strategy" "option_min_delta" := by
  unfold checkDerived
  rw [returns_bind_const (P := rules.HasNumber "manual" "option_min_delta" ∧
    rules.HasNumber "manual" "option_max_delta" ∧
    rules.HasNumber "strategy" "option_min_delta"), returns_dteFloorIdentityHolds]
  intro identity _
  rw [returns_bind]
  constructor
  · intro h
    obtain ⟨mn, hmn, h⟩ := h
    obtain ⟨mx, hmx, h⟩ := returns_bind.mp h
    obtain ⟨sd, hsd, h⟩ := returns_bind.mp h
    obtain ⟨upright, hup, h⟩ := returns_bind.mp h
    obtain ⟨above, hab, -⟩ := returns_bind.mp h
    obtain ⟨hmnn, hmxn⟩ := lt?_isSome.mp (Option.isSome_of_eq_some (orRaise_ok hup))
    obtain ⟨-, hsdn⟩ := le?_isSome.mp (Option.isSome_of_eq_some (orRaise_ok hab))
    exact ⟨⟨mn, hmn, hmnn⟩, ⟨mx, hmx, hmxn⟩, ⟨sd, hsd, hsdn⟩⟩
  · intro h
    obtain ⟨⟨mn, hmn, hmnn⟩, ⟨mx, hmx, hmxn⟩, ⟨sd, hsd, hsdn⟩⟩ := h
    obtain ⟨upright, hup⟩ := Option.isSome_iff_exists.mp (lt?_isSome.mpr ⟨hmnn, hmxn⟩)
    obtain ⟨above, hab⟩ := Option.isSome_iff_exists.mp (le?_isSome.mpr ⟨hmnn, hsdn⟩)
    obtain ⟨inside, hin⟩ := Option.isSome_iff_exists.mp (le?_isSome.mpr ⟨hsdn, hmxn⟩)
    refine ⟨mn, hmn, returns_bind.mpr ⟨mx, hmx, returns_bind.mpr ⟨sd, hsd, ?_⟩⟩⟩
    rw [hup, hab, hin]
    cases above <;> exact returns_pure

end

/-! ## The files that are decoded -/

section

variable {t : Tree} {texts : Texts} {safeLoad : String → Except YamlError Yaml} {p : Path}

/-- The bytes at this path are a text, or there is none to read. -/
def Decodes (t : Tree) (p : Path) : Prop :=
  ∀ e s, t.entries.lookup p ≠ some (.undecodable e s)

theorem decodes_iff (texts : Texts) :
    Decodes t p ↔ ∀ e, t.readText texts p ≠ .error (.unicodeDecodeError e) := by
  constructor
  · intro hd e h
    unfold Tree.readText at h
    split at h
    next => cases h
    next => cases h
    next => cases h
    next s hl => exact hd _ _ hl
    next => cases h
  · intro hno e s hl
    apply hno e
    unfold Tree.readText
    rw [hl]

theorem returns_checkDeadKeys : Returns (checkDeadKeys t texts) ↔ Decodes t ["rules.yml"] := by
  rw [decodes_iff texts]
  unfold checkDeadKeys
  split
  next e he => exact iff_of_true returns_ok fun e' => by simp [he]
  next e he => exact iff_of_false not_returns_error fun hno => hno e he
  next text he => exact iff_of_true returns_ok fun e' => by simp [he]

/-- What a schedule's names and values are printed as. -/
def Printable (block : List (YamlKey × Yaml)) : Prop :=
  ∀ e ∈ block, e.1.text.isSome = true ∧ e.2.hasText = true

/-- PyYAML reads the text or refuses it, and a schedule in it can be printed. -/
def Loadable (safeLoad : String → Except YamlError Yaml) (text : String) : Prop :=
  (∀ e, safeLoad text ≠ .error (.other e)) ∧
    ∀ cfg block, safeLoad text = .ok cfg → scheduleBlock cfg = some block → Printable block

private theorem returns_entry {e : YamlKey × Yaml} :
    Returns (do
      let k ← orRaise .valueError e.1.text
      if e.2.hasText then return k else .error .valueError : Except Raised String) ↔
      e.1.text.isSome = true ∧ e.2.hasText = true := by
  rw [returns_bind_const (P := e.2.hasText = true), returns_orRaise]
  intro k _
  split
  next h => exact iff_of_true returns_pure h
  next h => exact iff_of_false not_returns_error h

theorem returns_schedule : Returns (schedule texts safeLoad t) ↔
    Decodes t ["config.yml"] ∧
      ∀ text, t.readText texts ["config.yml"] = .ok text → Loadable safeLoad text := by
  rw [decodes_iff texts]
  unfold schedule
  split
  next e he => exact iff_of_true returns_ok (by simp [he])
  next e he => exact iff_of_false not_returns_error fun hno => hno.1 e he
  next text he =>
    have hread : (∀ text', t.readText texts ["config.yml"] = .ok text' →
        Loadable safeLoad text') ↔ Loadable safeLoad text :=
      ⟨fun h => h text he, fun h text' he' => by rw [← Except.ok.inj (he.symm.trans he')]; exact h⟩
    rw [hread, and_iff_right (by simp [he])]
    unfold Loadable
    split
    next e hl => exact iff_of_true returns_ok (by simp [hl])
    next e hl => exact iff_of_false not_returns_error fun hno => hno.1 e hl
    next cfg hl =>
      rw [and_iff_right (by simp [hl])]
      split
      next hb =>
        refine iff_of_true returns_ok fun cfg' block hcfg hblock => ?_
        rw [← Except.ok.inj (hl.symm.trans hcfg), hb] at hblock
        cases hblock
      next block hb =>
        rw [returns_bind_of fun _ => returns_pure, returns_mapM]
        constructor
        · intro hall cfg' block' hcfg hblock e he'
          rw [← Except.ok.inj (hl.symm.trans hcfg), hb] at hblock
          cases hblock
          exact returns_entry.mp (hall e he')
        · intro hall e he'
          exact returns_entry.mpr (hall cfg block hl hb e he')

theorem returns_checkScheduleVsDoc : Returns (checkScheduleVsDoc texts safeLoad t) ↔
    Decodes t ["config.yml"] ∧
      ∀ text, t.readText texts ["config.yml"] = .ok text → Loadable safeLoad text := by
  unfold checkScheduleVsDoc
  rw [returns_bind_of fun _ => returns_pure, returns_schedule]

/-! ## The report -/

/-- What the checks ask of the rules they are given. -/
structure RulesReadable (t : Tree) (texts : Texts) (rules : Rules) : Prop where
  /-- every key has a text, every annotation a number that can be compared -/
  annotated : ∃ table, ruleTable rules = some table ∧
    ∀ p ∈ walk t (some [".md"]) none, ∀ a ∈ marksOf t texts p, Comparable table a
  tight : ∀ row ∈ TIGHTNESS,
    rules.HasNumber "strategy" row.skey ∧ rules.HasNumber "manual" row.mkey
  days : ∀ key ∈ DTE_KEYS, rules.HasFinite "manual" key
  band : rules.HasNumber "manual" "option_max_delta"

/-- What has to be so of a tree. -/
structure Reportable (texts : Texts) (safeLoad : String → Except YamlError Yaml) (t : Tree)
    (rules : Option Rules) : Prop where
  rulesDecode : Decodes t ["rules.yml"]
  configDecode : Decodes t ["config.yml"]
  configLoads : ∀ text, t.readText texts ["config.yml"] = .ok text → Loadable safeLoad text
  rulesRead : ∀ r, (loadRules texts safeLoad t rules).1 = some r → RulesReadable t texts r

/-- Each check is run, but one that needs rules where none could be loaded. -/
theorem foldlM_runCheck_returns {loaded : Option Rules} {rep : Report} :
    Returns ((CHECKS texts safeLoad t).foldlM (runCheck loaded) rep) ↔
      ∀ c ∈ CHECKS texts safeLoad t, (c.2.2 && loaded.isNone) = false →
        Returns (c.2.1 (loaded.getD Rules.placeholder)) := by
  refine returns_foldlM fun rep c => ?_
  unfold runCheck
  split
  next h =>
    refine iff_of_true returns_ok fun hno => ?_
    rw [h] at hno
    cases hno
  next h =>
    rw [returns_bind_of fun _ => returns_pure]
    exact ⟨fun hr _ => hr, fun hr => hr (Bool.not_eq_true _ ▸ h)⟩

/-- **The checker reports** exactly on the trees that are `Reportable`. -/
theorem runChecks_returns_iff (texts : Texts) (safeLoad : String → Except YamlError Yaml)
    (t : Tree) (rules : Option Rules) :
    Returns (runChecks texts safeLoad t rules) ↔ Reportable texts safeLoad t rules := by
  have hrules : ∀ r, (Returns (checkAnnotations t texts r) ∧ Returns (checkTightness texts r) ∧
      Returns (checkDerived texts r)) ↔ RulesReadable t texts r := by
    intro r
    rw [returns_checkAnnotations, returns_checkTightness, returns_checkDerived]
    constructor
    · intro h
      exact ⟨h.1, h.2.1, h.2.2.1, h.2.2.2.2.1⟩
    · intro h
      have hdelta := h.tight ⟨"option_min_delta", "option_min_delta", .ge, "delta-floor"⟩
        List.mem_cons_self
      exact ⟨h.annotated, h.tight, h.days, hdelta.2, h.band, hdelta.1⟩
  unfold runChecks
  dsimp only
  rw [foldlM_runCheck_returns]
  simp only [CHECKS, List.forall_mem_cons, List.not_mem_nil, false_implies, implies_true, and_true,
    Bool.true_and, Bool.false_and, true_implies, returns_checkDeadKeys, returns_checkScheduleVsDoc]
  cases hl : (loadRules texts safeLoad t rules).1 with
  | none =>
    simp only [Option.isNone_none, Bool.true_eq_false, false_implies, true_and]
    constructor
    · intro h
      exact ⟨h.1, h.2.2.2.2.2.2.1, h.2.2.2.2.2.2.2, fun r hr => by simp [hl] at hr⟩
    · intro h
      exact ⟨h.rulesDecode, returns_ok, returns_ok, returns_ok, returns_ok, returns_ok,
        h.configDecode, h.configLoads⟩
  | some r =>
    simp only [Option.isNone_some, true_implies, Option.getD_some]
    constructor
    · intro h
      obtain ⟨ha, ht, hd, hdead, -, -, -, -, -, hdec, hload⟩ := h
      refine ⟨hdead, hdec, hload, fun r' hr' => ?_⟩
      rw [hl] at hr'
      cases hr'
      exact (hrules r).mp ⟨ha, ht, hd⟩
    · intro h
      obtain ⟨ha, ht, hd⟩ := (hrules r).mpr (h.rulesRead r hl)
      exact ⟨ha, ht, hd, h.rulesDecode, returns_ok, returns_ok, returns_ok, returns_ok,
        returns_ok, h.configDecode, h.configLoads⟩

end

/-- How Python prints a plain text. -/
private def plainTexts : Texts where
  repr s := "'" ++ s ++ "'"
  reprValue v := if v.hasText then some "..." else none
  decimal _ := "0"
  tooLong := "Exceeds the limit (4300 digits) for integer string conversion"

/-- Nothing is read as YAML below. -/
private def noYaml : String → Except YamlError Yaml := fun _ => .error (.yaml "")

/-- A `rules.yml` of the one byte `0xff`. -/
private def damaged : Tree :=
  ⟨"/repo", [(["rules.yml"], .undecodable
    "'utf-8' codec can't decode byte 0xff in position 0: invalid start byte" "�")]⟩

/-- A document that states `1.2.3`. -/
private def marked : Tree :=
  ⟨"/repo", [(["NOTES.md"], .text "cap **1.2.3**<!--rule:manual_cap-->")]⟩

/-- An undecodable `rules.yml`, a rule that is missing, and an annotation that
states no number each leave no report. -/
theorem runChecks_raises :
    ¬ Returns (runChecks plainTexts noYaml damaged none) ∧
      ¬ Returns (runChecks plainTexts noYaml ⟨"/repo", []⟩ (some Rules.placeholder)) ∧
      ¬ Returns (runChecks plainTexts noYaml marked (some Rules.placeholder)) := by
  refine ⟨fun h => ?_, fun h => ?_, fun h => ?_⟩
  · have hdead : Returns (checkDeadKeys damaged plainTexts) := foldlM_runCheck_returns.mp h
      ("dead_keys", fun _ => checkDeadKeys damaged plainTexts, false) (by simp [CHECKS]) rfl
    have hentry : damaged.entries.lookup ["rules.yml"] = some (.undecodable _ _) := rfl
    exact returns_checkDeadKeys.mp hdead _ _ hentry
  · have htight := foldlM_runCheck_returns.mp h
      ("tightness", checkTightness plainTexts, true) (by simp [CHECKS]) rfl
    obtain ⟨d, hd, -⟩ := (returns_checkTightness.mp htight _ List.mem_cons_self).1
    cases hd
  · have hmark := foldlM_runCheck_returns.mp h
      ("annotations", checkAnnotations marked plainTexts, true) (by simp [CHECKS]) rfl
    obtain ⟨table, -, hall⟩ := returns_checkAnnotations.mp hmark
    have hfiles : ["NOTES.md"] ∈ walk marked (some [".md"]) none := by decide +kernel
    have hmarks : ⟨"1.2.3".toList, "manual_cap".toList⟩ ∈ marksOf marked plainTexts ["NOTES.md"] := by
      decide +kernel
    exact absurd (hall _ hfiles _ hmarks).1 (by decide)

end TradeDesk.RuleFile
