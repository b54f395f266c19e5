import TradeDesk.JsonText.Spelling
import TradeDesk.Jobs.Verdicts

/-!
# The JSON text of a verdict

`VerdictInstance.Text` says what a JSON text of an instance is: an object
with the model's fields in their order, with whatever blanks and whatever
escapes. Such a text is decoded to the instance's object, unless an integer
in it is too long to convert (`rawDecode_text`), and the object validates to
the instance (`validate_value`).
-/

namespace TradeDesk.Jobs

open TradeDesk.JsonText

/-! ## Texts -/

/-- What a field of a verdict holds. -/
inductive Content where
  | text (s : String)
  | numbers (ns : List ℤ)
  | decisions (hs : List HeldDecision)

def HeldDecision.members (h : HeldDecision) : List (String × String) :=
  [("symbol", h.symbol), ("action", h.action.text), ("reason", h.reason)]

def HeldDecision.Text (h : HeldDecision) (t : List Char) : Prop := ObjectText StringText h.members t

def Content.Text : Content → List Char → Prop
  | .text s => StringText s
  | .numbers ns => ArrayText IntText ns
  | .decisions hs => ArrayText HeldDecision.Text hs

def VerdictInstance.members : VerdictInstance → List (String × Content)
  | .analyst v =>
    [("pitched", .numbers v.pitched), ("withdrawn", .numbers v.withdrawn),
      ("summary", .text v.summary)]
  | .pm v => [("held", .decisions v.held), ("calls", .numbers v.calls), ("summary", .text v.summary)]
  | .midday v => [("held", .decisions v.held), ("summary", .text v.summary)]

/-- The JSON texts of an instance. -/
def VerdictInstance.Text (v : VerdictInstance) (t : List Char) : Prop :=
  ObjectText Content.Text v.members t

/-! ## Values -/

/-- The items of an object with these members. -/
def itemsOf {α : Type} (f : α → Value) (members : List (String × α)) : List (List ℕ × Value) :=
  members.map fun m => (codes m.1, f m.2)

def HeldDecision.value (h : HeldDecision) : Value :=
  .obj (itemsOf (fun s => .str (codes s)) h.members)

def Content.value : Content → Value
  | .text s => .str (codes s)
  | .numbers ns => .arr (ns.map .int)
  | .decisions hs => .arr (hs.map HeldDecision.value)

def Content.ints : Content → List ℤ
  | .numbers ns => ns
  | .text _ => []
  | .decisions _ => []

def VerdictInstance.items (v : VerdictInstance) : List (List ℕ × Value) :=
  itemsOf Content.value v.members

/-- The integers of an instance. -/
def VerdictInstance.ints (v : VerdictInstance) : List ℤ := v.members.flatMap fun m => m.2.ints

/-- `int` converts the digits. -/
def Convertible (n : ℤ) : Prop := (intDigits n).length ≤ maxDigits

instance (n : ℤ) : Decidable (Convertible n) := inferInstanceAs (Decidable (_ ≤ _))

/-- `x`, if the integers of a text can be converted. -/
def ifConvertible {α : Type} (ns : List ℤ) (x : α) : Except Fault α :=
  if ∀ n ∈ ns, Convertible n then .ok x else .error .digits

theorem map_ifConvertible {α β : Type} (f : α → β) (ns : List ℤ) (x : α) :
    (ifConvertible ns x).map f = ifConvertible ns (f x) := by
  unfold ifConvertible
  split
  · rfl
  · rfl

/-- Results that fail for an integer only are one that does. -/
theorem collect_ifConvertible {α β : Type} (ints : α → List ℤ) (f : α → β) (xs : List α) :
    collect (xs.map fun x => ifConvertible (ints x) (f x)) =
      ifConvertible (xs.flatMap ints) (xs.map f) := by
  induction xs with
  | nil => rfl
  | cons x xs ih =>
    have hall : (∀ n ∈ (x :: xs).flatMap ints, Convertible n) ↔
        (∀ n ∈ ints x, Convertible n) ∧ ∀ n ∈ xs.flatMap ints, Convertible n := by
      rw [List.flatMap_cons, List.forall_mem_append]
    rw [List.map_cons]
    unfold ifConvertible at ih ⊢
    simp only [hall]
    by_cases hx : ∀ n ∈ ints x, Convertible n
    · rw [if_pos hx]
      show (collect _).map (f x :: ·) = _
      rw [ih]
      by_cases hxs : ∀ n ∈ xs.flatMap ints, Convertible n
      · rw [if_pos hxs, if_pos ⟨hx, hxs⟩]
        rfl
      · rw [if_neg hxs, if_neg fun h => hxs h.2]
        rfl
    · rw [if_neg hx, if_neg fun h => hx h.1]
      rfl

/-! ## Reading -/

theorem reads_string_once (depth : ℕ) {s : String} {t : List Char} (h : StringText s t) :
    Reads (scanOnce depth) (.ok (.str (codes s))) t := by
  cases depth with
  | zero => exact reads_string h
  | succ depth => exact reads_string h

theorem reads_int_once (depth : ℕ) {n : ℤ} {t : List Char} (h : IntText n t) :
    Reads (scanOnce depth) (ifConvertible [n] (.int n)) t := by
  have hresult : ifConvertible [n] (.int n) = intResult n := by
    unfold ifConvertible intResult Convertible
    simp only [List.forall_mem_singleton]
    by_cases hn : (intDigits n).length ≤ maxDigits
    · rw [if_pos hn, if_neg (by omega)]
    · rw [if_neg hn, if_pos (by omega)]
  rw [hresult]
  cases depth with
  | zero => exact reads_int h
  | succ depth => exact reads_int h

/-- Members whose values are read so are read so. -/
theorem scan_members {α : Type} {value : List Char → Scan Value} {P : α → List Char → Prop}
    {ints : α → List ℤ} {f : α → Value} {members : List (String × α)} {t : List Char}
    (h : ObjectText P members t)
    (hreads : ∀ m ∈ members, ∀ t, P m.2 t → Reads value (ifConvertible (ints m.2) (f m.2)) t)
    (rest : List Char) :
    scanValue (some value) (t ++ rest) = withRest
      (ifConvertible (members.flatMap fun m => ints m.2) (.obj (itemsOf f members))) rest := by
  have hscan := @scan_object _ value P (fun c => ifConvertible (ints c) (f c)) members t h hreads
    rest
  simp only [map_ifConvertible, collect_ifConvertible] at hscan
  exact hscan

theorem scan_held (depth : ℕ) {h : HeldDecision} {t : List Char} (ht : h.Text t)
    (rest : List Char) : scanOnce (depth + 1) (t ++ rest) = .ok (h.value, rest) :=
  @scan_members _ (scanOnce depth) StringText (fun _ => []) (fun s => .str (codes s)) h.members t ht
    (fun _ _ _ hu => reads_string_once depth hu) rest

theorem reads_content (depth : ℕ) {c : Content} {t : List Char} (h : c.Text t) :
    Reads (scanOnce (depth + 2)) (ifConvertible c.ints c.value) t := by
  cases c with
  | text s => exact reads_string_once (depth + 2) h
  | numbers ns =>
    have hreads := @reads_array _ (scanOnce (depth + 1)) IntText
      (fun n => ifConvertible [n] (.int n)) ns t h fun n _ u hu => reads_int_once (depth + 1) hu
    rw [collect_ifConvertible, map_ifConvertible, List.flatMap_singleton'] at hreads
    exact hreads
  | decisions hs =>
    have hreads := @reads_array _ (scanOnce (depth + 1)) HeldDecision.Text
      (fun h => ifConvertible [] h.value) hs t h
      fun h _ u hu => ⟨fun rest _ => scan_held depth hu rest, ObjectText.head hu⟩
    rw [collect_ifConvertible, map_ifConvertible] at hreads
    have hnone : (hs.flatMap fun _ => ([] : List ℤ)) = [] := List.flatMap_eq_nil_iff.mpr fun _ _ => rfl
    rw [hnone] at hreads
    exact hreads

/-- **A text of an instance is decoded to its object**, unless an integer is
too long. -/
theorem rawDecode_text (depth : ℕ) {v : VerdictInstance} {t : List Char} (h : v.Text t) :
    rawDecode (depth + 3) t = withRest (ifConvertible v.ints (.obj v.items)) [] := by
  have hscan := @scan_members _ (scanOnce (depth + 2)) Content.Text Content.ints Content.value
    v.members t h (fun _ _ _ hu => reads_content depth hu) []
  rw [List.append_nil] at hscan
  exact hscan

/-! ## Validation -/

theorem codes_injective {a b : String} (h : codes a = codes b) : a = b := by
  unfold codes at h
  rw [← String.toList_inj]
  refine List.map_injective_iff.mpr (fun c d hcd => ?_) h
  exact Char.ext (UInt32.toNat_inj.mp hcd)

theorem codes_beq (a b : String) : (codes a == codes b) = (a == b) := by
  rw [Bool.eq_iff_iff, beq_iff_eq, beq_iff_eq]
  exact ⟨codes_injective, congrArg codes⟩

theorem char_not_low (c : Char) : isLow c.toNat = false := by
  unfold isLow
  rw [Bool.and_eq_false_iff, decide_eq_false_iff_not, decide_eq_false_iff_not]
  rcases c.valid with h | h
  · left
    have hlt : c.toNat < 0xd800 := h
    omega
  · right
    have hlt : 0xdfff < c.toNat := h.1
    omega

theorem textOf_codes (s : String) : textOf (codes s) = some s := by
  have hall : ((codes s).all fun n => !(isHigh n || isLow n)) = true := by
    rw [List.all_eq_true]
    intro n hn
    obtain ⟨c, -, rfl⟩ := List.mem_map.mp hn
    rw [char_not_high, char_not_low]
    rfl
  unfold textOf
  rw [if_pos hall]
  unfold codes
  rw [List.map_map]
  have hid : s.toList.map (Char.ofNat ∘ Char.toNat) = s.toList := by
    refine (List.map_congr_left fun c _ => ?_).trans (List.map_id _)
    exact Char.ofNat_toNat c
  rw [hid, String.ofList_toList]

theorem mapM_values {α β : Type} {f : α → β} {g : β → Option α} (h : ∀ x, g (f x) = some x)
    (xs : List α) : (xs.map f).mapM g = some xs := by
  induction xs with
  | nil => rfl
  | cons x xs ih =>
    rw [List.map_cons, List.mapM_cons, h, ih]
    rfl

theorem action_validate (a : Action) : Action.validate (.str (codes a.text)) = some a := by
  unfold Action.validate
  simp only [codes_beq]
  cases a with
  | hold => decide
  | exit => decide
  | tighten => decide

/-- A key is looked up among the members as it is written. -/
theorem lookup_members {α : Type} (f : α → Value) (members : List (String × α)) (key : String) :
    lookup (itemsOf f members) key =
      (members.reverse.find? fun m => m.1 == key).map fun m => f m.2 := by
  unfold lookup itemsOf
  rw [← List.map_reverse, List.find?_map, Option.map_map]
  simp only [Function.comp_def, codes_beq]

/-- Members are taken if their keys are among those named. -/
theorem keys_taken {α : Type} (f : α → Value) {members : List (String × α)} {names : List String}
    (h : members.map Prod.fst ⊆ names) :
    validateKeys names (.obj (itemsOf f members)) = some (itemsOf f members) := by
  refine if_pos (List.all_eq_true.mpr fun e he => ?_)
  obtain ⟨m, hm, rfl⟩ := List.mem_map.mp he
  exact List.any_eq_true.mpr ⟨m.1, h (List.mem_map.mpr ⟨m, hm, rfl⟩), beq_self_eq_true _⟩

/-- A key that is not refuses them. -/
theorem keys_refused {α : Type} (f : α → Value) {members : List (String × α)} {names : List String}
    {m : String × α} (hm : m ∈ members) (h : m.1 ∉ names) :
    validateKeys names (.obj (itemsOf f members)) = none := by
  refine if_neg fun hall => ?_
  have hfirst := List.all_eq_true.mp hall _ (List.mem_map.mpr ⟨m, hm, rfl⟩)
  obtain ⟨name, hname, heq⟩ := List.any_eq_true.mp hfirst
  rw [codes_beq, beq_iff_eq] at heq
  exact h (heq ▸ hname)

theorem held_validate (h : HeldDecision) : HeldDecision.validate h.value = some h := by
  have htaken : validateKeys ["symbol", "action", "reason"] h.value = some _ :=
    keys_taken (fun s => .str (codes s)) (List.Subset.refl _)
  unfold HeldDecision.validate validateField
  rw [htaken]
  simp only [Option.bind_eq_bind, Option.bind_some, lookup_members]
  show (do
    let symbol ← textOf (codes h.symbol)
    let action ← Action.validate (.str (codes h.action.text))
    let reason ← textOf (codes h.reason)
    return HeldDecision.mk symbol action reason) = some h
  rw [textOf_codes, textOf_codes, action_validate]
  rfl

variable {laxInt : Value → Option ℤ}

theorem numbers_validate (hlax : ∀ n, laxInt (.int n) = some n) (ns : List ℤ) :
    validateList laxInt (.arr (ns.map .int)) = some ns :=
  mapM_values hlax ns

/-- No integer stands for an object. -/
theorem ids_numbers (ns : List ℤ) : ids (.arr (ns.map .int)) = .arr (ns.map .int) := by
  unfold ids
  dsimp only
  rw [List.map_map]
  rfl

theorem decisions_validate (hs : List HeldDecision) :
    validateList HeldDecision.validate (.arr (hs.map HeldDecision.value)) = some hs :=
  mapM_values held_validate hs

/-- **The object of an instance validates to it.** -/
theorem validate_value (hlax : ∀ n, laxInt (.int n) = some n) (v : VerdictInstance) :
    v.model.validate laxInt (.obj v.items) = some v := by
  unfold VerdictInstance.items
  cases v with
  | analyst v =>
    show (AnalystVerdict.validate laxInt _).map _ = _
    have htaken : validateKeys ["pitched", "withdrawn", "summary"]
        (.obj (itemsOf Content.value (VerdictInstance.analyst v).members)) = some _ :=
      keys_taken Content.value (List.Subset.refl _)
    unfold AnalystVerdict.validate validateField
    rw [htaken]
    simp only [Option.bind_eq_bind, Option.bind_some, lookup_members]
    show (Option.map VerdictInstance.analyst (do
      let pitched ← validateList laxInt (ids (.arr (v.pitched.map .int)))
      let withdrawn ← validateList laxInt (ids (.arr (v.withdrawn.map .int)))
      let summary ← textOf (codes v.summary)
      return AnalystVerdict.mk pitched withdrawn summary)) = some (.analyst v)
    rw [ids_numbers, ids_numbers, numbers_validate hlax, numbers_validate hlax, textOf_codes]
    rfl
  | pm v =>
    show (PmVerdict.validate laxInt _).map _ = _
    have htaken : validateKeys ["held", "calls", "summary"]
        (.obj (itemsOf Content.value (VerdictInstance.pm v).members)) = some _ :=
      keys_taken Content.value (List.Subset.refl _)
    unfold PmVerdict.validate validateField
    rw [htaken]
    simp only [Option.bind_eq_bind, Option.bind_some, lookup_members]
    show (Option.map VerdictInstance.pm (do
      let held ← validateList HeldDecision.validate (.arr (v.held.map HeldDecision.value))
      let calls ← validateList laxInt (.arr (v.calls.map .int))
      let summary ← textOf (codes v.summary)
      return PmVerdict.mk held calls summary)) = some (.pm v)
    rw [decisions_validate, numbers_validate hlax, textOf_codes]
    rfl
  | midday v =>
    show (MiddayVerdict.validate _).map _ = _
    have htaken : validateKeys ["held", "summary"]
        (.obj (itemsOf Content.value (VerdictInstance.midday v).members)) = some _ :=
      keys_taken Content.value (List.Subset.refl _)
    unfold MiddayVerdict.validate validateField
    rw [htaken]
    simp only [Option.bind_eq_bind, Option.bind_some, lookup_members]
    show (Option.map VerdictInstance.midday (do
      let held ← validateList HeldDecision.validate (.arr (v.held.map HeldDecision.value))
      let summary ← textOf (codes v.summary)
      return MiddayVerdict.mk held summary)) = some (.midday v)
    rw [decisions_validate, textOf_codes]
    rfl

/-- A decision taken for a verdict is refused: its fields are others. -/
theorem held_refused (model : VerdictModel) (h : HeldDecision) :
    model.validate laxInt h.value = none := by
  have hkeys : ∀ names : List String, "symbol" ∉ names → validateKeys names h.value = none := by
    intro names hnames
    exact keys_refused _ List.mem_cons_self hnames
  cases model with
  | analyst =>
    show (AnalystVerdict.validate laxInt _).map _ = _
    unfold AnalystVerdict.validate
    rw [hkeys _ (by decide)]
    rfl
  | pm =>
    show (PmVerdict.validate laxInt _).map _ = _
    unfold PmVerdict.validate
    rw [hkeys _ (by decide)]
    rfl
  | midday =>
    show (MiddayVerdict.validate _).map _ = _
    unfold MiddayVerdict.validate
    rw [hkeys _ (by decide)]
    rfl

/-- An object without members lacks the fields of every model. -/
theorem empty_refused (model : VerdictModel) : model.validate laxInt (.obj []) = none := by
  cases model with
  | analyst => rfl
  | pm => rfl
  | midday => rfl

end TradeDesk.Jobs
