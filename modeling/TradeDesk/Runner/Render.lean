import TradeDesk.Runner.Result

/-!
# Rendering whatever came back

`_to_result` promises never to raise, and guards the construction of the
`RunResult` for it. What it hands to the construction it computes before the
guard: the turns by `int`, the denials by `list`, the usage by `dict`, the
flag by `bool` and the two texts by `str`. A field may hold an object of any
class, and each of these runs code of that class.

`Interp` is what an interpreter makes of values of some type, exceptions
included, and `Interp.toResult` is `_to_result` on it. It returns a result
just when the conversions it makes do (`returns_iff`). On plain values it is
the runner's `toResult` (`toResult_plain`), where only the turns, the denials
and the usage can fail (`plain_converts_iff`).
-/

namespace TradeDesk.Runner

/-- What the interpreter makes of values. A string and `None` are texts as
they are, and `invalid` is what the construction of a `RunResult` raises, its
class and its message. -/
structure Interp (V E : Type) where
  bool : V → Except E Bool
  int : V → Except E ℤ
  list : V → Except E (List V)
  dict : V → Except E (List (V × V))
  str : V → Except E String
  text : V → Option (Option String)
  isDict : V → Option (List (V × V))
  invalid : Option (List (V × V)) → List V → List (V × V) → Option String

/-- A result message. Any field may be missing, and may hold anything. -/
structure Message (V : Type) where
  structuredOutput : Option V
  result : Option V
  isError : Option V
  subtype : Option V
  numTurns : Option V
  permissionDenials : Option V
  usage : Option V

/-- A `RunResult`. -/
structure Rendered (V : Type) where
  verdictRaw : Option (List (V × V))
  resultText : Option String
  isError : Bool
  subtype : Option String
  numTurns : ℤ
  permissionDenials : List V
  usage : List (V × V)
  durationS : ℚ
  timedOut : Bool
  teardownS : ℚ

namespace Interp

variable {V E α β : Type} (py : Interp V E) (secretValues : List String)

/-- `scrub` of a field, `None` where it is missing. -/
def scrub : Option V → Except E (Option String)
  | none => .ok none
  | some v => match py.text v with
    | some text => .ok (redact secretValues text)
    | none => do return redact secretValues (some (← py.str v))

/-- `convert(getattr(last, name, ..) or default)`, where the default is one of
the type already. -/
def orDefault (convert : V → Except E α) (default_ : α) : Option V → Except E α
  | none => .ok default_
  | some v => do if ← py.bool v then convert v else return default_

/-- `bool(getattr(last, "is_error", True))`. -/
def flag : Option V → Except E Bool
  | none => .ok true
  | some v => py.bool v

/-- The guarded construction: the result of these fields, or one that tells
what it raised. -/
def construct (r : Rendered V) : Rendered V :=
  match py.invalid r.verdictRaw r.permissionDenials r.usage with
  | none => r
  | some e => {
      verdictRaw := none
      resultText := redact secretValues (some ("runner could not render the result: " ++ e))
      isError := true
      subtype := some "error_runner_result"
      numTurns := 0
      permissionDenials := []
      usage := []
      durationS := r.durationS
      timedOut := r.timedOut
      teardownS := r.teardownS }

/-- `_to_result` of a run with a result message: the fields in the order they
are computed in, before the construction. -/
def render (m : Message V) (err : Option String) (durationS : ℚ) (timedOut : Bool)
    (teardownS : ℚ) : Except E (Rendered V) := do
  let verdict := m.structuredOutput.bind py.isDict
  let resultText ← py.scrub secretValues m.result
  let isError ← py.flag m.isError
  let subtype ← py.scrub secretValues m.subtype
  let turns ← py.orDefault py.int 0 m.numTurns
  let denials ← py.orDefault py.list [] m.permissionDenials
  let usage ← py.orDefault py.dict [] m.usage
  return py.construct secretValues ⟨verdict, resultText, isError || err.isSome, subtype, turns,
    denials, usage, durationS, timedOut, teardownS⟩

/-- `_to_result`. Without a message there is nothing to convert. -/
def toResult (last : Option (Message V)) (err : Option String) (durationS : ℚ) (timedOut : Bool)
    (teardownS : ℚ) : Except E (Rendered V) :=
  match last with
  | some m => py.render secretValues m err durationS timedOut teardownS
  | none => .ok {
      verdictRaw := none
      resultText := redact secretValues err
      isError := true
      subtype := redact secretValues
        (if err.isSome && !timedOut then some "error_runner_exception" else none)
      numTurns := 0
      permissionDenials := []
      usage := []
      durationS := durationS
      timedOut := timedOut
      teardownS := teardownS }

/-! ## When it returns -/

/-- The value counts as false, or the conversion takes it. -/
def Takes (convert : V → Except E α) (v : V) : Prop :=
  ∃ b, py.bool v = .ok b ∧ (b = true → ∃ a, convert v = .ok a)

/-- The value is a text, or `str` makes one of it. -/
def Shows (v : V) : Prop := py.text v = none → ∃ t, py.str v = .ok t

/-- Every field that is there can be converted. -/
structure Converts (m : Message V) : Prop where
  result : ∀ v ∈ m.result, py.Shows v
  isError : ∀ v ∈ m.isError, ∃ b, py.bool v = .ok b
  subtype : ∀ v ∈ m.subtype, py.Shows v
  turns : ∀ v ∈ m.numTurns, py.Takes py.int v
  denials : ∀ v ∈ m.permissionDenials, py.Takes py.list v
  usage : ∀ v ∈ m.usage, py.Takes py.dict v

theorem bind_returns {x : Except E α} {f : α → Except E β} :
    (∃ b, (x >>= f) = .ok b) ↔ ∃ a, x = .ok a ∧ ∃ b, f a = .ok b := by
  cases x with
  | error e =>
    constructor
    · rintro ⟨b, h⟩
      cases h
    · rintro ⟨a, h, _⟩
      cases h
  | ok a =>
    constructor
    · rintro ⟨b, h⟩
      exact ⟨a, rfl, b, h⟩
    · rintro ⟨a', h, b, hb⟩
      obtain rfl := Except.ok.inj h
      exact ⟨b, hb⟩

variable {py}

theorem scrub_returns {field : Option V} :
    (∃ t, py.scrub secretValues field = .ok t) ↔ ∀ v ∈ field, py.Shows v := by
  cases field with
  | none => exact ⟨fun _ v hv => (by cases hv), fun _ => ⟨none, rfl⟩⟩
  | some v =>
    unfold scrub Shows
    dsimp only
    cases htext : py.text v with
    | some text =>
      refine ⟨fun _ w hw hnone => ?_, fun _ => ⟨_, rfl⟩⟩
      obtain rfl := Option.mem_some.mp hw
      rw [htext] at hnone
      cases hnone
    | none =>
      dsimp only
      rw [bind_returns]
      constructor
      · rintro ⟨t, ht, _⟩ w hw _
        obtain rfl := Option.mem_some.mp hw
        exact ⟨t, ht⟩
      · intro h
        obtain ⟨t, ht⟩ := h v rfl htext
        exact ⟨t, ht, _, rfl⟩

theorem flag_returns {field : Option V} :
    (∃ b, py.flag field = .ok b) ↔ ∀ v ∈ field, ∃ b, py.bool v = .ok b := by
  cases field with
  | none => exact ⟨fun _ v hv => (by cases hv), fun _ => ⟨true, rfl⟩⟩
  | some v =>
    constructor
    · intro h w hw
      obtain rfl := Option.mem_some.mp hw
      exact h
    · exact fun h => h v rfl

theorem orDefault_returns {convert : V → Except E α} (default_ : α) {field : Option V} :
    (∃ a, py.orDefault convert default_ field = .ok a) ↔ ∀ v ∈ field, py.Takes convert v := by
  cases field with
  | none => exact ⟨fun _ v hv => (by cases hv), fun _ => ⟨default_, rfl⟩⟩
  | some v =>
    have hone : (∃ a, py.orDefault convert default_ (some v) = .ok a) ↔ py.Takes convert v := by
      unfold orDefault Takes
      rw [bind_returns]
      refine exists_congr fun b => and_congr_right fun _ => ?_
      cases b with
      | true => simp
      | false => exact ⟨fun _ h => (by cases h), fun _ => ⟨default_, rfl⟩⟩
    rw [hone]
    constructor
    · intro h w hw
      obtain rfl := Option.mem_some.mp hw
      exact h
    · exact fun h => h v rfl

/-- **A message is rendered just when its fields can be converted.** What
the construction makes of them does not matter: its exceptions are caught. -/
theorem render_returns {m : Message V} {err : Option String} {durationS teardownS : ℚ}
    {timedOut : Bool} : (∃ r, py.render secretValues m err durationS timedOut teardownS = .ok r) ↔
      py.Converts m := by
  unfold render
  constructor
  · intro h
    obtain ⟨text, htext, h⟩ := bind_returns.mp h
    obtain ⟨isError, herror, h⟩ := bind_returns.mp h
    obtain ⟨subtype, hsub, h⟩ := bind_returns.mp h
    obtain ⟨turns, hturns, h⟩ := bind_returns.mp h
    obtain ⟨denials, hdenials, h⟩ := bind_returns.mp h
    obtain ⟨usage, husage, _⟩ := bind_returns.mp h
    exact ⟨(scrub_returns secretValues).mp ⟨text, htext⟩, flag_returns.mp ⟨isError, herror⟩,
      (scrub_returns secretValues).mp ⟨subtype, hsub⟩, (orDefault_returns 0).mp ⟨turns, hturns⟩,
      (orDefault_returns []).mp ⟨denials, hdenials⟩, (orDefault_returns []).mp ⟨usage, husage⟩⟩
  · intro hc
    obtain ⟨text, htext⟩ := (scrub_returns secretValues).mpr hc.result
    obtain ⟨isError, herror⟩ := flag_returns.mpr hc.isError
    obtain ⟨subtype, hsub⟩ := (scrub_returns secretValues).mpr hc.subtype
    obtain ⟨turns, hturns⟩ := (orDefault_returns 0).mpr hc.turns
    obtain ⟨denials, hdenials⟩ := (orDefault_returns []).mpr hc.denials
    obtain ⟨usage, husage⟩ := (orDefault_returns []).mpr hc.usage
    exact bind_returns.mpr ⟨text, htext, bind_returns.mpr ⟨isError, herror, bind_returns.mpr
      ⟨subtype, hsub, bind_returns.mpr ⟨turns, hturns, bind_returns.mpr ⟨denials, hdenials,
        bind_returns.mpr ⟨usage, husage, _, rfl⟩⟩⟩⟩⟩⟩

/-- **A run is answered with a result just when the fields of its last
message can be converted**: each text by `str`, the flag by `bool`, and the
turns, the denials and the usage, where they count as true, by `int`, `list`
and `dict`. -/
theorem returns_iff {V E : Type} (py : Interp V E) (secretValues : List String)
    (last : Option (Message V)) (err : Option String) (durationS : ℚ) (timedOut : Bool)
    (teardownS : ℚ) :
    (∃ r, py.toResult secretValues last err durationS timedOut teardownS = .ok r) ↔
      ∀ m ∈ last, py.Converts m := by
  cases last with
  | none => exact ⟨fun _ m hm => (by cases hm), fun _ => ⟨_, rfl⟩⟩
  | some m =>
    refine (render_returns secretValues).trans ⟨fun hc m' hm => ?_, fun h => h m rfl⟩
    obtain rfl := Option.mem_some.mp hm
    exact hc

end Interp

/-! ## Plain values -/

/-- The interpreter on plain values. -/
def plain (py : Rendering) : Interp PyVal PyExc where
  bool v := .ok v.truthy
  int := PyVal.toInt
  list := PyVal.toList
  dict := PyVal.toDict
  str v := .ok (py.str v)
  text
    | .none => some none
    | .str s => some (some s)
    | _ => none
  isDict
    | .dict items => some items
    | _ => none
  invalid verdict denials usage := if validFields verdict denials usage then none
    else some ("ValidationError: " ++ py.invalid verdict denials usage)

def SdkMessage.fields (m : SdkMessage) : Message PyVal where
  structuredOutput := m.structuredOutput
  result := m.result
  isError := m.isError
  subtype := m.subtype
  numTurns := m.numTurns
  permissionDenials := m.permissionDenials
  usage := m.usage

def Rendered.plain (r : Rendered PyVal) : RunResult where
  verdictRaw := r.verdictRaw
  resultText := r.resultText
  isError := r.isError
  subtype := r.subtype
  numTurns := r.numTurns
  permissionDenials := r.permissionDenials
  usage := r.usage
  durationS := r.durationS
  timedOut := r.timedOut
  teardownS := r.teardownS

section

variable {py : Rendering} {secretValues : List String}

theorem plain_scrub (field : Option PyVal) : (plain py).scrub secretValues field =
    .ok (Runner.scrub py secretValues (PyVal.orElse field .none)) := by
  cases field with
  | none => rfl
  | some v => cases v <;> rfl

theorem plain_flag (field : Option PyVal) : (plain py).flag field =
    .ok (PyVal.orElse field (.bool true)).truthy := by
  cases field <;> rfl

theorem plain_orDefault {α : Type} (convert : PyVal → Except PyExc α) {default_ : α} {d : PyVal}
    (hd : convert d = .ok default_) (hfalsy : d.truthy = false) (field : Option PyVal) :
    (plain py).orDefault convert default_ field = convert (orFalsy field d) := by
  cases field with
  | none =>
    unfold orFalsy PyVal.orElse
    dsimp only [Option.getD_none]
    rw [hfalsy, if_neg (by decide), hd]
    rfl
  | some v =>
    unfold orFalsy PyVal.orElse
    dsimp only [Option.getD_some]
    show (if v.truthy then convert v else .ok default_) = _
    by_cases hv : v.truthy = true
    · rw [if_pos hv, if_pos hv]
    · rw [if_neg hv, if_neg hv, hd]

theorem plain_construct (r : Rendered PyVal) : ((plain py).construct secretValues r).plain =
    if validFields r.verdictRaw r.permissionDenials r.usage then r.plain else {
      verdictRaw := none
      resultText := redact secretValues (some
        ("runner could not render the result: ValidationError: " ++
          py.invalid r.verdictRaw r.permissionDenials r.usage))
      isError := true
      subtype := some "error_runner_result"
      numTurns := 0
      permissionDenials := []
      usage := []
      durationS := r.durationS
      timedOut := r.timedOut
      teardownS := r.teardownS } := by
  unfold Interp.construct
  by_cases hv : validFields r.verdictRaw r.permissionDenials r.usage = true
  · have hnone : (plain py).invalid r.verdictRaw r.permissionDenials r.usage = none := if_pos hv
    rw [if_pos hv, hnone]
  · have hsome : (plain py).invalid r.verdictRaw r.permissionDenials r.usage =
        some ("ValidationError: " ++ py.invalid r.verdictRaw r.permissionDenials r.usage) :=
      if_neg hv
    rw [if_neg hv, hsome]
    dsimp only
    rw [← String.append_assoc]
    rfl

theorem plain_turns (py : Rendering) (m : SdkMessage) :
    m.turns = (plain py).orDefault (plain py).int 0 m.fields.numTurns :=
  (plain_orDefault PyVal.toInt (d := .int 0) rfl rfl _).symm

theorem plain_denials (py : Rendering) (m : SdkMessage) :
    m.denials = (plain py).orDefault (plain py).list [] m.fields.permissionDenials :=
  (plain_orDefault PyVal.toList (d := .list []) rfl rfl _).symm

theorem plain_usageItems (py : Rendering) (m : SdkMessage) :
    m.usageItems = (plain py).orDefault (plain py).dict [] m.fields.usage :=
  (plain_orDefault PyVal.toDict (d := .dict []) rfl rfl _).symm

/-- **On plain values this is the runner's `_to_result`.** -/
theorem toResult_plain (last : Option SdkMessage) (err : Option String) (durationS : ℚ)
    (timedOut : Bool) (teardownS : ℚ) :
    toResult py secretValues last err durationS timedOut teardownS =
      ((plain py).toResult secretValues (last.map SdkMessage.fields) err durationS timedOut
        teardownS).map Rendered.plain := by
  cases last with
  | none => rfl
  | some m =>
    have hverdict : m.verdict = m.structuredOutput.bind (plain py).isDict := by
      unfold SdkMessage.verdict
      cases m.structuredOutput with
      | none => rfl
      | some v => cases v <;> rfl
    show messageResult py secretValues m err durationS timedOut teardownS =
      ((plain py).render secretValues m.fields err durationS timedOut teardownS).map Rendered.plain
    unfold messageResult Interp.render
    rw [plain_turns py, plain_denials py, plain_usageItems py, hverdict,
      show m.fields.result = m.result from rfl, show m.fields.subtype = m.subtype from rfl,
      show m.fields.isError = m.isError from rfl, plain_scrub, plain_scrub, plain_flag]
    cases (plain py).orDefault (plain py).int 0 m.fields.numTurns with
    | error e => rfl
    | ok turns =>
      cases (plain py).orDefault (plain py).list [] m.fields.permissionDenials with
      | error e => rfl
      | ok denials =>
        cases (plain py).orDefault (plain py).dict [] m.fields.usage with
        | error e => rfl
        | ok usage =>
          show (if validFields (m.structuredOutput.bind (plain py).isDict) denials usage then _
            else _) = Except.ok (((plain py).construct secretValues _).plain)
          rw [plain_construct]
          exact (apply_ite Except.ok _ _ _).symm

/-- Of plain values only the turns, the denials and the usage can fail. -/
theorem plain_converts_iff {m : SdkMessage} : (plain py).Converts m.fields ↔
    (∃ turns, m.turns = .ok turns) ∧ (∃ denials, m.denials = .ok denials) ∧
      ∃ usage, m.usageItems = .ok usage := by
  have hshows (v : PyVal) : (plain py).Shows v := fun _ => ⟨_, rfl⟩
  rw [plain_turns py, plain_denials py, plain_usageItems py, Interp.orDefault_returns, Interp.orDefault_returns,
    Interp.orDefault_returns]
  constructor
  · exact fun h => ⟨h.turns, h.denials, h.usage⟩
  · exact fun h => ⟨fun v _ => hshows v, fun v _ => ⟨_, rfl⟩, fun v _ => hshows v, h.1, h.2.1, h.2.2⟩

end

/-- A count of turns in words. -/
def wordyMessage : SdkMessage where
  isError := some (.bool false)
  structuredOutput := none
  result := some (.str "done")
  subtype := some (.str "success")
  numTurns := some (.str "many")
  permissionDenials := none
  usage := none

/-- It is not rendered: `int` raises before the guard. -/
theorem to_result_raises : ¬ ∀ (V E : Type) (py : Interp V E) (secretValues : List String)
    (last : Option (Message V)) (err : Option String) (durationS : ℚ) (timedOut : Bool)
    (teardownS : ℚ), ∃ r,
    py.toResult secretValues last err durationS timedOut teardownS = .ok r := by
  intro hall
  obtain ⟨r, hr⟩ := hall PyVal PyExc (plain plainRendering) [] (some wordyMessage.fields) none 12
    false 0
  have hraises : (plain plainRendering).toResult [] (some wordyMessage.fields) none 12 false 0 =
      .error .valueError := rfl
  rw [hraises] at hr
  cases hr

end TradeDesk.Runner
