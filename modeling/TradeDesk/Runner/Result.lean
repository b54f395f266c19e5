import Mathlib.Data.List.Dedup
import TradeDesk.Runner.Value
import TradeDesk.Lists.Replace

/-!
# What the runner returns

A run ends with the last result message of the SDK's stream, with an
exception, or at its timeout, and `_to_result` makes one `RunResult` of it
(`tc_runner/app.py`). The secrets the process holds are replaced in
`result_text` and `subtype`, whatever text they came from; replacing the
longest first, one after the other, leaves none of them. The structured
output, the permission denials and the usage are handed on as they came.

Python's `str()` of a value that is no string, and the text of pydantic's
error, are parameters: both end up in a text that is scrubbed.
-/

namespace TradeDesk.Runner

/-- A `ResultMessage`, as far as the runner reads it. Any field may be
missing, and may hold anything. -/
structure SdkMessage where
  isError : Option PyVal
  structuredOutput : Option PyVal
  result : Option PyVal
  subtype : Option PyVal
  numTurns : Option PyVal
  permissionDenials : Option PyVal
  usage : Option PyVal

structure RunResult where
  verdictRaw : Option (List (PyVal × PyVal))
  resultText : Option String
  isError : Bool
  subtype : Option String
  numTurns : ℤ
  permissionDenials : List PyVal
  usage : List (PyVal × PyVal)
  durationS : ℚ
  timedOut : Bool
  teardownS : ℚ

/-- Every string anywhere in a result. -/
def RunResult.strings (r : RunResult) : List String :=
  PyVal.itemStrings (r.verdictRaw.getD []) ++ r.resultText.toList ++ r.subtype.toList ++
    PyVal.stringsOf r.permissionDenials ++ PyVal.itemStrings r.usage

/-! ## The secrets -/

/-- The role's bearer of the request, and the two tokens of the process. -/
structure Secrets where
  mcpRoleToken : String
  runnerToken : String
  oauthToken : String

/-- `secrets_of`: those there are, longest first. -/
def secretsOf (s : Secrets) : List String :=
  (([s.mcpRoleToken, s.runnerToken, s.oauthToken].filter (· != "")).dedup).mergeSort
    fun a b => b.length ≤ a.length

def redacted : String := "[REDACTED]"

/-- `str.replace`. -/
def replaceText (text old new : String) : String :=
  String.ofList (Lists.replaceAll old.toList new.toList text.toList)

/-- `redact`. -/
def redact (secretValues : List String) (text : Option String) : Option String :=
  text.map fun text => secretValues.foldl (fun out value => replaceText out value redacted) text

/-! ## The result -/

/-- How a run came out: the stream ended, with an exception's text if it
raised, or the run was timed out, with a note if the reap failed. -/
inductive Outcome where
  | ended (messages : List SdkMessage) (raised : Option String)
  | timedOut (note : Option String)

/-- `_consume`: the last message that has an `is_error`. -/
def lastResult (messages : List SdkMessage) : Option SdkMessage :=
  (messages.filter fun m => m.isError.isSome).getLast?

/-- Python's `str()` of what is not a string, and the text of a validation
error. -/
structure Rendering where
  str : PyVal → String
  invalid : Option (List (PyVal × PyVal)) → List PyVal → List (PyVal × PyVal) → String

/-- `scrub`. -/
def scrub (py : Rendering) (secretValues : List String) : PyVal → Option String
  | .none => none
  | .str s => redact secretValues (some s)
  | v => redact secretValues (some (py.str v))

/-- `structured if isinstance(structured, dict) else None`. -/
def SdkMessage.verdict (m : SdkMessage) : Option (List (PyVal × PyVal)) :=
  match PyVal.orElse m.structuredOutput .none with
  | .dict items => some items
  | _ => none

/-- `getattr(..) or default`. -/
def orFalsy (v : Option PyVal) (default_ : PyVal) : PyVal :=
  let v := PyVal.orElse v default_
  if v.truthy then v else default_

/-- `int(getattr(last, "num_turns", 0) or 0)`. -/
def SdkMessage.turns (m : SdkMessage) : Except PyExc ℤ := (orFalsy m.numTurns (.int 0)).toInt

/-- `list(getattr(last, "permission_denials", None) or [])`. -/
def SdkMessage.denials (m : SdkMessage) : Except PyExc (List PyVal) :=
  (orFalsy m.permissionDenials (.list [])).toList

/-- `dict(getattr(last, "usage", None) or {})`. -/
def SdkMessage.usageItems (m : SdkMessage) : Except PyExc (List (PyVal × PyVal)) :=
  (orFalsy m.usage (.dict [])).toDict

/-- What pydantic asks of the fields: dicts with string keys. -/
def validFields (verdict : Option (List (PyVal × PyVal))) (denials : List PyVal)
    (usage : List (PyVal × PyVal)) : Bool :=
  verdict.all PyVal.stringKeys && denials.all PyVal.isStringDict && PyVal.stringKeys usage

/-- `_to_result` of a run with a result message. -/
def messageResult (py : Rendering) (secretValues : List String) (m : SdkMessage)
    (err : Option String) (durationS : ℚ) (timedOut : Bool) (teardownS : ℚ) :
    Except PyExc RunResult := do
  let turns ← m.turns
  let denials ← m.denials
  let usage ← m.usageItems
  if validFields m.verdict denials usage then
    return {
      verdictRaw := m.verdict
      resultText := scrub py secretValues (PyVal.orElse m.result .none)
      isError := (PyVal.orElse m.isError (.bool true)).truthy || err.isSome
      subtype := scrub py secretValues (PyVal.orElse m.subtype .none)
      numTurns := turns
      permissionDenials := denials
      usage := usage
      durationS := durationS
      timedOut := timedOut
      teardownS := teardownS }
  else
    return {
      verdictRaw := none
      resultText := redact secretValues (some
        ("runner could not render the result: ValidationError: " ++
          py.invalid m.verdict denials usage))
      isError := true
      subtype := some "error_runner_result"
      numTurns := 0
      permissionDenials := []
      usage := []
      durationS := durationS
      timedOut := timedOut
      teardownS := teardownS }

/-- `_to_result` of a run without one. -/
def errorResult (secretValues : List String) (err : Option String) (durationS : ℚ)
    (timedOut : Bool) (teardownS : ℚ) : RunResult where
  verdictRaw := none
  resultText := redact secretValues err
  isError := true
  subtype := redact secretValues
    (if err.isSome && !timedOut then some "error_runner_exception" else none)
  numTurns := 0
  permissionDenials := []
  usage := []
  durationS := durationS
  timedOut := timedOut
  teardownS := teardownS

/-- `_to_result`. -/
def toResult (py : Rendering) (secretValues : List String) (last : Option SdkMessage)
    (err : Option String) (durationS : ℚ) (timedOut : Bool) (teardownS : ℚ) :
    Except PyExc RunResult :=
  match last with
  | some m => messageResult py secretValues m err durationS timedOut teardownS
  | none => .ok (errorResult secretValues err durationS timedOut teardownS)

/-- What a run returns. -/
def runResult (py : Rendering) (s : Secrets) (durationS teardownS : ℚ) :
    Outcome → Except PyExc RunResult
  | .ended messages raised =>
    toResult py (secretsOf s) (lastResult messages) raised durationS false 0
  | .timedOut note => toResult py (secretsOf s) none note durationS true teardownS

/-! ## What is in it -/

def Occurs (value text : String) : Prop := value.toList <:+: text.toList

instance (value text : String) : Decidable (Occurs value text) :=
  inferInstanceAs (Decidable (_ <:+: _))

/-- No secret holds a bracket or is part of what replaces it. -/
def Secrets.Plain (s : Secrets) : Prop :=
  ∀ v ∈ secretsOf s, '[' ∉ v.toList ∧ ']' ∉ v.toList ∧ ¬ Occurs v redacted

/-- No secret is anywhere in the result. -/
def RunResult.Clean (s : Secrets) (r : RunResult) : Prop :=
  ∀ v ∈ secretsOf s, ∀ t ∈ r.strings, ¬ Occurs v t

/-- What the message has the runner hand on as it is holds no secret. -/
def SdkMessage.Discreet (s : Secrets) (m : SdkMessage) : Prop :=
  ∀ turns denials usage, m.turns = .ok turns → m.denials = .ok denials →
    m.usageItems = .ok usage → ∀ v ∈ secretsOf s,
      if validFields m.verdict denials usage then
        ∀ t ∈ PyVal.itemStrings (m.verdict.getD []) ++ PyVal.stringsOf denials ++
          PyVal.itemStrings usage, ¬ Occurs v t
      else ¬ Occurs v "error_runner_result"

def Outcome.Discreet (s : Secrets) : Outcome → Prop
  | .ended messages _ => ∀ m, lastResult messages = some m → m.Discreet s
  | .timedOut _ => True

theorem mem_secretsOf {s : Secrets} {v : String} :
    v ∈ secretsOf s ↔ v ∈ [s.mcpRoleToken, s.runnerToken, s.oauthToken] ∧ v ≠ "" := by
  unfold secretsOf
  rw [List.mem_mergeSort, List.mem_dedup, List.mem_filter]
  simp

theorem foldl_replaceText (values : List String) (text : String) :
    (values.foldl (fun out value => replaceText out value redacted) text).toList =
      (values.map String.toList).foldl
        (fun out w => Lists.replaceAll w redacted.toList out) text.toList := by
  induction values generalizing text with
  | nil => rfl
  | cons v vs ih =>
    rw [List.foldl_cons, ih, List.map_cons, List.foldl_cons]
    unfold replaceText
    rw [String.toList_ofList]

/-- What replaces a secret, between its two marks. -/
def marked : List Char := "REDACTED".toList

theorem redacted_toList : redacted.toList = '[' :: marked ++ [']'] := by decide

theorem Secrets.Plain.apart {s : Secrets} (hs : s.Plain) {w : List Char}
    (hw : w ∈ (secretsOf s).map String.toList) : Lists.Apart '[' ']' marked w := by
  obtain ⟨v, hv, rfl⟩ := List.mem_map.mp hw
  obtain ⟨ho, hc, hin⟩ := hs v hv
  have hne : v.toList ≠ [] := fun h => (mem_secretsOf.mp hv).2 (String.toList_eq_nil_iff.mp h)
  have hin : ¬ v.toList <:+: '[' :: marked ++ [']'] := by
    rw [← redacted_toList]
    exact hin
  exact ⟨hne, ho, hc, hin⟩

/-- **A scrubbed text holds no secret.** -/
theorem redact_clean {s : Secrets} (hs : s.Plain) {text : Option String} :
    ∀ v ∈ secretsOf s, ∀ t ∈ (redact (secretsOf s) text).toList, ¬ Occurs v t := by
  intro v hv t ht
  obtain ⟨x, _, rfl⟩ := Option.map_eq_some_iff.mp (Option.mem_toList.mp ht)
  unfold Occurs
  rw [foldl_replaceText, redacted_toList]
  exact Lists.not_infix_foldl (fun _ hw => hs.apart hw) _ (List.mem_map_of_mem hv)

theorem scrub_clean {s : Secrets} (hs : s.Plain) {py : Rendering} {x : PyVal} :
    ∀ v ∈ secretsOf s, ∀ t ∈ (scrub py (secretsOf s) x).toList, ¬ Occurs v t := by
  intro v hv t ht
  unfold scrub at ht
  split at ht
  · cases ht
  · exact redact_clean hs v hv t ht
  · exact redact_clean hs v hv t ht

/-- A result whose two texts are clean is as clean as what it hands on. -/
theorem clean_iff {s : Secrets} {r : RunResult}
    (htext : ∀ v ∈ secretsOf s, ∀ t ∈ r.resultText.toList, ¬ Occurs v t)
    (hsub : ∀ v ∈ secretsOf s, ∀ t ∈ r.subtype.toList, ¬ Occurs v t) :
    r.Clean s ↔ ∀ v ∈ secretsOf s, ∀ t ∈ PyVal.itemStrings (r.verdictRaw.getD []) ++
      PyVal.stringsOf r.permissionDenials ++ PyVal.itemStrings r.usage, ¬ Occurs v t := by
  constructor
  · intro h v hv t ht
    refine h v hv t ?_
    unfold RunResult.strings
    simp only [List.mem_append] at ht ⊢
    tauto
  · intro h v hv t ht
    unfold RunResult.strings at ht
    simp only [List.mem_append] at ht
    rcases ht with (((ht | ht) | ht) | ht) | ht
    · exact h v hv t (by simp [ht])
    · exact htext v hv t ht
    · exact hsub v hv t ht
    · exact h v hv t (by simp [ht])
    · exact h v hv t (by simp [ht])

/-- A run without a result message hands nothing on. -/
theorem errorResult_clean {s : Secrets} (hs : s.Plain) {err : Option String} {d e : ℚ}
    {timedOut : Bool} : (errorResult (secretsOf s) err d timedOut e).Clean s := by
  refine (clean_iff (redact_clean hs) (redact_clean hs)).mpr ?_
  intro v hv t ht
  simp [errorResult, PyVal.itemStrings, PyVal.stringsOf] at ht

/-- A message whose three conversions succeed. -/
theorem messageResult_ok (py : Rendering) (secretValues : List String) {m : SdkMessage}
    (err : Option String) (d e : ℚ) (timedOut : Bool) {turns : ℤ} {denials : List PyVal}
    {usage : List (PyVal × PyVal)} (ht : m.turns = .ok turns) (hd : m.denials = .ok denials)
    (hu : m.usageItems = .ok usage) :
    ∃ r, messageResult py secretValues m err d timedOut e = .ok r ∧
      if validFields m.verdict denials usage then
        r.verdictRaw = m.verdict ∧ r.permissionDenials = denials ∧ r.usage = usage ∧
        r.resultText = scrub py secretValues (PyVal.orElse m.result .none) ∧
        r.subtype = scrub py secretValues (PyVal.orElse m.subtype .none)
      else
        r.verdictRaw = none ∧ r.permissionDenials = [] ∧ r.usage = [] ∧
        r.resultText = redact secretValues (some
          ("runner could not render the result: ValidationError: " ++
            py.invalid m.verdict denials usage)) ∧
        r.subtype = some "error_runner_result" := by
  unfold messageResult
  rw [ht, hd, hu]
  by_cases hv : validFields m.verdict denials usage = true
  · exact ⟨_, if_pos hv, by rw [if_pos hv]; exact ⟨rfl, rfl, rfl, rfl, rfl⟩⟩
  · exact ⟨_, if_neg hv, by rw [if_neg hv]; exact ⟨rfl, rfl, rfl, rfl, rfl⟩⟩

/-- A message one of whose conversions raises has no result. -/
theorem messageResult_isOk {py : Rendering} {secretValues : List String} {m : SdkMessage}
    {err : Option String} {d e : ℚ} {timedOut : Bool} {r : RunResult}
    (h : messageResult py secretValues m err d timedOut e = .ok r) :
    ∃ turns denials usage, m.turns = .ok turns ∧ m.denials = .ok denials ∧
      m.usageItems = .ok usage := by
  unfold messageResult at h
  cases ht : m.turns with
  | error x => rw [ht] at h; cases h
  | ok turns =>
    cases hd : m.denials with
    | error x => rw [ht, hd] at h; cases h
    | ok denials =>
      cases hu : m.usageItems with
      | error x => rw [ht, hd, hu] at h; cases h
      | ok usage => exact ⟨turns, denials, usage, rfl, rfl, rfl⟩

/-- What a rendered message gives is clean exactly if what it hands on is. -/
theorem messageResult_clean_iff {s : Secrets} (hs : s.Plain) {py : Rendering} {m : SdkMessage}
    {err : Option String} {d e : ℚ} {timedOut : Bool} :
    (∀ r, messageResult py (secretsOf s) m err d timedOut e = .ok r → r.Clean s) ↔
      m.Discreet s := by
  constructor
  · intro h turns denials usage ht hd hu
    obtain ⟨r, hr, hparts⟩ := messageResult_ok py (secretsOf s) err d e
      timedOut ht hd hu
    have hclean := h r hr
    intro v hv
    split <;> rename_i hvalid
    · rw [if_pos hvalid] at hparts
      obtain ⟨hverdict, hdenials, husage, htext, hsub⟩ := hparts
      have hc := (clean_iff (htext ▸ scrub_clean hs) (hsub ▸ scrub_clean hs)).mp hclean v hv
      rw [hverdict, hdenials, husage] at hc
      exact hc
    · rw [if_neg hvalid] at hparts
      obtain ⟨_, _, _, _, hsub⟩ := hparts
      refine hclean v hv _ ?_
      simp [RunResult.strings, hsub]
  · intro h r hr
    obtain ⟨turns, denials, usage, ht, hd, hu⟩ := messageResult_isOk hr
    obtain ⟨r', hr', hparts⟩ := messageResult_ok py (secretsOf s) err d e
      timedOut ht hd hu
    obtain rfl : r = r' := Except.ok.inj (hr.symm.trans hr')
    have hm := h turns denials usage ht hd hu
    split at hparts <;> rename_i hvalid
    · obtain ⟨hverdict, hdenials, husage, htext, hsub⟩ := hparts
      refine (clean_iff (htext ▸ scrub_clean hs) (hsub ▸ scrub_clean hs)).mpr ?_
      intro v hv
      have hv := hm v hv
      rw [if_pos hvalid] at hv
      rw [hverdict, hdenials, husage]
      exact hv
    · obtain ⟨hverdict, hdenials, husage, htext, hsub⟩ := hparts
      have hsubClean : ∀ v ∈ secretsOf s, ∀ t ∈ r.subtype.toList, ¬ Occurs v t := by
        intro v hv t htt
        have hv := hm v hv
        rw [if_neg hvalid] at hv
        rw [hsub, Option.toList_some, List.mem_singleton] at htt
        rw [htt]
        exact hv
      refine (clean_iff (htext ▸ redact_clean hs) hsubClean).mpr ?_
      intro v _ t htt
      simp [hverdict, hdenials, husage, PyVal.itemStrings, PyVal.stringsOf] at htt

/-- **What the runner returns holds no secret exactly if nothing it hands on
unscrubbed does**: the structured output, the permission denials and the
usage of the last result message. -/
theorem returns_no_secret_iff {py : Rendering} {s : Secrets} {durationS teardownS : ℚ}
    {outcome : Outcome} (hs : s.Plain) :
    (∀ r, runResult py s durationS teardownS outcome = .ok r → r.Clean s) ↔
      outcome.Discreet s := by
  cases outcome with
  | timedOut note =>
    refine ⟨fun _ => trivial, ?_⟩
    intro _ r hr
    obtain rfl := Except.ok.inj hr
    exact errorResult_clean hs
  | ended messages raised =>
    show (∀ r, toResult py (secretsOf s) (lastResult messages) raised durationS false 0 = .ok r →
      r.Clean s) ↔ ∀ m, lastResult messages = some m → m.Discreet s
    generalize lastResult messages = last
    cases last with
    | none =>
      constructor
      · intro _ m hm
        cases hm
      intro _ r hr
      obtain rfl := Except.ok.inj hr
      exact errorResult_clean hs
    | some m =>
      refine (messageResult_clean_iff hs).trans ?_
      constructor
      · intro h m' hm'
        obtain rfl := Option.some.inj hm'
        exact h
      · intro h
        exact h m rfl

/-! ## A leak -/

def sampleSecrets : Secrets where
  mcpRoleToken := "role-7f3a"
  runnerToken := "run-91"
  oauthToken := "oauth-c4"

theorem sampleSecrets_plain : sampleSecrets.Plain := by
  intro v hv
  replace hv := (mem_secretsOf.mp hv).1
  revert v
  decide +kernel

/-- A result whose text repeats the bearer of the request. -/
def tellingMessage (note : String) : SdkMessage where
  isError := some (.bool false)
  structuredOutput := some (.dict [(.str "note", .str note)])
  result := some (.str "done, as role-7f3a")
  subtype := some (.str "success")
  numTurns := some (.int 3)
  permissionDenials := none
  usage := some (.dict [(.str "input_tokens", .int 120)])

def plainRendering : Rendering where
  str := fun _ => "?"
  invalid := fun _ _ _ => ""

/-- In the text it is scrubbed. -/
theorem returns_no_secret_text : ∃ r,
    runResult plainRendering sampleSecrets 12 0 (.ended [tellingMessage "all done"] none) =
      .ok r ∧ r.Clean sampleSecrets := by
  have hresult : runResult plainRendering sampleSecrets 12 0
    (.ended [tellingMessage "all done"] none) = .ok _ := rfl
  refine ⟨_, hresult, (returns_no_secret_iff sampleSecrets_plain).mpr ?_ _ hresult⟩
  intro m hm turns denials usage _ hd hu
  obtain rfl := Option.some.inj hm
  obtain rfl := Except.ok.inj hd
  obtain rfl := Except.ok.inj hu
  intro v hv
  replace hv := (mem_secretsOf.mp hv).1
  revert v
  decide +kernel

/-- In the structured output it is handed on. -/
theorem verdict_leaks : sampleSecrets.Plain ∧ ∃ r,
    runResult plainRendering sampleSecrets 12 0
      (.ended [tellingMessage "my token is role-7f3a"] none) = .ok r ∧
    ¬ r.Clean sampleSecrets := by
  refine ⟨sampleSecrets_plain, _, rfl, ?_⟩
  intro h
  refine h "role-7f3a" (mem_secretsOf.mpr (by decide +kernel)) "my token is role-7f3a" (by decide +kernel) ?_
  decide +kernel

end TradeDesk.Runner
