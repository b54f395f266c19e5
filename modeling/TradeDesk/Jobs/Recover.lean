import TradeDesk.Jobs.Fences

/-!
# Recovering a verdict

The text of a verdict after any other text is recovered as that verdict:
the braces are tried from the right, the verdict's own first brace is the
first that is taken (`bracesFrom_text`), and what stands before it is never
looked at. What is lost is lost in the cleaning, which removes the fence
marks from the verdict's strings too; and an integer of more than 4300 digits
makes `raw_decode` raise.
-/

namespace TradeDesk.Jobs

open TradeDesk.JsonText TradeDesk.Lists

/-! ## From the right -/

variable {laxInt : Value → Option ℤ} {depth : ℕ} {model : VerdictModel}

theorem bracesFrom_join (a b : List Char) :
    bracesFrom (a ++ b) = (bracesFrom a).map (· ++ b) ++ bracesFrom b := by
  induction a with
  | nil => rfl
  | cons c a ih =>
    rw [List.cons_append, bracesFrom, bracesFrom, ih]
    split
    · rfl
    · rfl

theorem firstVerdict_skipped {skipped rest : List (List Char)}
    (h : ∀ cs ∈ skipped, tryVerdict laxInt depth model cs = .ok none) :
    firstVerdict laxInt depth model (skipped ++ rest) = firstVerdict laxInt depth model rest := by
  induction skipped with
  | nil => rfl
  | cons cs skipped ih =>
    rw [List.cons_append, firstVerdict, h cs List.mem_cons_self]
    exact ih fun cs' hcs' => h cs' (List.mem_cons_of_mem _ hcs')

/-- A verdict's text, tried from its first brace on, is that verdict. -/
theorem tryVerdict_text (hlax : ∀ n, laxInt (.int n) = some n) {v : VerdictInstance}
    {t : List Char} (h : v.Text t) :
    tryVerdict laxInt (depth + 3) v.model t = ifConvertible v.ints (some v) := by
  have hscan := rawDecode_text depth h
  unfold tryVerdict
  unfold ifConvertible at hscan ⊢
  by_cases hall : ∀ n ∈ v.ints, Convertible n
  · rw [if_pos hall] at hscan ⊢
    rw [hscan]
    show Except.ok (v.model.validate laxInt (.obj v.items)) = _
    rw [validate_value hlax]
  · rw [if_neg hall] at hscan ⊢
    rw [hscan]
    rfl

/-! ## The text the models write -/

/-- A character as `model_dump_json` writes it. -/
def dumpChar (c : Char) : List Char :=
  if c = '"' then ['\\', '"']
  else if c = '\\' then ['\\', '\\']
  else if c = '\n' then ['\\', 'n']
  else if c = '\r' then ['\\', 'r']
  else if c = '\t' then ['\\', 't']
  else if c.toNat = 8 then ['\\', 'b']
  else if c.toNat = 12 then ['\\', 'f']
  else if c.toNat < 0x20 then
    ['\\', 'u', '0', '0', Nat.digitChar (c.toNat / 16), Nat.digitChar (c.toNat % 16)]
  else [c]

def dumpString (s : String) : List Char := '"' :: (s.toList.flatMap dumpChar ++ ['"'])

def commaJoin : List (List Char) → List Char
  | [] => []
  | [t] => t
  | t :: ts => t ++ ',' :: commaJoin ts

def dumpArray (items : List (List Char)) : List Char := '[' :: (commaJoin items ++ [']'])

def dumpObject (members : List (String × List Char)) : List Char :=
  '\x7b' :: (commaJoin (members.map fun m => dumpString m.1 ++ ':' :: m.2) ++ ['\x7d'])

def HeldDecision.dump (h : HeldDecision) : List Char :=
  dumpObject (h.members.map fun m => (m.1, dumpString m.2))

def Content.dump : Content → List Char
  | .text s => dumpString s
  | .numbers ns => dumpArray (ns.map intText)
  | .decisions hs => dumpArray (hs.map HeldDecision.dump)

/-- `model_dump_json`. -/
def VerdictInstance.dump (v : VerdictInstance) : List Char :=
  dumpObject (v.members.map fun m => (m.1, m.2.dump))

theorem charText_dump (c : Char) : CharText c (dumpChar c) := by
  have hcontrol : ∀ n < 32, hex4 '0' '0' (Nat.digitChar (n / 16)) (Nat.digitChar (n % 16)) =
      some n := by decide
  unfold dumpChar
  by_cases hquote : c = '"'
  · rw [if_pos hquote, hquote]
    exact .short rfl
  rw [if_neg hquote]
  by_cases hslash : c = '\\'
  · rw [if_pos hslash, hslash]
    exact .short rfl
  rw [if_neg hslash]
  split
  next h =>
    rw [h]
    exact .short rfl
  next =>
    split
    next h =>
      rw [h]
      exact .short rfl
    next =>
      split
      next h =>
        rw [h]
        exact .short rfl
      next =>
        split
        next h => exact .short (congrArg some h.symm)
        next =>
          split
          next h => exact .short (congrArg some h.symm)
          next =>
            split
            next h => exact .unit (hcontrol c.toNat h)
            next h => exact .raw hquote hslash (Nat.not_lt.mp h)

theorem stringText_dump (s : String) : StringText s (dumpString s) := by
  refine ⟨s.toList.flatMap dumpChar, ?_, rfl⟩
  induction s.toList with
  | nil => exact .nil
  | cons c cs ih => exact .cons (charText_dump c) ih

theorem blank_nil : Blank [] := by
  intro c hc
  cases hc

theorem items_join {α : Type} {P : α → List Char → Prop} {f : α → List Char} {x : α}
    {xs : List α} (h : ∀ y ∈ x :: xs, P y (f y)) : Items P (x :: xs) (commaJoin ((x :: xs).map f)) := by
  induction xs generalizing x with
  | nil =>
    have hlast := Items.last (h x List.mem_cons_self) blank_nil
    rw [List.append_nil] at hlast
    exact hlast
  | cons y xs ih =>
    exact .more (h x List.mem_cons_self) blank_nil blank_nil
      (ih fun z hz => h z (List.mem_cons_of_mem _ hz))

theorem arrayText_dump {α : Type} {P : α → List Char → Prop} {f : α → List Char}
    (h : ∀ x, P x (f x)) (xs : List α) : ArrayText P xs (dumpArray (xs.map f)) := by
  cases xs with
  | nil => exact .inl ⟨rfl, [], blank_nil, rfl⟩
  | cons x xs => exact .inr ⟨[], _, blank_nil, items_join fun y _ => h y, rfl⟩

theorem objectText_dump {α : Type} {P : α → List Char → Prop} {f : α → List Char}
    (h : ∀ x, P x (f x)) (m : String × α) (members : List (String × α)) :
    ObjectText P (m :: members) (dumpObject ((m :: members).map fun m => (m.1, f m.2))) := by
  have hmember : ∀ m : String × α, MemberText P m (dumpString m.1 ++ ':' :: f m.2) := fun m =>
    ⟨dumpString m.1, [], [], f m.2, stringText_dump m.1, blank_nil, blank_nil, h m.2, rfl⟩
  refine ⟨[], _, blank_nil, items_join fun m _ => hmember m, ?_⟩
  unfold dumpObject
  rw [List.map_map]
  rfl

theorem contentText_dump (c : Content) : c.Text c.dump := by
  cases c with
  | text s => exact stringText_dump s
  | numbers ns => exact @arrayText_dump ℤ IntText intText (fun _ => rfl) ns
  | decisions hs => exact arrayText_dump (fun h => objectText_dump stringText_dump _ _) hs

/-- **The text a model writes is one of its texts.** -/
theorem text_dump (v : VerdictInstance) : v.Text v.dump := by
  cases v with
  | analyst v => exact objectText_dump contentText_dump _ _
  | pm v => exact objectText_dump contentText_dump _ _
  | midday v => exact objectText_dump contentText_dump _ _

/-! ## Recovery -/

/-- **What is recovered from a text that ends in a verdict's** is the verdict
of what the cleaning leaves, if its integers can be converted. -/
theorem recover_cleaned (hlax : ∀ n, laxInt (.int n) = some n) (hdepth : 3 ≤ depth)
    {v : VerdictInstance} {text : String} (h : v.Text text.toList) (pre : String) :
    ∃ v' : VerdictInstance, recoverVerdictFromText laxInt depth v.model (pre ++ text) =
      ifConvertible v.ints (some v') ∧ (v' = v ↔ ¬ fence <:+: text.toList) := by
  obtain ⟨d, rfl⟩ : ∃ d, depth = d + 3 := ⟨depth - 3, by omega⟩
  obtain ⟨v', htext, hmodel, hints, hsame⟩ := cleaned_text h
  refine ⟨v', ?_, hsame⟩
  -- the cleaning does not reach over the verdict's first brace
  have hsplit : cleaned (pre ++ text).toList = cleaned pre.toList ++ cleaned text.toList := by
    obtain ⟨a, r, -, -, hbrace⟩ := h
    rw [String.toList_append, hbrace, cleaned_append_cons (by decide)]
    rfl
  obtain ⟨later, hbraces, hlater⟩ := @bracesFrom_text laxInt d v'.model v' _ htext
  unfold recoverVerdictFromText
  rw [hsplit, bracesFrom_join, List.reverse_append, hbraces, List.reverse_cons,
    List.append_assoc, ← hmodel, ← hints,
    firstVerdict_skipped fun cs hcs => hlater cs (List.mem_reverse.mp hcs)]
  rw [List.singleton_append, firstVerdict, tryVerdict_text hlax htext]
  unfold ifConvertible
  by_cases hall : ∀ n ∈ v'.ints, Convertible n
  · rw [if_pos hall]
  · rw [if_neg hall]

/-- **Recovery undoes rendering** of a verdict, after any text, exactly if
its text has no fence mark in it and no integer of more than 4300 digits. -/
theorem recover_text_iff (hlax : ∀ n, laxInt (.int n) = some n) (hdepth : 3 ≤ depth)
    {v : VerdictInstance} {text : String} (h : v.Text text.toList) (pre : String) :
    recoverVerdictFromText laxInt depth v.model (pre ++ text) = .ok (some v) ↔
      ¬ fence <:+: text.toList ∧ ∀ n ∈ v.ints, Convertible n := by
  obtain ⟨v', hrecover, hsame⟩ := recover_cleaned hlax hdepth h pre
  rw [hrecover, ← hsame]
  unfold ifConvertible
  split
  next hall =>
    rw [Except.ok.injEq, Option.some.injEq]
    exact ⟨fun heq => ⟨heq, hall⟩, fun heq => heq.1⟩
  next hlong => exact ⟨fun heq => (by cases heq), fun heq => absurd heq.2 hlong⟩

/-- What pydantic makes of an integer, with nothing else taken for one. -/
private def onlyInt : Value → Option ℤ
  | .int n => some n
  | _ => none

private def quietDay : VerdictInstance :=
  .pm ⟨[⟨"NVDA", .hold, "guided \"up\" \x7b "⟩], [12], "PM: 1 held, 1 call"⟩

theorem recover_text_quietDay : recoverVerdictFromText onlyInt 10 quietDay.model
    ("Done. \x7b" ++ String.ofList quietDay.dump) = .ok (some quietDay) := by
  have htext : quietDay.Text (String.ofList quietDay.dump).toList := by
    rw [String.toList_ofList]
    exact text_dump quietDay
  refine (recover_text_iff (fun _ => rfl) (by decide) htext _).mpr ⟨?_, by decide +kernel⟩
  rw [String.toList_ofList]
  decide +kernel

private def fencedSummary : VerdictInstance := .midday ⟨[], "ran ```check``` twice"⟩

/-- A summary with fence marks in it loses them. -/
theorem recover_fencedSummary : ¬ ∀ (laxInt : Value → Option ℤ) (depth : ℕ) (v : VerdictInstance)
    (text pre : String), (∀ n, laxInt (.int n) = some n) → 3 ≤ depth → v.Text text.toList →
    recoverVerdictFromText laxInt depth v.model (pre ++ text) = .ok (some v) := by
  intro hclaim
  have htext : fencedSummary.Text (String.ofList fencedSummary.dump).toList := by
    rw [String.toList_ofList]
    exact text_dump fencedSummary
  have hrecover := hclaim onlyInt 10 fencedSummary _ "" (fun _ => rfl) (by decide) htext
  obtain ⟨v', hcleaned, hsame⟩ := @recover_cleaned onlyInt 10 (fun _ => rfl) (by decide) _ _ htext ""
  have hints : ∀ n ∈ fencedSummary.ints, Convertible n := by decide +kernel
  unfold ifConvertible at hcleaned
  rw [if_pos hints, hrecover, Except.ok.injEq, Option.some.injEq] at hcleaned
  refine hsame.mp hcleaned.symm ?_
  rw [String.toList_ofList]
  decide +kernel

end TradeDesk.Jobs
