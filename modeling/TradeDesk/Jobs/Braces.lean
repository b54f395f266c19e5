import TradeDesk.Jobs.VerdictText

/-!
# The braces of a verdict's text

The recovery tries each opening brace from the right. Of those in a
verdict's text, only the first is taken for the verdict:

* a brace inside a string is followed by the rest of the string, in which a
  quote is escaped. So no key follows it, unless it is the string's own
  closing quote that is taken for the opening one of a key. What follows that
  is the text up to the next string, and the next string is a key: there is
  no colon after its opening quote (`NoKey`);
* the brace of a held decision is read as that decision, which is no verdict.
-/

namespace TradeDesk.Jobs

open TradeDesk.JsonText

variable {α : Type} {laxInt : Value → Option ℤ} {depth : ℕ} {model : VerdictModel}
  {tail : List Char}

/-! ## Characters of a spelling -/

/-- A character that is part of no escape stands for itself. -/
theorem charText_raw {c d : Char} {unit : List Char} (h : CharText c unit)
    (hd : d ≠ '\\' ∧ d ≠ 'u' ∧ escapeValue d = none ∧ hexValue d = none) (hmem : d ∈ unit) :
    unit = [c] ∧ c = d := by
  obtain ⟨hslash, hu, hescape, hhex⟩ := hd
  have hdigits : ∀ {x y z w : Char} {n : ℕ}, hex4 x y z w = some n → d ∉ [x, y, z, w] := by
    intro x y z w n hn hmem
    have hparts : hexValue x ≠ none ∧ hexValue y ≠ none ∧ hexValue z ≠ none ∧
        hexValue w ≠ none := by
      unfold hex4 at hn
      obtain ⟨a, ha, hn⟩ := Option.bind_eq_some_iff.mp hn
      obtain ⟨b, hb, hn⟩ := Option.bind_eq_some_iff.mp hn
      obtain ⟨c, hc, hn⟩ := Option.bind_eq_some_iff.mp hn
      obtain ⟨e, he, -⟩ := Option.bind_eq_some_iff.mp hn
      rw [ha, hb, hc, he]
      exact ⟨nofun, nofun, nofun, nofun⟩
    simp only [List.mem_cons, List.not_mem_nil, or_false] at hmem
    obtain ⟨hx, hy, hz, hw⟩ := hparts
    rcases hmem with rfl | rfl | rfl | rfl
    · exact hx hhex
    · exact hy hhex
    · exact hz hhex
    · exact hw hhex
  cases h with
  | raw _ _ _ => exact ⟨rfl, (List.mem_singleton.mp hmem).symm⟩
  | @short e he =>
    simp only [List.mem_cons, List.not_mem_nil, or_false] at hmem
    rcases hmem with rfl | rfl
    · exact absurd rfl hslash
    · rw [hescape] at he
      cases he
  | @unit x y z w hx =>
    rcases List.mem_cons.mp hmem with rfl | hmem
    · exact absurd rfl hslash
    · rcases List.mem_cons.mp hmem with rfl | hmem
      · exact absurd rfl hu
      · exact absurd hmem (hdigits hx)
  | @pair x y z w x' y' z' w' hi lo hx hx' _ _ _ =>
    have hmark : d ∉ ['\\', 'u'] := by
      simp only [List.mem_cons, List.not_mem_nil, or_false]
      exact fun h => h.elim hslash hu
    have hparts : d ∈ ['\\', 'u'] ++ ([x, y, z, w] ++ (['\\', 'u'] ++ [x', y', z', w'])) := hmem
    rcases List.mem_append.mp hparts with hmem | hmem
    · exact absurd hmem hmark
    · rcases List.mem_append.mp hmem with hmem | hmem
      · exact absurd hmem (hdigits hx)
      · rcases List.mem_append.mp hmem with hmem | hmem
        · exact absurd hmem hmark
        · exact absurd hmem (hdigits hx')

theorem spelled_notMem {d : Char} {cs body : List Char} (h : Spelled cs body)
    (hd : d ≠ '\\' ∧ d ≠ 'u' ∧ escapeValue d = none ∧ hexValue d = none) (hmem : d ∉ cs) :
    d ∉ body := by
  induction h with
  | nil => exact List.not_mem_nil
  | cons hchar _ ih =>
    rw [List.mem_append]
    rintro (hunit | hbody)
    · obtain ⟨-, rfl⟩ := charText_raw hchar hd hunit
      exact hmem List.mem_cons_self
    · exact ih (fun h => hmem (List.mem_cons_of_mem _ h)) hbody

/-- A spelling begins with its first character or with an escape. -/
theorem charText_head {c : Char} {unit : List Char} (h : CharText c unit) :
    ∃ d ds, unit = d :: ds ∧ d ≠ '"' ∧ (d = c ∧ ds = [] ∨ d = '\\') := by
  cases h with
  | raw hquote _ _ => exact ⟨c, [], rfl, hquote, .inl ⟨rfl, rfl⟩⟩
  | short _ => exact ⟨'\\', _, rfl, by decide, .inr rfl⟩
  | unit _ => exact ⟨'\\', _, rfl, by decide, .inr rfl⟩
  | pair _ _ _ _ _ => exact ⟨'\\', _, rfl, by decide, .inr rfl⟩

/-! ## No key follows -/

/-- What a string that begins here would be followed by is no colon. -/
def NoKey (tail : List Char) : Prop :=
  ∀ us rest, scanUnits tail = some (us, rest) → ∀ cs, skipBlanks rest ≠ ':' :: cs

theorem noKey_nil : NoKey [] := by
  intro us rest h
  rw [scanUnits.eq_def] at h
  cases h

theorem noKey_cons {c : Char} (hquote : c ≠ '"') (hslash : c ≠ '\\') (h : NoKey tail) :
    NoKey (c :: tail) := by
  intro us rest hscan
  rw [scanUnits.eq_def] at hscan
  dsimp only at hscan
  rw [if_neg hquote, if_neg hslash] at hscan
  split at hscan
  · cases hscan
  · obtain ⟨r, hr, heq⟩ := Option.map_eq_some_iff.mp hscan
    obtain ⟨-, rfl⟩ := Prod.mk.inj heq
    exact h r.1 r.2 hr

theorem noKey_append {a : List Char} (ha : ∀ c ∈ a, c ≠ '"' ∧ c ≠ '\\') (h : NoKey tail) :
    NoKey (a ++ tail) := by
  induction a with
  | nil => exact h
  | cons c a ih =>
    obtain ⟨hquote, hslash⟩ := ha c List.mem_cons_self
    exact noKey_cons hquote hslash (ih fun d hd => ha d (List.mem_cons_of_mem _ hd))

theorem noKey_quote {c : Char} {cs : List Char} (hblank : isBlank c = false) (hcolon : c ≠ ':') :
    NoKey ('"' :: c :: cs) := by
  intro us rest hscan cs' hskip
  rw [scanUnits_quote] at hscan
  obtain ⟨-, rfl⟩ := Prod.mk.inj (Option.some.inj hscan)
  rw [skipBlanks_cons hblank] at hskip
  exact hcolon (List.cons.inj hskip).1

/-- Blanks are neither quotes nor braces. -/
theorem blank_plain {ws : List Char} (h : Blank ws) :
    ∀ c ∈ ws, c ≠ '"' ∧ c ≠ '\\' ∧ c ≠ '\x7b' := by
  intro c hc
  have hblank := h c hc
  unfold isBlank at hblank
  rw [decide_eq_true_iff] at hblank
  rcases hblank with rfl | rfl | rfl | rfl
  · decide
  · decide
  · decide
  · decide

/-! ## Braces that are passed over -/

/-- No brace of the text is taken for the verdict. -/
def Skipped (laxInt : Value → Option ℤ) (depth : ℕ) (model : VerdictModel) (tail : List Char) :
    Prop :=
  ∀ cs ∈ bracesFrom tail, tryVerdict laxInt (depth + 3) model cs = .ok none

theorem skipped_nil : Skipped laxInt depth model [] := by
  intro cs hcs
  cases hcs

theorem bracesFrom_append {a : List Char} (ha : '\x7b' ∉ a) :
    bracesFrom (a ++ tail) = bracesFrom tail := by
  induction a with
  | nil => rfl
  | cons c a ih =>
    have hc : c ≠ '\x7b' := fun heq => ha (heq ▸ List.mem_cons_self)
    rw [List.cons_append, bracesFrom, if_neg hc]
    exact ih fun h => ha (List.mem_cons_of_mem _ h)

theorem skipped_append {a : List Char} (ha : '\x7b' ∉ a) (h : Skipped laxInt depth model tail) :
    Skipped laxInt depth model (a ++ tail) := by
  unfold Skipped
  rw [bracesFrom_append ha]
  exact h

theorem skipped_cons {c : Char} (hc : c ≠ '\x7b') (h : Skipped laxInt depth model tail) :
    Skipped laxInt depth model (c :: tail) :=
  @skipped_append laxInt depth model tail [c] (fun hmem => hc (List.mem_singleton.mp hmem).symm) h

theorem skipped_brace (htry : tryVerdict laxInt (depth + 3) model ('\x7b' :: tail) = .ok none)
    (h : Skipped laxInt depth model tail) : Skipped laxInt depth model ('\x7b' :: tail) := by
  intro cs hcs
  rw [bracesFrom, if_pos rfl] at hcs
  rcases List.mem_cons.mp hcs with rfl | hcs
  · exact htry
  · exact h cs hcs

theorem blank_notBrace {ws : List Char} (h : Blank ws) : '\x7b' ∉ ws :=
  fun hmem => (blank_plain h _ hmem).2.2 rfl

/-! ## Inside a string -/

/-- After its blanks the rest of a string begins with no quote, unless it is
the closing one. -/
theorem spelled_skipBlanks {cs body : List Char} (h : Spelled cs body) :
    ∃ c rest, skipBlanks (body ++ '"' :: tail) = c :: rest ∧ (c = '"' → rest = tail) := by
  induction h with
  | nil => exact ⟨'"', tail, skipBlanks_cons (by decide), fun _ => rfl⟩
  | @cons c unit cs body hchar _ ih =>
    obtain ⟨d, ds, rfl, hquote, hd⟩ := charText_head hchar
    rw [List.append_assoc, List.cons_append]
    by_cases hblank : isBlank d = true
    · rcases hd with ⟨-, rfl⟩ | rfl
      · have hskip : skipBlanks (d :: (body ++ '"' :: tail)) = skipBlanks (body ++ '"' :: tail) :=
          List.dropWhile_cons_of_pos hblank
        rw [List.nil_append, hskip]
        exact ih
      · exact absurd hblank (by decide)
    · rw [Bool.not_eq_true] at hblank
      exact ⟨d, _, skipBlanks_cons hblank, fun h => absurd h hquote⟩

theorem scanMember_noKey (value : List Char → Scan Value) (h : NoKey tail) :
    scanMember value ('"' :: tail) = .error .malformed := by
  unfold scanMember
  dsimp only
  rw [if_pos rfl]
  unfold scanString
  cases hunits : scanUnits tail with
  | none => rfl
  | some r =>
    obtain ⟨us, rest⟩ := r
    dsimp only
    unfold scanKeyed
    cases hskip : skipBlanks rest with
    | nil => rfl
    | cons c cs =>
      dsimp only
      rw [if_neg]
      rintro rfl
      exact h us rest hunits cs hskip

/-- **A brace inside a string is passed over.** -/
theorem tryVerdict_string {cs body : List Char} (h : Spelled cs body) (hkey : NoKey tail) :
    tryVerdict laxInt (depth + 3) model ('\x7b' :: (body ++ '"' :: tail)) = .ok none := by
  obtain ⟨c, rest, hskip, hc⟩ := @spelled_skipBlanks tail cs body h
  have hdecode : rawDecode (depth + 3) ('\x7b' :: (body ++ '"' :: tail)) =
      mapValue .obj (scanBracketed (scanMember (scanOnce (depth + 2))) '\x7d'
        (body ++ '"' :: tail)) := scanValue_object _ _
  unfold tryVerdict
  rw [hdecode]
  unfold scanBracketed
  rw [hskip]
  dsimp only
  by_cases hclose : c = '\x7d'
  · -- an object without members
    rw [if_pos hclose]
    show Except.ok (model.validate laxInt (.obj [])) = _
    rw [empty_refused]
  · rw [if_neg hclose]
    have hmember : scanMember (scanOnce (depth + 2)) (c :: rest) = .error .malformed := by
      by_cases hquote : c = '"'
      · rw [hquote, hc hquote]
        exact scanMember_noKey _ hkey
      · unfold scanMember
        dsimp only
        rw [if_neg hquote]
    rw [scanItems_fail rest.length hmember]
    rfl

theorem skipped_spelled {cs body : List Char} (h : Spelled cs body)
    (hskip : Skipped laxInt depth model tail) (hkey : NoKey tail) :
    Skipped laxInt depth model (body ++ '"' :: tail) := by
  induction h with
  | nil => exact skipped_cons (by decide) hskip
  | @cons c unit cs body hchar hspelled ih =>
    rw [List.append_assoc]
    by_cases hbrace : '\x7b' ∈ unit
    · obtain ⟨rfl, rfl⟩ := charText_raw hchar (by decide) hbrace
      exact skipped_brace (tryVerdict_string hspelled hkey) ih
    · exact skipped_append hbrace ih

theorem skipped_string {s : String} {t : List Char} (h : StringText s t)
    (hskip : Skipped laxInt depth model tail) (hkey : NoKey tail) :
    Skipped laxInt depth model (t ++ tail) := by
  obtain ⟨body, hbody, rfl⟩ := h
  have htext : '"' :: (body ++ ['"']) ++ tail = '"' :: (body ++ '"' :: tail) := by simp
  rw [htext]
  exact skipped_cons (by decide) (skipped_spelled hbody hskip hkey)

/-! ## Items -/

/-- Before it nothing is a key, and its braces are passed over. -/
structure Passed (laxInt : Value → Option ℤ) (depth : ℕ) (model : VerdictModel)
    (tail : List Char) : Prop where
  skipped : Skipped laxInt depth model tail
  noKey : NoKey tail

theorem Passed.nil : Passed laxInt depth model [] := ⟨skipped_nil, noKey_nil⟩

theorem Passed.cons {c : Char} (h : Passed laxInt depth model tail)
    (hc : c ≠ '"' ∧ c ≠ '\\' ∧ c ≠ '\x7b') : Passed laxInt depth model (c :: tail) :=
  ⟨skipped_cons hc.2.2 h.skipped, noKey_cons hc.1 hc.2.1 h.noKey⟩

theorem Passed.append {a : List Char} (h : Passed laxInt depth model tail)
    (ha : ∀ c ∈ a, c ≠ '"' ∧ c ≠ '\\' ∧ c ≠ '\x7b') : Passed laxInt depth model (a ++ tail) := by
  refine ⟨skipped_append (fun hmem => (ha _ hmem).2.2 rfl) h.skipped, noKey_append ?_ h.noKey⟩
  exact fun c hc => ⟨(ha c hc).1, (ha c hc).2.1⟩

theorem Passed.items {P : α → List Char → Prop} {xs : List α} {r : List Char} (h : Items P xs r)
    (hP : ∀ x ∈ xs, ∀ t tail, P x t → Passed laxInt depth model tail →
      Passed laxInt depth model (t ++ tail))
    (htail : Passed laxInt depth model tail) : Passed laxInt depth model (r ++ tail) := by
  induction h with
  | @last x t b hx hb =>
    rw [List.append_assoc]
    exact hP x List.mem_cons_self t _ hx (htail.append (blank_plain hb))
  | @more x xs t b a r hx hb ha _ ih =>
    have htext : t ++ (b ++ ',' :: (a ++ r)) ++ tail = t ++ (b ++ ',' :: (a ++ (r ++ tail))) := by
      simp
    have hrest := ih fun z hz => hP z (List.mem_cons_of_mem _ hz)
    rw [htext]
    refine hP x List.mem_cons_self t _ hx (Passed.append ?_ (blank_plain hb))
    exact (hrest.append (blank_plain ha)).cons (by decide)

/-- A key that begins with a plain character and has no brace. -/
def PlainKey (key : String) : Prop :=
  ∃ c cs, key.toList = c :: cs ∧ isBlank c = false ∧ c ≠ ':' ∧ '\x7b' ∉ c :: cs

theorem Passed.member {P : α → List Char → Prop} {m : String × α} {t : List Char}
    (h : MemberText P m t) (hplain : PlainKey m.1)
    (hP : ∀ u, P m.2 u → Skipped laxInt depth model (u ++ tail))  :
    Passed laxInt depth model (t ++ tail) := by
  obtain ⟨key, a, b, value, ⟨body, hbody, rfl⟩, ha, hb, hvalue, rfl⟩ := h
  obtain ⟨c, cs, hkey, hblank, hcolon, hbrace⟩ := hplain
  rw [hkey] at hbody
  have hnotBrace := spelled_notMem hbody (by decide) hbrace
  have htext : '"' :: (body ++ ['"']) ++ (a ++ ':' :: (b ++ value)) ++ tail =
      '"' :: (body ++ '"' :: (a ++ ':' :: (b ++ (value ++ tail)))) := by simp
  rw [htext]
  constructor
  · refine skipped_cons (by decide) (skipped_append hnotBrace (skipped_cons (by decide) ?_))
    refine skipped_append (blank_notBrace ha) (skipped_cons (by decide) ?_)
    exact skipped_append (blank_notBrace hb) (hP value hvalue)
  · cases hbody with
    | @cons _ unit _ rest hchar _ =>
      obtain ⟨d, ds, rfl, -, hd⟩ := charText_head hchar
      refine noKey_quote ?_ ?_
      · rcases hd with ⟨rfl, -⟩ | rfl
        · exact hblank
        · decide
      · rcases hd with ⟨rfl, -⟩ | rfl
        · exact hcolon
        · decide

/-! ## The text of a verdict -/

def fieldNames : List String :=
  ["symbol", "action", "reason", "pitched", "withdrawn", "summary", "held", "calls"]

theorem plainKeys {members : List (String × α)} (h : members.map Prod.fst ⊆ fieldNames) :
    ∀ m ∈ members, PlainKey m.1 := by
  intro m hm
  have h := h (List.mem_map_of_mem hm)
  generalize m.1 = key at h
  unfold fieldNames at h
  simp only [List.mem_cons, List.not_mem_nil, or_false] at h
  rcases h with rfl | rfl | rfl | rfl | rfl | rfl | rfl | rfl
  all_goals exact ⟨_, _, rfl, by decide, by decide, by decide⟩

/-- The members of an object, up to its closing brace. -/
theorem Passed.object {P : α → List Char → Prop} {members : List (String × α)} {a r : List Char}
    (ha : Blank a) (h : Items (MemberText P) members r) (hkeys : ∀ m ∈ members, PlainKey m.1)
    (hP : ∀ m ∈ members, ∀ u tail, P m.2 u → Passed laxInt depth model tail →
      Skipped laxInt depth model (u ++ tail))
    (htail : Passed laxInt depth model tail) :
    Passed laxInt depth model (a ++ (r ++ '\x7d' :: tail)) := by
  refine Passed.append (Passed.items h ?_ (htail.cons (by decide))) (blank_plain ha)
  intro m hm t tail ht htail
  exact Passed.member ht (hkeys m hm) fun u hu => hP m hm u tail hu htail

/-- **A held decision is passed over**, with the braces in it. -/
theorem Passed.held {h : HeldDecision} {t : List Char} (ht : h.Text t)
    (htail : Passed laxInt depth model tail) : Passed laxInt depth model (t ++ tail) := by
  have hscan := scan_held (depth + 2) ht tail
  obtain ⟨a, r, ha, hitems, rfl⟩ := ht
  have htext : '\x7b' :: (a ++ (r ++ ['\x7d'])) ++ tail = '\x7b' :: (a ++ (r ++ '\x7d' :: tail)) := by
    simp
  rw [htext] at hscan ⊢
  have hinner : Passed laxInt depth model (a ++ (r ++ '\x7d' :: tail)) := by
    have hkeys : h.members.map Prod.fst ⊆ fieldNames := by
      show ["symbol", "action", "reason"] ⊆ fieldNames
      decide
    exact Passed.object ha hitems (plainKeys hkeys)
      (fun m _ u tail hu htail => skipped_string hu htail.skipped htail.noKey) htail
  have htry : tryVerdict laxInt (depth + 3) model ('\x7b' :: (a ++ (r ++ '\x7d' :: tail))) =
      .ok none := by
    unfold tryVerdict rawDecode
    rw [hscan]
    show Except.ok (model.validate laxInt h.value) = _
    rw [held_refused]
  refine ⟨skipped_brace htry hinner.skipped, ?_⟩
  exact noKey_cons (by decide) (by decide) hinner.noKey

theorem skipped_array {P : α → List Char → Prop} {xs : List α} {t : List Char}
    (h : ArrayText P xs t)
    (hP : ∀ x ∈ xs, ∀ t tail, P x t → Passed laxInt depth model tail →
      Passed laxInt depth model (t ++ tail))
    (htail : Passed laxInt depth model tail) : Skipped laxInt depth model (t ++ tail) := by
  rcases h with ⟨-, a, ha, rfl⟩ | ⟨a, r, ha, hitems, rfl⟩
  · have htext : '[' :: (a ++ [']']) ++ tail = '[' :: (a ++ ']' :: tail) := by simp
    rw [htext]
    exact (((htail.cons (by decide)).append (blank_plain ha)).cons (by decide)).skipped
  · have htext : '[' :: (a ++ (r ++ [']'])) ++ tail = '[' :: (a ++ (r ++ ']' :: tail)) := by simp
    rw [htext]
    have hitems := Passed.items hitems hP (htail.cons (c := ']') (by decide))
    exact ((hitems.append (blank_plain ha)).cons (by decide)).skipped

theorem Passed.int {n : ℤ} {t : List Char} (h : IntText n t)
    (htail : Passed laxInt depth model tail) : Passed laxInt depth model (t ++ tail) := by
  refine htail.append fun c hc => ?_
  rw [h] at hc
  unfold intText at hc
  rcases List.mem_append.mp hc with hc | hc
  · split at hc
    · rw [List.mem_singleton.mp hc]
      decide
    · cases hc
  · have hdigit := intDigits_digit c hc
    refine ⟨?_, ?_, ?_⟩
    · rintro rfl
      cases hdigit
    · rintro rfl
      cases hdigit
    · rintro rfl
      cases hdigit

theorem skipped_content {c : Content} {t : List Char} (h : c.Text t)
    (htail : Passed laxInt depth model tail) : Skipped laxInt depth model (t ++ tail) := by
  cases c with
  | text s => exact skipped_string h htail.skipped htail.noKey
  | numbers ns => exact skipped_array h (fun _ _ _ _ ht htail => Passed.int ht htail) htail
  | decisions hs => exact skipped_array h (fun _ _ _ _ ht htail => Passed.held ht htail) htail

/-- **Of the braces of a verdict's text all but the first are passed over.** -/
theorem bracesFrom_text {v : VerdictInstance} {t : List Char} (h : v.Text t) :
    ∃ later, bracesFrom t = t :: later ∧
      ∀ cs ∈ later, tryVerdict laxInt (depth + 3) model cs = .ok none := by
  obtain ⟨a, r, ha, hitems, rfl⟩ := h
  refine ⟨bracesFrom (a ++ (r ++ ['\x7d'])), by rw [bracesFrom, if_pos rfl], ?_⟩
  have hkeys : v.members.map Prod.fst ⊆ fieldNames := by
    cases v with
    | analyst v =>
      show ["pitched", "withdrawn", "summary"] ⊆ fieldNames
      decide
    | pm v =>
      show ["held", "calls", "summary"] ⊆ fieldNames
      decide
    | midday v =>
      show ["held", "summary"] ⊆ fieldNames
      decide
  exact (Passed.object ha hitems (plainKeys hkeys)
    (fun m _ u tail hu htail => skipped_content hu htail) Passed.nil).skipped

end TradeDesk.Jobs
