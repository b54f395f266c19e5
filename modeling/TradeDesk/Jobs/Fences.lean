import TradeDesk.Jobs.Braces

/-!
# The fence marks in a verdict's text

The recovery removes the fence marks from all of the text, also from the
verdict's strings. What is left is a JSON text again: a mark holds no escape
and no quote, so removing it from a string's spelling removes those
characters from the string (`cleaned_spelled`), and the marks are found
nowhere else. So the text that is left is of another instance, unless there
was no mark in it (`cleaned_text`).
-/

namespace TradeDesk.Jobs

open TradeDesk.JsonText TradeDesk.Lists

variable {α : Type} {c : Char} {a b t : List Char}

/-! ## Removing a word -/

/-- A mark: ticks, then letters of `json`. -/
def Mark (word : List Char) : Prop :=
  ∃ os, word = '\x60' :: os ∧ ∀ c ∈ word, c ∈ ['\x60', 'j', 's', 'o', 'n']

theorem fence_mark : Mark fence := by
  refine ⟨['\x60', '\x60'], rfl, fun c hc => ?_⟩
  obtain rfl : c = '\x60' := by simpa [fence] using hc
  exact List.mem_cons_self

theorem jsonFence_mark : Mark jsonFence := by
  refine ⟨['\x60', '\x60', 'j', 's', 'o', 'n'], rfl, fun c hc => ?_⟩
  have hletters : c ∈ ['\x60', '\x60', '\x60', 'j', 's', 'o', 'n'] := hc
  simpa using hletters

variable {word : List Char}

/-- Where there is no tick nothing is removed. -/
theorem remove_append (hword : Mark word) (ha : '\x60' ∉ a) :
    replaceAll word [] (a ++ b) = a ++ replaceAll word [] b := by
  obtain ⟨os, rfl, -⟩ := hword
  induction a with
  | nil => rfl
  | cons c a ih =>
    have hpass : ¬ '\x60' :: os <+: c :: (a ++ b) := by
      intro hpre
      exact ha ((List.cons_prefix_cons.mp hpre).1 ▸ List.mem_cons_self)
    refine (replaceFrom_pass hpass).trans ?_
    rw [List.cons_append]
    exact congrArg (c :: ·) (ih fun h => ha (List.mem_cons_of_mem _ h))

theorem Mark.ne (hword : Mark word) : word ≠ [] := by
  obtain ⟨os, rfl, -⟩ := hword
  exact List.cons_ne_nil _ _

theorem Mark.not_mem (hword : Mark word) (hc : c ∉ ['\x60', 'j', 's', 'o', 'n']) : c ∉ word := by
  obtain ⟨-, -, hall⟩ := hword
  exact fun hmem => hc (hall c hmem)

/-! ## In a string -/

/-- A word without a backslash is spelled by itself. -/
theorem spelled_word {cs : List Char} (hword : ∀ x ∈ word, x ≠ '\\')
    (h : Spelled cs (word ++ b)) : ∃ cs', cs = word ++ cs' ∧ Spelled cs' b := by
  induction word generalizing cs with
  | nil => exact ⟨cs, rfl, h⟩
  | cons x xs ih =>
    generalize hbody : x :: xs ++ b = body at h
    cases h with
    | nil => cases hbody
    | @cons c unit cs body hchar hrest =>
      obtain ⟨d, ds, rfl, -, hd⟩ := charText_head hchar
      obtain ⟨rfl, htail⟩ := List.cons.inj hbody
      rcases hd with ⟨rfl, rfl⟩ | hslash
      · have hbody' : xs ++ b = body := htail
        rw [← hbody'] at hrest
        obtain ⟨cs', rfl, hspelled⟩ := ih (fun y hy => hword y (List.mem_cons_of_mem _ hy)) hrest
        exact ⟨cs', rfl, hspelled⟩
      · exact absurd hslash (hword x List.mem_cons_self)

/-- What is left of a string after a mark is removed from its spelling: it
is no longer, and of the same length only if nothing was removed. -/
theorem remove_spelled (hword : Mark word) {cs body : List Char} (h : Spelled cs body) :
    ∃ cs', Spelled cs' (replaceAll word [] body) ∧ cs'.length ≤ cs.length ∧
      ('\x60' ∉ cs → cs' = cs) ∧ (cs'.length = cs.length → replaceAll word [] body = body) := by
  have hslash : ∀ x ∈ word, x ≠ '\\' := by
    rintro x hx rfl
    exact hword.not_mem (by decide) hx
  generalize hn : cs.length = n
  induction n using Nat.strong_induction_on generalizing cs body with
  | _ n ih =>
    cases h with
    | nil => exact ⟨[], .nil, by simp, fun _ => rfl, fun _ => rfl⟩
    | @cons c unit cs body hchar hrest =>
      rw [List.length_cons] at hn
      by_cases hhit : word <+: unit ++ body
      · obtain ⟨rest, hbody⟩ := hhit
        have hall : Spelled (c :: cs) (word ++ rest) := hbody ▸ .cons hchar hrest
        obtain ⟨later, hcs, hlater⟩ := spelled_word hslash hall
        have hlength : word.length + later.length = cs.length + 1 := by
          rw [← List.length_append, ← hcs, List.length_cons]
        have hpos := List.length_pos_iff.mpr hword.ne
        obtain ⟨cs', hspelled, hle, -, -⟩ := ih later.length (by omega) hlater rfl
        rw [← hbody, remove_word hword.ne]
        refine ⟨cs', hspelled, by omega, fun htick => absurd ?_ htick, fun heq => by omega⟩
        rw [hcs]
        obtain ⟨os, rfl, -⟩ := hword
        exact List.mem_append_left _ List.mem_cons_self
      · obtain ⟨cs', hspelled, hle, htick, heq⟩ := ih cs.length (by omega) hrest rfl
        -- where the mark does not begin, the unit is kept
        have hkept : replaceAll word [] (unit ++ body) = unit ++ replaceAll word [] body := by
          by_cases hunit : '\x60' ∈ unit
          · obtain ⟨rfl, rfl⟩ := charText_raw hchar (by decide) hunit
            exact replaceFrom_pass hhit
          · exact remove_append hword hunit
        rw [hkept]
        refine ⟨c :: cs', .cons hchar hspelled, ?_, fun hnot => ?_, fun hlength => ?_⟩
        · rw [List.length_cons]
          omega
        · rw [htick fun hmem => hnot (List.mem_cons_of_mem _ hmem)]
        · rw [List.length_cons] at hlength
          rw [heq (by omega)]

theorem cleaned_spelled {cs body : List Char} (h : Spelled cs body) :
    ∃ cs', Spelled cs' (cleaned body) ∧ ('\x60' ∉ cs → cs' = cs) ∧
      (cs' = cs → cleaned body = body) := by
  obtain ⟨cs₁, h₁, hle₁, htick₁, heq₁⟩ := remove_spelled jsonFence_mark h
  obtain ⟨cs₂, h₂, hle₂, htick₂, heq₂⟩ := remove_spelled fence_mark h₁
  refine ⟨cs₂, h₂, fun htick => ?_, fun heq => ?_⟩
  · have hsame := htick₁ htick
    rw [hsame] at htick₂
    exact htick₂ htick
  · rw [heq] at hle₂ heq₂
    unfold cleaned
    rw [heq₁ (by omega)] at heq₂ ⊢
    exact heq₂ (by omega)

/-! ## In a text -/

/-- `t` becomes `t'`, whatever follows it. -/
def Cleans (t t' : List Char) : Prop := ∀ x, cleaned (t ++ x) = t' ++ cleaned x

theorem Cleans.eq {t' : List Char} (h : Cleans t t') : cleaned t = t' := by
  have hnil := h []
  rw [List.append_nil] at hnil
  exact hnil.trans (List.append_nil _)

theorem Cleans.plain (ht : '\x60' ∉ t) : Cleans t t := by
  intro x
  unfold cleaned
  rw [remove_append jsonFence_mark ht, remove_append fence_mark ht]

theorem Cleans.append {t t' u u' : List Char} (ht : Cleans t t') (hu : Cleans u u') :
    Cleans (t ++ u) (t' ++ u') := by
  intro x
  rw [List.append_assoc, ht, hu, List.append_assoc]

theorem Cleans.cons {t t' : List Char} (hc : c ≠ '\x60') (ht : Cleans t t') :
    Cleans (c :: t) (c :: t') :=
  Cleans.append (Cleans.plain fun h => hc (List.mem_singleton.mp h).symm) ht

theorem cleaned_append_cons (hc : c ∉ ['\x60', 'j', 's', 'o', 'n']) :
    cleaned (a ++ c :: b) = cleaned a ++ c :: cleaned b := by
  unfold cleaned
  rw [remove_append_cons jsonFence_mark.ne (jsonFence_mark.not_mem hc),
    remove_append_cons fence_mark.ne (fence_mark.not_mem hc)]

theorem Cleans.blank (ht : Blank t) : Cleans t t := by
  refine Cleans.plain fun hmem => ?_
  have htick := ht _ hmem
  revert htick
  decide

/-- A relation of texts is kept by the cleaning: it gives a text of something
else that `R` allows, and of the same thing only if it leaves the text. -/
def Keeps (P : α → List Char → Prop) (R : α → α → Prop) : Prop :=
  ∀ x t, P x t → ∃ x' t', P x' t' ∧ Cleans t t' ∧ R x x' ∧ (x' = x → t' = t)

/-- A string without a tick is kept. -/
def KeepsString (s s' : String) : Prop := '\x60' ∉ s.toList → s' = s

theorem keeps_string : Keeps StringText KeepsString := by
  rintro s t ⟨body, hbody, rfl⟩
  obtain ⟨cs', hspelled, htick, heq⟩ := cleaned_spelled hbody
  have htext : (String.ofList cs').toList = cs' := String.toList_ofList
  refine ⟨String.ofList cs', '"' :: (cleaned body ++ ['"']), ⟨_, by rwa [htext], rfl⟩, ?_, ?_, ?_⟩
  · intro x
    have hleft : '"' :: (body ++ ['"']) ++ x = ['"'] ++ (body ++ '"' :: x) := by simp
    have hright : '"' :: (cleaned body ++ ['"']) ++ cleaned x =
        ['"'] ++ (cleaned body ++ '"' :: cleaned x) := by simp
    rw [hleft, hright, Cleans.plain (t := ['"']) (by decide), cleaned_append_cons (by decide)]
  · intro hnot
    rw [htick hnot, String.ofList_toList]
  · intro hsame
    rw [heq (by rw [← hsame, htext])]

theorem keeps_int : Keeps IntText Eq := by
  intro n t ht
  refine ⟨n, t, ht, Cleans.plain fun hmem => ?_, rfl, fun _ => rfl⟩
  rw [ht] at hmem
  unfold intText at hmem
  rcases List.mem_append.mp hmem with hmem | hmem
  · split at hmem
    · exact absurd (List.mem_singleton.mp hmem) (by decide)
    · cases hmem
  · have hdigit := intDigits_digit _ hmem
    revert hdigit
    decide

variable {P : α → List Char → Prop} {R : α → α → Prop}

theorem Keeps.items (hP : Keeps P R) {xs : List α} {r : List Char} (h : Items P xs r) :
    ∃ xs' r', Items P xs' r' ∧ Cleans r r' ∧ List.Forall₂ R xs xs' ∧ (xs' = xs → r' = r) := by
  induction h with
  | @last x t b hx hb =>
    obtain ⟨x', t', hx', hclean, hR, heq⟩ := hP x t hx
    refine ⟨[x'], t' ++ b, .last hx' hb, hclean.append (Cleans.blank hb), .cons hR .nil, ?_⟩
    intro hsame
    rw [heq (List.cons.inj hsame).1]
  | @more x xs t b a r hx hb ha _ ih =>
    obtain ⟨x', t', hx', hclean, hR, heq⟩ := hP x t hx
    obtain ⟨xs', r', hitems, hcleans, hRs, heqs⟩ := ih
    refine ⟨x' :: xs', t' ++ (b ++ ',' :: (a ++ r')), .more hx' hb ha hitems, ?_, .cons hR hRs, ?_⟩
    · refine hclean.append ((Cleans.blank hb).append (Cleans.cons (by decide) ?_))
      exact (Cleans.blank ha).append hcleans
    · intro hsame
      obtain ⟨hfirst, hrest⟩ := List.cons.inj hsame
      rw [heq hfirst, heqs hrest]

theorem keeps_array (hP : Keeps P R) : Keeps (ArrayText P) (List.Forall₂ R) := by
  rintro xs t (⟨rfl, a, ha, rfl⟩ | ⟨a, r, ha, hitems, rfl⟩)
  · refine ⟨[], _, .inl ⟨rfl, a, ha, rfl⟩, ?_, .nil, fun _ => rfl⟩
    exact Cleans.cons (by decide) ((Cleans.blank ha).append (Cleans.plain (by decide)))
  · obtain ⟨xs', r', hitems', hclean, hR, heq⟩ := hP.items hitems
    refine ⟨xs', _, .inr ⟨a, r', ha, hitems', rfl⟩, ?_, hR, fun hsame => by rw [heq hsame]⟩
    refine Cleans.cons (by decide) ((Cleans.blank ha).append ?_)
    exact hclean.append (Cleans.plain (by decide))

/-- A member keeps its key, which has no tick. -/
def KeepsMember (R : α → α → Prop) (m m' : String × α) : Prop :=
  '\x60' ∉ m.1.toList → m'.1 = m.1 ∧ R m.2 m'.2

theorem keeps_member (hP : Keeps P R) : Keeps (MemberText P) (KeepsMember R) := by
  rintro m t ⟨key, a, b, value, hkey, ha, hb, hvalue, rfl⟩
  obtain ⟨k, key', hkey', hclean, hname, hkeySame⟩ := keeps_string m.1 key hkey
  obtain ⟨x, value', hvalue', hcleans, hR, hvalueSame⟩ := hP m.2 value hvalue
  refine ⟨(k, x), _, ⟨key', a, b, value', hkey', ha, hb, hvalue', rfl⟩, ?_,
    fun htick => ⟨hname htick, hR⟩, ?_⟩
  · refine hclean.append ((Cleans.blank ha).append (Cleans.cons (by decide) ?_))
    exact (Cleans.blank hb).append hcleans
  · rintro rfl
    rw [hkeySame rfl, hvalueSame rfl]

theorem KeepsMember.elim {key : String} {x : α} {m : String × α} (h : KeepsMember R (key, x) m)
    (htick : '\x60' ∉ key.toList) : ∃ y, m = (key, y) ∧ R x y := by
  obtain ⟨hkey, hR⟩ := h htick
  exact ⟨m.2, Prod.ext hkey rfl, hR⟩

theorem keeps_object (hP : Keeps P R) :
    Keeps (ObjectText P) (List.Forall₂ (KeepsMember R)) := by
  rintro members t ⟨a, r, ha, hitems, rfl⟩
  obtain ⟨members', r', hitems', hclean, hR, heq⟩ := (keeps_member hP).items hitems
  refine ⟨members', _, ⟨a, r', ha, hitems', rfl⟩, ?_, hR, fun hsame => by rw [heq hsame]⟩
  refine Cleans.cons (by decide) ((Cleans.blank ha).append ?_)
  exact hclean.append (Cleans.plain (by decide))

/-! ## In a verdict -/

theorem keeps_held : Keeps HeldDecision.Text fun _ _ => True := by
  intro h t ht
  obtain ⟨members, t', hobject, hclean, hR, heq⟩ := keeps_object keeps_string h.members t ht
  unfold HeldDecision.members at hR
  cases hR with
  | cons h₁ hR =>
    cases hR with
    | cons h₂ hR =>
      cases hR with
      | cons h₃ hR =>
        cases hR
        obtain ⟨symbol, rfl, -⟩ := h₁.elim (by decide)
        obtain ⟨action, rfl, haction⟩ := h₂.elim (by decide)
        obtain ⟨reason, rfl, -⟩ := h₃.elim (by decide)
        have hword : action = h.action.text := haction (by cases h.action <;> decide)
        rw [hword] at hobject heq
        refine ⟨⟨symbol, h.action, reason⟩, t', hobject, hclean, trivial, fun hsame => heq ?_⟩
        rw [← hsame]
        rfl

/-- What a field holds is of the same kind, with the same integers. -/
def KeepsContent : Content → Content → Prop
  | .text _, .text _ => True
  | .numbers ns, .numbers ns' => ns' = ns
  | .decisions _, .decisions _ => True
  | _, _ => False

theorem keeps_content : Keeps Content.Text KeepsContent := by
  intro c t ht
  cases c with
  | text s =>
    obtain ⟨s', t', hs', hclean, -, heq⟩ := keeps_string s t ht
    exact ⟨.text s', t', hs', hclean, trivial, fun h => heq (Content.text.inj h)⟩
  | numbers ns =>
    obtain ⟨ns', t', hns', hclean, hR, heq⟩ := keeps_array keeps_int ns t ht
    exact ⟨.numbers ns', t', hns', hclean, (List.forall₂_eq_eq_eq ▸ hR : ns = ns').symm,
      fun h => heq (Content.numbers.inj h)⟩
  | decisions hs =>
    obtain ⟨hs', t', hhs', hclean, -, heq⟩ := keeps_array keeps_held hs t ht
    exact ⟨.decisions hs', t', hhs', hclean, trivial, fun h => heq (Content.decisions.inj h)⟩

theorem kept_text {s : String} {c : Content} (h : KeepsContent (.text s) c) :
    ∃ s', c = .text s' := by
  cases c with
  | text s' => exact ⟨s', rfl⟩
  | numbers _ => exact h.elim
  | decisions _ => exact h.elim

theorem kept_numbers {ns : List ℤ} {c : Content} (h : KeepsContent (.numbers ns) c) :
    c = .numbers ns := by
  cases c with
  | text _ => exact h.elim
  | numbers ns' => exact congrArg Content.numbers h
  | decisions _ => exact h.elim

theorem kept_decisions {hs : List HeldDecision} {c : Content}
    (h : KeepsContent (.decisions hs) c) : ∃ hs', c = .decisions hs' := by
  cases c with
  | text _ => exact h.elim
  | numbers _ => exact h.elim
  | decisions hs' => exact ⟨hs', rfl⟩

/-- Members like those of an instance are an instance's. -/
theorem members_kept {v : VerdictInstance} {members : List (String × Content)}
    (h : List.Forall₂ (KeepsMember KeepsContent) v.members members) :
    ∃ v' : VerdictInstance, v'.members = members ∧ v'.model = v.model ∧ v'.ints = v.ints := by
  cases v with
  | analyst v =>
    cases h with
    | cons h₁ h =>
      cases h with
      | cons h₂ h =>
        cases h with
        | cons h₃ h =>
          cases h
          obtain ⟨c₁, rfl, hc₁⟩ := h₁.elim (by decide)
          obtain ⟨c₂, rfl, hc₂⟩ := h₂.elim (by decide)
          obtain ⟨c₃, rfl, hc₃⟩ := h₃.elim (by decide)
          obtain rfl := kept_numbers hc₁
          obtain rfl := kept_numbers hc₂
          obtain ⟨s, rfl⟩ := kept_text hc₃
          exact ⟨.analyst ⟨v.pitched, v.withdrawn, s⟩, rfl, rfl, rfl⟩
  | pm v =>
    cases h with
    | cons h₁ h =>
      cases h with
      | cons h₂ h =>
        cases h with
        | cons h₃ h =>
          cases h
          obtain ⟨c₁, rfl, hc₁⟩ := h₁.elim (by decide)
          obtain ⟨c₂, rfl, hc₂⟩ := h₂.elim (by decide)
          obtain ⟨c₃, rfl, hc₃⟩ := h₃.elim (by decide)
          obtain ⟨hs, rfl⟩ := kept_decisions hc₁
          obtain rfl := kept_numbers hc₂
          obtain ⟨s, rfl⟩ := kept_text hc₃
          exact ⟨.pm ⟨hs, v.calls, s⟩, rfl, rfl, rfl⟩
  | midday v =>
    cases h with
    | cons h₁ h =>
      cases h with
      | cons h₂ h =>
        cases h
        obtain ⟨c₁, rfl, hc₁⟩ := h₁.elim (by decide)
        obtain ⟨c₂, rfl, hc₂⟩ := h₂.elim (by decide)
        obtain ⟨hs, rfl⟩ := kept_decisions hc₁
        obtain ⟨s, rfl⟩ := kept_text hc₂
        exact ⟨.midday ⟨hs, s⟩, rfl, rfl, rfl⟩

/-- **A text is left as it is exactly if there is no fence mark in it.** -/
theorem cleaned_eq_iff : cleaned t = t ↔ ¬ fence <:+: t := by
  have hfence : fence <:+: jsonFence := ⟨[], ['j', 's', 'o', 'n'], rfl⟩
  constructor
  · intro heq hmark
    have hlength : (cleaned t).length = t.length := congrArg List.length heq
    have hle : (cleaned t).length ≤ (replaceAll jsonFence [] t).length := remove_length_le _ _ _
    by_cases hjson : jsonFence <:+: t
    · have hlt := remove_length_lt jsonFence_mark.ne hjson
      omega
    · have hlt := remove_length_lt fence_mark.ne hmark
      unfold cleaned at hlength
      rw [remove_none hjson] at hlength
      omega
  · intro hnot
    unfold cleaned
    rw [remove_none fun h => hnot (hfence.trans h)]
    exact remove_none hnot

/-- **What is left of a verdict's text** is the text of a verdict of the same
model, and of the same verdict exactly if there is no fence mark in it. -/
theorem cleaned_text {v : VerdictInstance} (h : v.Text t) :
    ∃ v' : VerdictInstance, v'.Text (cleaned t) ∧ v'.model = v.model ∧ v'.ints = v.ints ∧
      (v' = v ↔ ¬ fence <:+: t) := by
  by_cases hmark : fence <:+: t
  · obtain ⟨members, t', hobject, hclean, hR, heq⟩ := keeps_object keeps_content v.members t h
    obtain ⟨v', rfl, hmodel, hints⟩ := members_kept hR
    have htext : cleaned t = t' := hclean.eq
    refine ⟨v', by rw [htext]; exact hobject, hmodel, hints, fun hsame => ?_, fun h => absurd hmark h⟩
    rw [← cleaned_eq_iff, htext]
    exact heq (by rw [hsame])
  · refine ⟨v, ?_, rfl, rfl, fun _ => hmark, fun _ => rfl⟩
    rw [cleaned_eq_iff.mpr hmark]
    exact h

end TradeDesk.Jobs
