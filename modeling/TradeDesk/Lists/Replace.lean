import Mathlib.Data.List.Basic
import Mathlib.Data.List.Infix

/-!
# Replacing a word

`replaceAll old new text` replaces each occurrence of `old` from left to
right, none overlapping another, as `str.replace` does. The new text is
taken between two marks, `opening` and `closing`, that the words looked for
do not hold: then a word occurs in the result only inside the new text or
where it occurred in the old one, and the word replaced is gone. Replacing
several words one after the other, in any order and however they overlap,
therefore leaves none of them.
-/

namespace TradeDesk.Lists

/-! ## Words across a mark -/

variable {α : Type} {word a b cs old inside : List α} {c opening closing : α}

/-- A word without the mark is on one side of it. -/
theorem infix_append_cons (hc : c ∉ word) (h : word <:+: a ++ c :: b) :
    word <:+: a ∨ word <:+: b := by
  obtain ⟨pre, post, h⟩ := h
  rw [List.append_assoc] at h
  rcases List.append_eq_append_iff.mp h with ⟨mid, ha, hmid⟩ | ⟨mid, _, hmid⟩
  · -- the word begins before the mark
    rcases List.append_eq_append_iff.mp hmid with ⟨rest, hrest, _⟩ | ⟨rest, hrest, hpost⟩
    · exact .inl ⟨pre, rest, by rw [ha, hrest, List.append_assoc]⟩
    · cases rest with
      | nil => exact .inl ⟨pre, [], by rw [ha, hrest]; simp⟩
      | cons x xs =>
        obtain ⟨rfl, _⟩ := List.cons.inj hpost
        exact absurd (hrest ▸ List.mem_append_right _ List.mem_cons_self) hc
  · -- the word begins after it
    cases mid with
    | nil =>
      cases word with
      | nil => exact .inl (List.nil_infix)
      | cons x xs =>
        obtain ⟨rfl, _⟩ := List.cons.inj hmid
        exact absurd List.mem_cons_self hc
    | cons x xs =>
      obtain ⟨_, hb⟩ := List.cons.inj hmid
      exact .inr ⟨xs, post, (List.append_assoc _ _ _).trans hb.symm⟩

/-- A word that begins a text does not reach over what it has not. -/
theorem prefix_append_cons (hc : c ∉ word) : word <+: a ++ c :: b ↔ word <+: a := by
  refine ⟨fun h => ?_, fun h => h.trans (List.prefix_append _ _)⟩
  induction word generalizing a with
  | nil => exact List.nil_prefix
  | cons x xs ih =>
    cases a with
    | nil => exact absurd ((List.cons_prefix_cons.mp h).1 ▸ List.mem_cons_self) hc
    | cons y ys =>
      rw [List.cons_append] at h
      obtain ⟨rfl, hrest⟩ := List.cons_prefix_cons.mp h
      exact List.cons_prefix_cons.mpr
        ⟨rfl, ih (fun hmem => hc (List.mem_cons_of_mem _ hmem)) hrest⟩

/-- A word that holds neither mark is before, inside or after the text
between them. -/
theorem infix_marked (ho : opening ∉ word) (hc : closing ∉ word)
    (h : word <:+: opening :: inside ++ [closing] ++ b) :
    word <:+: opening :: inside ++ [closing] ∨ word <:+: b := by
  have h : word <:+: [] ++ opening :: (inside ++ closing :: b) := by simpa using h
  rcases infix_append_cons ho h with h | h
  · exact .inr (h.trans List.nil_infix)
  · rcases infix_append_cons hc h with h | h
    · exact .inl (h.trans ⟨[opening], [closing], by simp⟩)
    · exact .inr h

/-! ## Replacing -/

variable [DecidableEq α]

/-- The rest of the text with `old` replaced; the first `skip` elements are
of an occurrence already replaced. -/
def replaceFrom (old new : List α) : ℕ → List α → List α
  | _, [] => []
  | skip + 1, _ :: cs => replaceFrom old new skip cs
  | 0, c :: cs =>
    if old <+: c :: cs then new ++ replaceFrom old new (old.length - 1) cs
    else c :: replaceFrom old new 0 cs

def replaceAll (old new text : List α) : List α := replaceFrom old new 0 text

/-! ## What is left in the text -/

variable {new : List α}

theorem replaceFrom_hit (h : old <+: c :: cs) :
    replaceFrom old new 0 (c :: cs) = new ++ replaceFrom old new (old.length - 1) cs := if_pos h

theorem replaceFrom_pass (h : ¬ old <+: c :: cs) :
    replaceFrom old new 0 (c :: cs) = c :: replaceFrom old new 0 cs := if_neg h

/-- As far as the first mark the result is the text. -/
theorem prefix_of_prefix_replace (ho : opening ∉ word)
    (h : word <+: replaceFrom old (opening :: inside ++ [closing]) 0 cs) : word <+: cs := by
  induction cs generalizing word with
  | nil => exact h
  | cons c cs ih =>
    cases word with
    | nil => exact List.nil_prefix
    | cons w ws =>
      by_cases hold : old <+: c :: cs
      · rw [replaceFrom_hit hold, List.append_assoc, List.cons_append] at h
        obtain ⟨rfl, _⟩ := List.cons_prefix_cons.mp h
        exact absurd List.mem_cons_self ho
      · rw [replaceFrom_pass hold] at h
        obtain ⟨rfl, hws⟩ := List.cons_prefix_cons.mp h
        exact List.cons_prefix_cons.mpr ⟨rfl, ih (fun hm => ho (List.mem_cons_of_mem _ hm)) hws⟩

/-- **No word is made by replacing**: a word in the result was in the text,
or is in what is put in. -/
theorem infix_of_infix_replace (ho : opening ∉ word) (hc : closing ∉ word) {skip : ℕ}
    (h : word <:+: replaceFrom old (opening :: inside ++ [closing]) skip cs) :
    word <:+: opening :: inside ++ [closing] ∨ word <:+: cs := by
  induction cs generalizing skip with
  | nil => exact .inr (by unfold replaceFrom at h; exact h)
  | cons c cs ih =>
    have hcons : word <:+: opening :: inside ++ [closing] ∨ word <:+: cs →
        word <:+: opening :: inside ++ [closing] ∨ word <:+: c :: cs :=
      fun h => h.imp_right List.infix_cons
    cases skip with
    | succ skip => exact hcons (ih h)
    | zero =>
      by_cases hold : old <+: c :: cs
      · rw [replaceFrom_hit hold] at h
        rcases infix_marked ho hc h with h | h
        · exact .inl h
        · exact hcons (ih h)
      · rw [replaceFrom_pass hold] at h
        rcases List.infix_cons_iff.mp h with h | h
        · rw [← replaceFrom_pass hold] at h
          exact .inr (prefix_of_prefix_replace ho h).isInfix
        · exact hcons (ih h)

/-- **The word replaced is gone.** -/
theorem not_infix_replace (hne : old ≠ []) (ho : opening ∉ old) (hc : closing ∉ old)
    (hnew : ¬ old <:+: opening :: inside ++ [closing]) {skip : ℕ} :
    ¬ old <:+: replaceFrom old (opening :: inside ++ [closing]) skip cs := by
  induction cs generalizing skip with
  | nil =>
    intro h
    unfold replaceFrom at h
    exact hne (List.eq_nil_of_infix_nil h)
  | cons c cs ih =>
    cases skip with
    | succ skip => exact ih
    | zero =>
      intro h
      by_cases hold : old <+: c :: cs
      · rw [replaceFrom_hit hold] at h
        rcases infix_marked ho hc h with h | h
        · exact hnew h
        · exact ih h
      · rw [replaceFrom_pass hold] at h
        rcases List.infix_cons_iff.mp h with h | h
        · rw [← replaceFrom_pass hold] at h
          exact hold (prefix_of_prefix_replace ho h)
        · exact ih h

/-! ## Several words -/

/-- A word is safe to look for if it is no part of what is put in and holds
none of its marks. -/
structure Apart (opening closing : α) (inside word : List α) : Prop where
  ne : word ≠ []
  notOpening : opening ∉ word
  notClosing : closing ∉ word
  notInside : ¬ word <:+: opening :: inside ++ [closing]

/-- What is gone stays gone. -/
theorem not_infix_foldl_of_not {words : List (List α)} {word text : List α}
    (hw : Apart opening closing inside word) (h : ¬ word <:+: text) :
    ¬ word <:+: words.foldl
      (fun text w => replaceAll w (opening :: inside ++ [closing]) text) text := by
  induction words generalizing text with
  | nil => exact h
  | cons v vs ih =>
    refine ih ?_
    intro hv
    rcases infix_of_infix_replace hw.notOpening hw.notClosing hv with hv | hv
    · exact hw.notInside hv
    · exact h hv

/-- **Replacing words one after the other leaves none of them**, in whatever
order and however they overlap. -/
theorem not_infix_foldl {words : List (List α)} {text : List α}
    (hwords : ∀ w ∈ words, Apart opening closing inside w) :
    ∀ w ∈ words, ¬ w <:+: words.foldl
      (fun text w => replaceAll w (opening :: inside ++ [closing]) text) text := by
  induction words generalizing text with
  | nil =>
    intro w hw
    cases hw
  | cons v vs ih =>
    intro w hw
    rw [List.foldl_cons]
    have hv := hwords v List.mem_cons_self
    rcases List.mem_cons.mp hw with rfl | hw
    · exact not_infix_foldl_of_not hv
        (not_infix_replace hv.ne hv.notOpening hv.notClosing hv.notInside)
    · exact ih (fun x hx => hwords x (List.mem_cons_of_mem _ hx)) w hw

/-! ## Removing a word -/

variable {t : List α}

/-- What is removed does not reach over a character that the word has not. -/
theorem remove_append_cons (hne : word ≠ []) (hc : c ∉ word) :
    replaceAll word [] (a ++ c :: b) = replaceAll word [] a ++ c :: replaceAll word [] b := by
  suffices h : ∀ skip ≤ a.length, replaceFrom word [] skip (a ++ c :: b) =
      replaceFrom word [] skip a ++ c :: replaceFrom word [] 0 b from h 0 (Nat.zero_le _)
  induction a with
  | nil =>
    intro skip hskip
    obtain rfl : skip = 0 := Nat.le_zero.mp hskip
    refine replaceFrom_pass fun hpre => ?_
    cases word with
    | nil => exact hne rfl
    | cons x xs => exact hc ((List.cons_prefix_cons.mp hpre).1 ▸ List.mem_cons_self)
  | cons x a ih =>
    intro skip hskip
    cases skip with
    | succ skip => exact ih skip (Nat.le_of_succ_le_succ hskip)
    | zero =>
      have hiff : word <+: x :: a ++ c :: b ↔ word <+: x :: a := prefix_append_cons hc
      by_cases hpre : word <+: x :: a
      · have hlength := hpre.length_le
        rw [List.length_cons] at hlength
        rw [List.cons_append] at hiff ⊢
        rw [replaceFrom_hit (hiff.mpr hpre), replaceFrom_hit hpre, ih (word.length - 1) (by omega)]
        rfl
      · rw [List.cons_append] at hiff ⊢
        rw [replaceFrom_pass (fun h => hpre (hiff.mp h)), replaceFrom_pass hpre,
          ih 0 (Nat.zero_le _)]
        rfl

theorem replaceFrom_skip :
    replaceFrom word new a.length (a ++ b) = replaceFrom word new 0 b := by
  induction a with
  | nil => rfl
  | cons x a ih => exact ih

/-- A word that is there is removed, with what follows looked at next. -/
theorem remove_word (hne : word ≠ []) :
    replaceAll word [] (word ++ b) = replaceAll word [] b := by
  cases word with
  | nil => exact absurd rfl hne
  | cons x xs =>
    have hpre : x :: xs <+: x :: (xs ++ b) := List.prefix_append (x :: xs) b
    refine (replaceFrom_hit hpre).trans ?_
    exact replaceFrom_skip

theorem remove_length_le (word t : List α) (skip : ℕ) :
    (replaceFrom word [] skip t).length ≤ t.length := by
  induction t generalizing skip with
  | nil =>
    unfold replaceFrom
    exact Nat.le_refl _
  | cons c t ih =>
    cases skip with
    | succ skip =>
      refine (ih skip).trans ?_
      rw [List.length_cons]
      omega
    | zero =>
      by_cases hpre : word <+: c :: t
      · rw [replaceFrom_hit hpre, List.nil_append, List.length_cons]
        have hrest := ih (word.length - 1)
        omega
      · rw [replaceFrom_pass hpre, List.length_cons, List.length_cons]
        have hrest := ih 0
        omega

/-- A word that is in a text makes it shorter. -/
theorem remove_length_lt (hne : word ≠ []) (h : word <:+: t) :
    (replaceAll word [] t).length < t.length := by
  obtain ⟨pre, post, rfl⟩ := h
  induction pre with
  | nil =>
    have hrest := @remove_word α word post _ hne
    have hle := remove_length_le word post 0
    have hpos := List.length_pos_iff.mpr hne
    unfold replaceAll at hrest ⊢
    rw [List.nil_append, hrest, List.length_append]
    omega
  | cons c pre ih =>
    unfold replaceAll at ih ⊢
    by_cases hpre : word <+: c :: (pre ++ word ++ post)
    · rw [List.cons_append, List.cons_append, replaceFrom_hit hpre, List.nil_append,
        List.length_cons]
      have hle := remove_length_le word (pre ++ word ++ post) (word.length - 1)
      omega
    · rw [List.cons_append, List.cons_append, replaceFrom_pass hpre, List.length_cons,
        List.length_cons]
      omega

/-- A text that the word is not in is left as it is. -/
theorem remove_none (h : ¬ word <:+: t) : replaceAll word [] t = t := by
  induction t with
  | nil => rfl
  | cons c t ih =>
    have hpre : ¬ word <+: c :: t := fun hpre => h hpre.isInfix
    refine (replaceFrom_pass hpre).trans ?_
    exact congrArg (c :: ·) (ih fun hinfix => h (List.infix_cons hinfix))

end TradeDesk.Lists
