import Mathlib.Algebra.BigOperators.Group.List.Lemmas
import Mathlib.Data.List.Nodup
import Mathlib.Tactic.Abel

/-!
# Sums over a keyed table

A table is a list of rows with distinct keys. What a statement on one row
does to a sum over the table is what it does to that row's term
(`sum_map_change`); a table that only grows adds its new row's term. And a
sum over a join of two tables can be taken in either order
(`sum_join_comm`).
-/

namespace TradeDesk.Table

variable {α β κ M : Type} [AddCommMonoid M]

/-- **One row changed.** If the terms of all other rows are the same, the
sums differ by the terms of that row. Stated without subtraction, so that
it counts rows too. -/
theorem sum_map_change {key : α → κ} {φ ψ : α → M} {p : α} : ∀ {l : List α},
    (l.map key).Nodup → p ∈ l → (∀ q ∈ l, key q ≠ key p → ψ q = φ q) →
    (l.map ψ).sum + φ p = (l.map φ).sum + ψ p := by
  intro l hnd hp hsame
  induction l with
  | nil => cases hp
  | cons q l ih =>
    rw [List.map_cons, List.nodup_cons] at hnd
    rw [List.map_cons, List.map_cons, List.sum_cons, List.sum_cons]
    rcases List.mem_cons.mp hp with rfl | hp
    · have hrest : l.map ψ = l.map φ := List.map_congr_left fun r hr =>
        hsame r (List.mem_cons_of_mem _ hr) fun he => hnd.1 (List.mem_map.mpr ⟨r, hr, he⟩)
      rw [hrest]
      abel
    · have hq : ψ q = φ q := hsame q List.mem_cons_self fun he =>
        hnd.1 (List.mem_map.mpr ⟨p, hp, he.symm⟩)
      have := ih hnd.2 hp fun r hr => hsame r (List.mem_cons_of_mem _ hr)
      rw [hq, add_assoc, add_assoc, this]

/-- Counting the rows a predicate picks is summing its indicator. -/
theorem length_filter_eq_sum (P : α → Bool) (l : List α) :
    (l.filter P).length = (l.map fun a => if P a then 1 else 0).sum := by
  induction l with
  | nil => rfl
  | cons a l ih =>
    rw [List.map_cons, List.sum_cons, ← ih]
    cases h : P a
    · rw [List.filter_cons_of_neg (by simp [h])]
      simp
    · rw [List.filter_cons_of_pos h, List.length_cons]
      simp [Nat.add_comm]

/-- Summing over the rows a predicate picks is summing zero elsewhere. -/
theorem sum_map_filter (P : α → Bool) (φ : α → M) (l : List α) :
    ((l.filter P).map φ).sum = (l.map fun a => if P a then φ a else 0).sum := by
  induction l with
  | nil => rfl
  | cons a l ih =>
    rw [List.map_cons, List.sum_cons, ← ih]
    cases h : P a
    · rw [List.filter_cons_of_neg (by simp [h])]
      simp
    · rw [List.filter_cons_of_pos h, List.map_cons, List.sum_cons]
      simp

theorem sum_map_flatMap (f : α → List β) (φ : β → M) (l : List α) :
    ((l.flatMap f).map φ).sum = (l.map fun a => ((f a).map φ).sum).sum := by
  induction l with
  | nil => rfl
  | cons a l ih =>
    rw [List.flatMap_cons, List.map_append, List.sum_append, ih, List.map_cons, List.sum_cons]

/-- **A join summed either way.** Every fill's rows, or every row's fills. -/
theorem sum_join_comm (R : α → β → Bool) (φ : α → β → M) (as : List α) (bs : List β) :
    (as.map fun a => ((bs.filter fun b => R a b).map fun b => φ a b).sum).sum =
      (bs.map fun b => ((as.filter fun a => R a b).map fun a => φ a b).sum).sum := by
  induction as with
  | nil =>
    simp only [List.map_nil, List.sum_nil, List.filter_nil]
    exact (List.sum_eq_zero fun x hx => by
      obtain ⟨_, _, rfl⟩ := List.mem_map.mp hx
      rfl).symm
  | cons a as ih =>
    rw [List.map_cons, List.sum_cons, ih, sum_map_filter, ← List.sum_map_add]
    refine congrArg List.sum (List.map_congr_left fun b _ => ?_)
    cases h : R a b
    · rw [List.filter_cons_of_neg (p := fun a => R a b) (by simp [h])]
      simp
    · rw [List.filter_cons_of_pos (p := fun a => R a b) h, List.map_cons, List.sum_cons]
      simp

end TradeDesk.Table
