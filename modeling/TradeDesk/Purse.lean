import Mathlib.Algebra.Order.Group.Defs
import Mathlib.Algebra.Order.Group.Int
import Mathlib.Logic.Relation
import Mathlib.Tactic.Abel
import Mathlib.Tactic.Common

/-!
# A purse with a reserve

The general shape of a book that may promise before it pays. A purse has
money on hand, money promised, and carries a number of items: those it
has paid for and those it has promised to. It may promise only what
leaves the reserve untouched, and only while it carries fewer items than
the cap; a promise is later kept, at no more than it said, or let go; and
what was paid for may be sold again.

`Move.solvent` is the step lemma and `Moves.solvent` the run lemma: what
is on hand, less what is promised, never falls below the reserve, and the
purse never carries more than the cap. So keeping promises, in whatever
order, never touches the reserve (`Solvent.reserve_le_free`).
-/

namespace TradeDesk

variable {M : Type} [AddCommGroup M] [LinearOrder M] [IsOrderedAddMonoid M]

@[ext]
structure Purse (M : Type) where
  /-- On hand. -/
  free : M
  /-- Promised and not yet paid. -/
  pledged : M
  /-- Items paid for or promised to. -/
  carried : ℤ

namespace Purse

inductive Move (reserve : M) (cap : ℤ) : Purse M → Purse M → Prop
  | pledge (p : Purse M) (m : M) : 0 ≤ m → reserve ≤ p.free - p.pledged - m → p.carried < cap →
      Move reserve cap p ⟨p.free, p.pledged + m, p.carried + 1⟩
  /-- A promise of `m` is kept, at the price `a`. -/
  | pay (p : Purse M) (m a : M) : a ≤ m → m ≤ p.pledged →
      Move reserve cap p ⟨p.free - a, p.pledged - m, p.carried⟩
  | release (p : Purse M) (m : M) : 0 ≤ m → m ≤ p.pledged →
      Move reserve cap p ⟨p.free, p.pledged - m, p.carried - 1⟩
  | sell (p : Purse M) (a : M) : 0 ≤ a → Move reserve cap p ⟨p.free + a, p.pledged, p.carried - 1⟩
  | idle (p : Purse M) : Move reserve cap p p

def Moves (reserve : M) (cap : ℤ) : Purse M → Purse M → Prop :=
  Relation.ReflTransGen (Move reserve cap)

structure Solvent (reserve : M) (cap : ℤ) (p : Purse M) : Prop where
  covered : reserve ≤ p.free - p.pledged
  nonneg : 0 ≤ p.pledged
  room : p.carried ≤ cap

variable {reserve : M} {cap : ℤ} {p q : Purse M}

/-- **A move keeps a purse solvent.** -/
theorem Move.solvent (hm : Move reserve cap p q) (hp : Solvent reserve cap p) :
    Solvent reserve cap q := by
  cases hm with
  | pledge m hm hres hcap =>
    refine ⟨?_, add_nonneg hp.nonneg hm, by simp only; omega⟩
    simpa only [sub_sub] using hres
  | pay m a ham hmp =>
    refine ⟨?_, sub_nonneg.mpr hmp, hp.room⟩
    -- what is left of the promise goes back to what is on hand
    have hsplit : p.free - a - (p.pledged - m) = p.free - p.pledged + (m - a) := by abel
    simp only [hsplit]
    exact le_trans hp.covered (le_add_of_nonneg_right (sub_nonneg.mpr ham))
  | release m hm hmp =>
    refine ⟨?_, sub_nonneg.mpr hmp, by have := hp.room; simp only; omega⟩
    exact le_trans hp.covered (sub_le_sub_left (sub_le_self _ hm) _)
  | sell a ha =>
    refine ⟨?_, hp.nonneg, by have := hp.room; simp only; omega⟩
    exact le_trans hp.covered (sub_le_sub_right (le_add_of_nonneg_right ha) _)
  | idle => exact hp

/-- **A run of moves keeps a purse solvent.** -/
theorem Moves.solvent (hm : Moves reserve cap p q) (hp : Solvent reserve cap p) :
    Solvent reserve cap q := by
  induction hm with
  | refl => exact hp
  | tail _ hstep ih => exact hstep.solvent ih

/-- With what is promised still to pay, the reserve is on hand. -/
theorem Solvent.reserve_le_free (hp : Solvent reserve cap p) : reserve ≤ p.free :=
  le_trans hp.covered (sub_le_self _ hp.nonneg)

end Purse

end TradeDesk
