import TradeDesk.Lists.Dict
import Mathlib.Data.List.Induction

/-!
# The last of a key

A list of entries read so that a later one takes the place of an earlier one
of its key, as assignments do, and mappings built entry by entry. Of entries
in groups the last of a key is looked for in the last group of its name
first: if it is there it counts (`lastOf_flatMap`), and an entry of an
earlier group may outlive a last group that has none of its key.
-/

namespace TradeDesk.Lists

variable {κ κ' α β : Type}

/-- The entries of groups, each under its group's name and its own key. -/
def ungroup (groups : List (κ × List (κ' × α))) : List ((κ × κ') × α) :=
  groups.flatMap fun b => b.2.map fun e => ((b.1, e.1), e.2)

theorem mem_ungroup {groups : List (κ × List (κ' × α))} {x : (κ × κ') × α} :
    x ∈ ungroup groups ↔ ∃ b ∈ groups, ∃ e ∈ b.2, x = ((b.1, e.1), e.2) := by
  unfold ungroup
  simp [eq_comm]

theorem ungroup_append (groups rest : List (κ × List (κ' × α))) :
    ungroup (groups ++ rest) = ungroup groups ++ ungroup rest := List.flatMap_append

variable [DecidableEq κ] [DecidableEq κ']

/-- What the last entry of a key says. -/
def lastOf (l : List (κ × α)) (k : κ) : Option α := l.reverse.lookup k

variable {l m : List (κ × α)} {k : κ} {v : α}

theorem lastOf_isSome : (lastOf l k).isSome = true ↔ ∃ e ∈ l, e.1 = k := by
  unfold lastOf
  rw [List.lookup_isSome_iff]
  constructor
  · rintro ⟨e, he, hk⟩
    exact ⟨e, List.mem_reverse.mp he, (eq_of_beq hk).symm⟩
  · rintro ⟨e, he, hk⟩
    exact ⟨e, List.mem_reverse.mpr he, beq_iff_eq.mpr hk.symm⟩

theorem lastOf_eq_none : lastOf l k = none ↔ ∀ e ∈ l, e.1 ≠ k := by
  rw [← Option.not_isSome_iff_eq_none, lastOf_isSome]
  exact ⟨fun h e he hk => h ⟨e, he, hk⟩, fun h ⟨e, he, hk⟩ => h e he hk⟩

theorem lastOf_mem (h : lastOf l k = some v) : (k, v) ∈ l := by
  obtain ⟨front, back, hl, -⟩ := List.lookup_eq_some_iff.mp h
  exact List.mem_reverse.mp (hl ▸ List.mem_append_right _ List.mem_cons_self)

theorem lastOf_append : lastOf (l ++ m) k = (lastOf m k).or (lastOf l k) := by
  unfold lastOf
  rw [List.reverse_append, List.lookup_append]

theorem lastOf_singleton (e : κ × α) : lastOf [e] k = if e.1 = k then some e.2 else none := by
  by_cases hk : e.1 = k
  · rw [if_pos hk, ← hk]
    exact List.lookup_cons_self
  · rw [if_neg hk, lastOf_eq_none]
    intro x hx
    rwa [List.mem_singleton.mp hx]

/-- Other names for the keys make no difference, if none is a second name for
this one. -/
theorem lastOf_map {f : κ → κ'} {g : α → β} (hf : ∀ e ∈ l, f e.1 = f k → e.1 = k) :
    lastOf (l.map fun e => (f e.1, g e.2)) (f k) = (lastOf l k).map g := by
  induction l using List.reverseRecOn with
  | nil => rfl
  | append_singleton l e ih =>
    have hrest := ih fun x hx => hf x (List.mem_append_left _ hx)
    have he := hf e (List.mem_append_right _ List.mem_cons_self)
    rw [List.map_append, lastOf_append, lastOf_append, hrest, List.map_singleton,
      lastOf_singleton, lastOf_singleton]
    by_cases hk : e.1 = k
    · rw [if_pos hk, if_pos (congrArg f hk)]
      rfl
    · rw [if_neg hk, if_neg (mt he hk)]
      rfl

/-- **What the last group says counts.** -/
theorem lastOf_ungroup {groups : List (κ × List (κ' × α))} {es : List (κ' × α)} {k' : κ'}
    (hlast : lastOf groups k = some es) (h : lastOf es k' = some v) :
    lastOf (ungroup groups) (k, k') = some v := by
  induction groups using List.reverseRecOn with
  | nil => cases hlast
  | append_singleton groups b ih =>
    have hsplit : ungroup [b] = b.2.map fun e => ((b.1, e.1), e.2) := List.append_nil _
    rw [lastOf_append, lastOf_singleton] at hlast
    rw [ungroup_append, hsplit, lastOf_append]
    by_cases hk : b.1 = k
    · rw [if_pos hk] at hlast
      cases hlast
      have hgroup := lastOf_map (l := b.2) (k := k') (f := fun x => (b.1, x)) (g := id)
        fun e _ he => (Prod.mk.inj he).2
      rw [← hk]
      show ((lastOf (b.2.map fun e => ((b.1, e.1), id e.2)) (b.1, k')).or _) = _
      rw [hgroup, h]
      rfl
    · rw [if_neg hk] at hlast
      have hnone : lastOf (b.2.map fun e => ((b.1, e.1), e.2)) (k, k') = none := by
        rw [lastOf_eq_none]
        intro x hx he
        obtain ⟨e, -, rfl⟩ := List.mem_map.mp hx
        exact hk (Prod.mk.inj he).1
      rw [hnone]
      exact ih hlast

/-- A dictionary made of pairs has the last of each key. -/
theorem get?_ofPairs_last (l : List (κ × α)) (k : κ) :
    (Dict.ofPairs l).get? k = lastOf l k := by
  induction l using List.reverseRecOn with
  | nil => rfl
  | append_singleton l e ih =>
    have hset : Dict.ofPairs (l ++ [e]) = (Dict.ofPairs l).set e.1 e.2 := by
      unfold Dict.ofPairs
      rw [List.foldl_append]
      rfl
    rw [hset, Dict.get?_set, lastOf_append, lastOf_singleton, ih]
    by_cases hk : e.1 = k
    · rw [if_pos hk, if_pos hk.symm]
      rfl
    · rw [if_neg hk, if_neg (Ne.symm hk)]
      rfl

end TradeDesk.Lists
