import Mathlib.Data.List.Basic
import Mathlib.Data.List.Nodup
import Mathlib.Tactic.Common

/-!
# Dictionaries

A dictionary is its items in the order their keys were first set, no key
twice. `set` keeps a key in its place, `update` sets every item of another
dictionary, `without` drops keys. What each leaves under a key is one
equation (`get?_set`, `get?_update`, `get?_without`), and nothing else about
them is needed.
-/

namespace TradeDesk.Lists

structure Dict (κ α : Type) where
  items : List (κ × α)
  nodup : (items.map (·.1)).Nodup

namespace Dict

variable {κ α : Type}

def keys (d : Dict κ α) : List κ := d.items.map (·.1)

def values (d : Dict κ α) : List α := d.items.map (·.2)

def empty : Dict κ α := ⟨[], List.nodup_nil⟩

variable [DecidableEq κ]

/-- `d.get(k)`. -/
def get? (d : Dict κ α) (k : κ) : Option α := d.items.lookup k

def has (d : Dict κ α) (k : κ) : Bool := (d.get? k).isSome

/-- The items with one set: a key that is there keeps its place. -/
def setItems (items : List (κ × α)) (k : κ) (v : α) : List (κ × α) :=
  if k ∈ items.map (·.1) then items.map fun e => if e.1 = k then (k, v) else e
  else items ++ [(k, v)]

theorem setItems_keys (items : List (κ × α)) (k : κ) (v : α) :
    (setItems items k v).map (·.1) =
      if k ∈ items.map (·.1) then items.map (·.1) else items.map (·.1) ++ [k] := by
  unfold setItems
  split
  · rw [List.map_map]
    refine List.map_congr_left fun e _ => ?_
    by_cases h : e.1 = k
    · simp [h]
    · simp [h]
  · rw [List.map_append]
    rfl

/-- `d[k] = v`. -/
def set (d : Dict κ α) (k : κ) (v : α) : Dict κ α where
  items := setItems d.items k v
  nodup := by
    rw [setItems_keys]
    split
    · exact d.nodup
    next h =>
      refine List.Nodup.append d.nodup (List.nodup_singleton k) ?_
      simpa using h

/-- `{**d, **e}`. -/
def update (d e : Dict κ α) : Dict κ α := e.items.foldl (fun d item => d.set item.1 item.2) d

/-- `dict(pairs)`: the last value of a key stays. -/
def ofPairs (pairs : List (κ × α)) : Dict κ α :=
  pairs.foldl (fun d item => d.set item.1 item.2) empty

/-- `{k: v for k, v in d.items() if k not in keys}`. -/
def without (d : Dict κ α) (ks : List κ) : Dict κ α where
  items := d.items.filter fun e => e.1 ∉ ks
  nodup := d.nodup.sublist (List.filter_sublist.map _)

/-! ## What is under a key -/

variable {d e : Dict κ α} {k k' : κ} {v : α}

theorem lookup_setItems (items : List (κ × α)) (k k' : κ) (v : α) :
    (setItems items k v).lookup k' = if k' = k then some v else items.lookup k' := by
  unfold setItems
  induction items with
  | nil =>
    by_cases h : k' = k
    · simp [h]
    · rw [if_neg (by simp), if_neg h, List.nil_append, List.lookup_cons,
        beq_eq_false_iff_ne.mpr h]
  | cons e items ih =>
    by_cases hk : k = e.1
    · subst hk
      rw [if_pos (by simp)]
      by_cases h : k' = e.1
      · simp [h]
      · rw [List.map_cons, if_pos rfl, List.lookup_cons, List.lookup_cons, if_neg h]
        rw [beq_eq_false_iff_ne.mpr h]
        dsimp only
        -- further items with this key do not matter to another
        clear ih
        induction items with
        | nil => rfl
        | cons x items ih =>
          rw [List.map_cons, List.lookup_cons, List.lookup_cons]
          by_cases hx : x.1 = e.1
          · rw [if_pos hx, hx, beq_eq_false_iff_ne.mpr h]
            exact ih
          · rw [if_neg hx, ih]
    · have hmem : (k ∈ (e :: items).map (·.1)) ↔ k ∈ items.map (·.1) := by simp [hk]
      by_cases hin : k ∈ items.map (·.1)
      · rw [if_pos (hmem.mpr hin), List.map_cons, if_neg (Ne.symm hk), List.lookup_cons,
          List.lookup_cons]
        rw [if_pos hin] at ih
        by_cases h : k' = e.1
        · rw [beq_iff_eq.mpr h]
          dsimp only
          rw [if_neg (h.trans_ne (Ne.symm hk))]
        · rw [beq_eq_false_iff_ne.mpr h]
          exact ih
      · rw [if_neg (fun h => hin (hmem.mp h)), List.cons_append, List.lookup_cons,
          List.lookup_cons]
        rw [if_neg hin] at ih
        by_cases h : k' = e.1
        · rw [beq_iff_eq.mpr h]
          dsimp only
          rw [if_neg (h.trans_ne (Ne.symm hk))]
        · rw [beq_eq_false_iff_ne.mpr h]
          exact ih

@[simp] theorem get?_set : (d.set k v).get? k' = if k' = k then some v else d.get? k' :=
  lookup_setItems d.items k k' v

@[simp] theorem get?_empty : (empty : Dict κ α).get? k = none := rfl

/-- What a dictionary sets wins. -/
theorem get?_update : (d.update e).get? k = (e.get? k).or (d.get? k) := by
  obtain ⟨items, hnodup⟩ := e
  unfold update get?
  dsimp only
  induction items generalizing d with
  | nil => rfl
  | cons x items ih =>
    rw [List.map_cons, List.nodup_cons] at hnodup
    rw [List.foldl_cons, ih hnodup.2, List.lookup_cons]
    change (items.lookup k).or ((d.set x.1 x.2).get? k) = _
    rw [get?_set]
    by_cases h : k = x.1
    · have hnone : items.lookup k = none := by
        rw [List.lookup_eq_none_iff]
        intro p hp
        have hne : k ≠ p.1 := fun heq => hnodup.1 (List.mem_map.mpr ⟨p, hp, by rw [← heq, h]⟩)
        simpa using hne
      rw [hnone, if_pos h, beq_iff_eq.mpr h]
      rfl
    · rw [if_neg h, beq_eq_false_iff_ne.mpr h]
      rfl

/-- Items with distinct keys are found as they are listed. -/
theorem get?_ofPairs {items : List (κ × α)} (h : (items.map (·.1)).Nodup) :
    (ofPairs items).get? k = items.lookup k := by
  have hupdate : ofPairs items = empty.update ⟨items, h⟩ := rfl
  rw [hupdate, get?_update, get?_empty, Option.or_none]
  rfl

theorem get?_without {ks : List κ} :
    (d.without ks).get? k = if k ∈ ks then none else d.get? k := by
  unfold without get?
  dsimp only
  induction d.items with
  | nil => exact (if_congr Iff.rfl rfl rfl).trans (ite_self none) |>.symm
  | cons x items ih =>
    by_cases hx : x.1 ∈ ks
    · rw [List.filter_cons_of_neg (by simpa using hx), ih, List.lookup_cons]
      by_cases h : k = x.1
      · rw [if_pos (h ▸ hx), if_pos (h ▸ hx)]
      · rw [beq_eq_false_iff_ne.mpr h]
    · rw [List.filter_cons_of_pos (by simpa using hx), List.lookup_cons, List.lookup_cons]
      by_cases h : k = x.1
      · rw [beq_iff_eq.mpr h, if_neg (h ▸ hx)]
      · rw [beq_eq_false_iff_ne.mpr h]
        exact ih

/-- A key set for the first time comes last. -/
theorem set_new (h : k ∉ d.keys) : (d.set k v).items = d.items ++ [(k, v)] := if_neg h

theorem get?_mem (h : d.get? k = some v) : (k, v) ∈ d.items := by
  obtain ⟨before, _, heq, _⟩ := List.lookup_eq_some_iff.mp h
  rw [heq]
  exact List.mem_append_right _ List.mem_cons_self

theorem mem_keys_iff : k ∈ d.keys ↔ (d.get? k).isSome = true := by
  unfold keys get?
  induction d.items with
  | nil => simp
  | cons x items ih =>
    rw [List.map_cons, List.mem_cons, List.lookup_cons]
    by_cases h : k = x.1
    · simp [h]
    · rw [beq_eq_false_iff_ne.mpr h, ← ih]
      simp [h]

/-- An item is what is under its key. -/
theorem get?_of_mem (h : (k, v) ∈ d.items) : d.get? k = some v := by
  have hkey : k ∈ d.keys := List.mem_map_of_mem h
  obtain ⟨v', hv⟩ := Option.isSome_iff_exists.mp (mem_keys_iff.mp hkey)
  have hsame : (k, v') = (k, v) := List.inj_on_of_nodup_map d.nodup (get?_mem hv) h rfl
  rw [hv, (Prod.mk.inj hsame).2]

/-- What is under each key says which items there are. -/
theorem items_perm (h : ∀ k, d.get? k = e.get? k) : d.items.Perm e.items := by
  have hd := d.nodup.of_map
  have he := e.nodup.of_map
  refine (List.perm_ext_iff_of_nodup hd he).mpr fun x => ⟨fun hx => ?_, fun hx => ?_⟩
  · exact get?_mem ((h x.1).symm.trans (get?_of_mem hx))
  · exact get?_mem ((h x.1).trans (get?_of_mem hx))

/-- The last value set under a key is the one that counts. -/
theorem set_set (w : α) : (d.set k v).set k w = d.set k w := by
  have hitems : ((d.set k v).set k w).items = (d.set k w).items := by
    change setItems (setItems d.items k v) k w = setItems d.items k w
    by_cases h : k ∈ d.items.map (·.1)
    · have h' : k ∈ (setItems d.items k v).map (·.1) := by
        rw [setItems_keys, if_pos h]
        exact h
      unfold setItems at h' ⊢
      rw [if_pos h, if_pos h] at *
      rw [if_pos h', List.map_map]
      refine List.map_congr_left fun e _ => ?_
      by_cases he : e.1 = k
      · simp [he]
      · simp [he]
    · have h' : k ∈ (setItems d.items k v).map (·.1) := by
        rw [setItems_keys, if_neg h]
        simp
      unfold setItems at h' ⊢
      rw [if_neg h, if_neg h] at *
      rw [if_pos h', List.map_append, List.map_congr_left (g := id), List.map_id]
      · simp
      · intro e he
        have hne : e.1 ≠ k := fun heq => h (heq ▸ List.mem_map_of_mem he)
        rw [if_neg hne]
        rfl
  cases hl : (d.set k v).set k w
  cases hr : d.set k w
  rw [hl, hr] at hitems
  congr

/-- Setting what is there changes nothing. -/
theorem set_eq_self_iff : d.set k v = d ↔ d.get? k = some v := by
  constructor
  · intro h
    rw [← h, get?_set, if_pos rfl]
  · intro h
    obtain ⟨items, hnodup⟩ := d
    have hitems : setItems items k v = items := by
      have hmem := get?_mem h
      unfold setItems
      rw [if_pos (List.mem_map_of_mem hmem)]
      refine (List.map_congr_left fun e he => ?_).trans (List.map_id _)
      split
      next hk => exact List.inj_on_of_nodup_map hnodup hmem he hk.symm
      next => rfl
    unfold set
    congr

/-- Values lined up with a list that has their keys are those found under
them. -/
theorem forall₂_values {β : Type} {f : β → κ} {R : β → α → Prop} {l : List β}
    (hkeys : d.keys = l.map f) :
    List.Forall₂ R l d.values ↔ ∀ b ∈ l, ∃ v, d.get? (f b) = some v ∧ R b v := by
  obtain ⟨items, hnodup⟩ := d
  unfold keys at hkeys
  unfold values get?
  dsimp only at hkeys ⊢
  induction l generalizing items with
  | nil =>
    rw [List.map_eq_nil_iff.mp hkeys]
    simp
  | cons b l ih =>
    cases items with
    | nil => cases hkeys
    | cons e items =>
      rw [List.map_cons, List.map_cons, List.cons.injEq] at hkeys
      rw [List.map_cons, List.nodup_cons] at hnodup
      rw [List.map_cons, List.forall₂_cons, ih items hnodup.2 hkeys.2, List.forall_mem_cons]
      -- the first key is none of the others
      have hother : ∀ c ∈ l, (e :: items).lookup (f c) = items.lookup (f c) := by
        intro c hc
        have hne : f c ≠ e.1 := fun heq => hnodup.1 (by
          rw [hkeys.2, ← heq]
          exact List.mem_map_of_mem hc)
        rw [List.lookup_cons, beq_eq_false_iff_ne.mpr hne]
      have hfirst : (e :: items).lookup (f b) = some e.2 := by
        rw [List.lookup_cons, beq_iff_eq.mpr hkeys.1.symm]
      rw [hfirst]
      refine and_congr (by simp) ?_
      exact forall_congr' fun c => imp_congr_right fun hc => by rw [hother c hc]

/-- Items lined up likewise. -/
theorem items_eq_map {β : Type} {f : β → κ} {g : β → α} {l : List β} (hkeys : d.keys = l.map f)
    (h : ∀ b ∈ l, d.get? (f b) = some (g b)) : d.items = l.map fun b => (f b, g b) := by
  have hvalues : l.map g = d.values := by
    rw [← List.forall₂_eq_eq_eq, List.forall₂_map_left_iff]
    exact (forall₂_values hkeys).mpr fun b hb => ⟨g b, h b hb, rfl⟩
  have hzip : d.items = d.keys.zip d.values := by
    unfold keys values
    rw [List.zip_map', List.map_id']
  rw [hzip, hkeys, ← hvalues, List.zip_map']

end Dict

end TradeDesk.Lists
