import Mathlib.Data.List.Perm.Basic
import Mathlib.Tactic.Common

/-!
# Entries read into a state

A list of entries is read into a state one by one. At its turn an entry is
there already, or is written, or is refused and named with the reason, or
raises, which ends the reading (`turns`, and as a relation `Took`).

Refused entries leave no trace in the state, so the others fare as if those
had not been listed (`Took.without`). An entry is settled in a state that
would not write it any more. If reading an entry settles it, and nothing
read later unsettles it, then reading the list again writes nothing
(`Took.settled`, `took_of_settled`); and where an entry that is there
already changes nothing, only settled entries are read without writing
(`Took.settled_of_nothing`).

`Reads` compares an importer that is written in another way, one that reads
a whole file before it writes, or that keeps a cache beside the state, with
the turns of its entries: the same state, the same writes, and the same
refusals in some order.
-/

namespace TradeDesk.Lists

/-- What becomes of an entry. -/
inductive Turn (σ κ ε : Type) where
  | already (s : σ)
  | wrote (s : σ) (k : κ)
  | skipped (e : ε)
  | raised

/-- What was written, by its kind, and what was refused, by its place. -/
structure Tally (π κ ε : Type) where
  wrote : List κ
  skipped : List (π × ε)
deriving DecidableEq

variable {σ τ α β π κ ε : Type}

def Tally.add (t u : Tally π κ ε) : Tally π κ ε :=
  ⟨t.wrote ++ u.wrote, t.skipped ++ u.skipped⟩

/-- One more write, before the others. -/
def Tally.write (k : κ) (t : Tally π κ ε) : Tally π κ ε := ⟨k :: t.wrote, t.skipped⟩

def Tally.skip (p : π) (e : ε) (t : Tally π κ ε) : Tally π κ ε := ⟨t.wrote, (p, e) :: t.skipped⟩

/-- The places that were named. -/
def Tally.places (t : Tally π κ ε) : List π := t.skipped.map (·.1)

@[simp] theorem Tally.write_places (k : κ) (t : Tally π κ ε) : (t.write k).places = t.places := rfl

@[simp] theorem Tally.skip_places (p : π) (e : ε) (t : Tally π κ ε) :
    (t.skip p e).places = p :: t.places := rfl

def turns (step : σ → α → Turn σ κ ε) : σ → List (π × α) → Option (σ × Tally π κ ε)
  | s, [] => some (s, ⟨[], []⟩)
  | s, (p, a) :: rest =>
    match step s a with
    | .already s' => turns step s' rest
    | .wrote s' k => (turns step s' rest).map fun r => (r.1, r.2.write k)
    | .skipped e => (turns step s rest).map fun r => (r.1, r.2.skip p e)
    | .raised => none

/-- The entries were read into `s`, and left `s'`. -/
inductive Took (step : σ → α → Turn σ κ ε) : σ → List (π × α) → σ → Tally π κ ε → Prop
  | done (s : σ) : Took step s [] s ⟨[], []⟩
  | already {s s₁ s' : σ} {p : π} {a : α} {rest : List (π × α)} {t : Tally π κ ε} :
      step s a = .already s₁ → Took step s₁ rest s' t → Took step s ((p, a) :: rest) s' t
  | wrote {s s₁ s' : σ} {k : κ} {p : π} {a : α} {rest : List (π × α)} {t : Tally π κ ε} :
      step s a = .wrote s₁ k → Took step s₁ rest s' t →
      Took step s ((p, a) :: rest) s' (t.write k)
  | skipped {s s' : σ} {e : ε} {p : π} {a : α} {rest : List (π × α)} {t : Tally π κ ε} :
      step s a = .skipped e → Took step s rest s' t →
      Took step s ((p, a) :: rest) s' (t.skip p e)

variable {step : σ → α → Turn σ κ ε} {s s' : σ} {p : π} {a : α} {xs ys : List (π × α)}
  {t u : Tally π κ ε}

theorem turns_cons : turns step s ((p, a) :: xs) =
    match step s a with
    | .already s' => turns step s' xs
    | .wrote s' k => (turns step s' xs).map fun r => (r.1, r.2.write k)
    | .skipped e => (turns step s xs).map fun r => (r.1, r.2.skip p e)
    | .raised => none := rfl

theorem turns_iff : turns step s xs = some (s', t) ↔ Took step s xs s' t := by
  constructor
  · intro h
    induction xs generalizing s t with
    | nil =>
      cases h
      exact .done _
    | cons x rest ih =>
      obtain ⟨p, a⟩ := x
      rw [turns_cons] at h
      split at h
      next heq => exact .already heq (ih h)
      next heq =>
        obtain ⟨⟨_, t'⟩, hrest, hsame⟩ := Option.map_eq_some_iff.mp h
        cases hsame
        exact .wrote heq (ih hrest)
      next heq =>
        obtain ⟨⟨_, t'⟩, hrest, hsame⟩ := Option.map_eq_some_iff.mp h
        cases hsame
        exact .skipped heq (ih hrest)
      · cases h
  · intro h
    induction h with
    | done => rfl
    | already heq _ ih =>
      rw [turns_cons, heq]
      exact ih
    | wrote heq _ ih =>
      rw [turns_cons, heq]
      dsimp only
      rw [ih]
      rfl
    | skipped heq _ ih =>
      rw [turns_cons, heq]
      dsimp only
      rw [ih]
      rfl

/-- Reading a list in two parts. -/
theorem turns_append : turns step s (xs ++ ys) = (turns step s xs).bind fun r =>
    (turns step r.1 ys).map fun r' => (r'.1, r.2.add r'.2) := by
  induction xs generalizing s with
  | nil =>
    change turns step s ys = (turns step s ys).map _
    rw [show (fun r' : σ × Tally π κ ε => (r'.1, (⟨[], []⟩ : Tally π κ ε).add r'.2)) = id from rfl,
      Option.map_id]
    rfl
  | cons x rest ih =>
    obtain ⟨p, a⟩ := x
    rw [List.cons_append, turns_cons, turns_cons]
    split
    · exact ih
    · rw [ih, Option.map_bind, Option.bind_map]
      simp only [Function.comp_def, Option.map_map]
      rfl
    · rw [ih, Option.map_bind, Option.bind_map]
      simp only [Function.comp_def, Option.map_map]
      rfl
    · rfl

/-! ## Invariants -/

/-- What every write keeps is kept. -/
theorem Took.inv {P : σ → Prop} (h : Took step s xs s' t)
    (halready : ∀ s a s₁, P s → step s a = .already s₁ → P s₁)
    (hwrote : ∀ s a s₁ k, P s → step s a = .wrote s₁ k → P s₁) (hs : P s) : P s' := by
  induction h with
  | done => exact hs
  | already heq _ ih => exact ih (halready _ _ _ hs heq)
  | wrote heq _ ih => exact ih (hwrote _ _ _ _ hs heq)
  | skipped _ _ ih => exact ih hs

/-- Every entry is named or is held from its turn on. -/
theorem Took.held {H : σ → α → Prop} (h : Took step s xs s' t)
    (halready : ∀ s a s₁, step s a = .already s₁ → H s₁ a)
    (hwrote : ∀ s a s₁ k, step s a = .wrote s₁ k → H s₁ a)
    (hkeep : ∀ s b s₁ a, H s a → step s b = .already s₁ ∨ (∃ k, step s b = .wrote s₁ k) → H s₁ a) :
    ∀ x ∈ xs, x.1 ∈ t.places ∨ H s' x.2 := by
  have hstay : ∀ {s s' : σ} {xs : List (π × α)} {t : Tally π κ ε} (a : α),
      Took step s xs s' t → H s a → H s' a := by
    intro s s' xs t a h hs
    exact h.inv (P := fun s => H s a) (fun s b s₁ hp heq => hkeep s b s₁ a hp (.inl heq))
      (fun s b s₁ k hp heq => hkeep s b s₁ a hp (.inr ⟨k, heq⟩)) hs
  induction h with
  | done => simp
  | already heq hrest ih =>
    refine List.forall_mem_cons.mpr ⟨.inr ?_, ih⟩
    exact hstay _ hrest (halready _ _ _ heq)
  | wrote heq hrest ih =>
    refine List.forall_mem_cons.mpr ⟨.inr ?_, ih⟩
    exact hstay _ hrest (hwrote _ _ _ _ heq)
  | skipped _ _ ih =>
    refine List.forall_mem_cons.mpr ⟨.inl List.mem_cons_self, fun x hx => ?_⟩
    exact (ih x hx).imp_left (List.mem_cons_of_mem _)

/-! ## The list without what was refused -/

def withoutPlaces [DecidableEq π] (xs : List (π × α)) (named : List π) : List (π × α) :=
  xs.filter fun x => x.1 ∉ named

theorem withoutPlaces_cons_of_notMem [DecidableEq π] {named : List π} (h : p ∉ named) :
    withoutPlaces ((p, a) :: xs) named = (p, a) :: withoutPlaces xs named :=
  List.filter_cons_of_pos (by simpa using h)

theorem withoutPlaces_cons_of_mem [DecidableEq π] {named : List π} (h : p ∈ named) :
    withoutPlaces ((p, a) :: xs) named = withoutPlaces xs named :=
  List.filter_cons_of_neg (by simpa using h)

/-- **What was refused might as well not have been listed.** -/
theorem Took.without [DecidableEq π] (h : Took step s xs s' t) (hplaces : (xs.map (·.1)).Nodup) :
    Took step s (withoutPlaces xs t.places) s' ⟨t.wrote, []⟩ := by
  have hnamed : ∀ {s s' : σ} {xs : List (π × α)} {t : Tally π κ ε}, Took step s xs s' t →
      ∀ p ∈ t.places, p ∈ xs.map (·.1) := by
    intro s s' xs t h
    induction h with
    | done => simp [Tally.places]
    | already _ _ ih => exact fun p hp => List.mem_cons_of_mem _ (ih p hp)
    | wrote _ _ ih => exact fun p hp => List.mem_cons_of_mem _ (ih p hp)
    | skipped _ _ ih =>
      intro p hp
      rcases List.mem_cons.mp hp with rfl | hp
      · exact List.mem_cons_self
      · exact List.mem_cons_of_mem _ (ih p hp)
  -- the place of an entry is named by its own turn only
  have hother : ∀ {p : π} {rest : List (π × α)} {s s' : σ} {t : Tally π κ ε},
      (p :: rest.map (·.1)).Nodup → Took step s rest s' t → p ∉ t.places := by
    intro p rest s s' t hnodup h hp
    exact (List.nodup_cons.mp hnodup).1 (hnamed h p hp)
  induction h with
  | done => exact .done _
  | already heq hrest ih =>
    rw [withoutPlaces_cons_of_notMem (hother hplaces hrest)]
    exact .already heq (ih (List.nodup_cons.mp hplaces).2)
  | wrote heq hrest ih =>
    rw [Tally.write_places, withoutPlaces_cons_of_notMem (hother hplaces hrest)]
    exact .wrote heq (ih (List.nodup_cons.mp hplaces).2)
  | @skipped s s' e p a rest t heq hrest ih =>
    rw [Tally.skip_places, withoutPlaces_cons_of_mem List.mem_cons_self]
    have hsame : withoutPlaces rest (p :: t.places) = withoutPlaces rest t.places := by
      refine List.filter_congr fun x hx => decide_eq_decide.mpr (not_congr ?_)
      have hne : x.1 ≠ p := fun heq =>
        (List.nodup_cons.mp hplaces).1 (List.mem_map.mpr ⟨x, hx, heq⟩)
      rw [List.mem_cons, or_iff_right hne]
    rw [hsame]
    exact ih (List.nodup_cons.mp hplaces).2

/-- Without refusals the places do not matter. -/
theorem Took.relabel (h : Took step s xs s' t) (ht : t.skipped = [])
    (hsame : ys.map (·.2) = xs.map (·.2)) : Took step s ys s' t := by
  induction h generalizing ys with
  | done =>
    rw [List.map_nil, List.map_eq_nil_iff] at hsame
    rw [hsame]
    exact .done _
  | already heq _ ih =>
    obtain ⟨y, rest, rfl, hy, hrest⟩ := List.map_eq_cons_iff.mp hsame
    obtain ⟨p, b⟩ := y
    cases hy
    exact .already heq (ih ht hrest)
  | wrote heq _ ih =>
    obtain ⟨y, rest, rfl, hy, hrest⟩ := List.map_eq_cons_iff.mp hsame
    obtain ⟨p, b⟩ := y
    cases hy
    exact .wrote heq (ih ht hrest)
  | skipped => cases ht

/-! ## Settled entries -/

/-- The state would not write the entry. -/
def Settled (step : σ → α → Turn σ κ ε) (s : σ) (a : α) : Prop :=
  step s a = .already s ∨ ∃ e, step s a = .skipped e

/-- Settled entries are read without a change. -/
theorem took_of_settled (h : ∀ x ∈ xs, Settled step s x.2) :
    ∃ skipped, Took step s xs s ⟨[], skipped⟩ := by
  induction xs with
  | nil => exact ⟨[], .done s⟩
  | cons x rest ih =>
    obtain ⟨skipped, hrest⟩ := ih fun y hy => h y (List.mem_cons_of_mem _ hy)
    rcases h x List.mem_cons_self with heq | ⟨e, heq⟩
    · exact ⟨skipped, .already heq hrest⟩
    · exact ⟨(x.1, e) :: skipped, .skipped heq hrest⟩

/-- What an entry's own turn settles, and no later one of the list
unsettles, is settled in the end. -/
theorem Took.settled (h : Took step s xs s' t)
    (halready : ∀ s, ∀ x ∈ xs, ∀ s₁, step s x.2 = .already s₁ → s₁ = s)
    (hwrote : ∀ s, ∀ x ∈ xs, ∀ s₁ k, step s x.2 = .wrote s₁ k → Settled step s₁ x.2)
    (hkeep : ∀ s, ∀ x ∈ xs, ∀ y ∈ xs, ∀ s₁ k, Settled step s x.2 → step s y.2 = .wrote s₁ k →
      Settled step s₁ x.2) :
    ∀ x ∈ xs, Settled step s' x.2 := by
  -- over a part of the list, for the entries of all of it
  have hstay : ∀ {s s' : σ} {ys : List (π × α)} {t : Tally π κ ε}, Took step s ys s' t →
      (∀ y ∈ ys, y ∈ xs) → ∀ x ∈ xs, Settled step s x.2 → Settled step s' x.2 := by
    intro s s' ys t h
    induction h with
    | done => exact fun _ x _ hx => hx
    | already heq _ ih =>
      intro hys x hx hsettled
      have hsame := halready _ _ (hys _ List.mem_cons_self) _ heq
      exact ih (fun y hy => hys y (List.mem_cons_of_mem _ hy)) x hx (hsame ▸ hsettled)
    | wrote heq _ ih =>
      intro hys x hx hsettled
      refine ih (fun y hy => hys y (List.mem_cons_of_mem _ hy)) x hx ?_
      exact hkeep _ x hx _ (hys _ List.mem_cons_self) _ _ hsettled heq
    | skipped _ _ ih =>
      exact fun hys x hx hsettled =>
        ih (fun y hy => hys y (List.mem_cons_of_mem _ hy)) x hx hsettled
  have hall : ∀ {s s' : σ} {ys : List (π × α)} {t : Tally π κ ε}, Took step s ys s' t →
      (∀ y ∈ ys, y ∈ xs) → ∀ y ∈ ys, Settled step s' y.2 := by
    intro s s' ys t h
    induction h with
    | done => simp
    | already heq hrest ih =>
      intro hys
      have htail := fun y hy => hys y (List.mem_cons_of_mem _ hy)
      refine List.forall_mem_cons.mpr ⟨?_, ih htail⟩
      have hsame := halready _ _ (hys _ List.mem_cons_self) _ heq
      refine hstay hrest htail _ (hys _ List.mem_cons_self) ?_
      exact .inl (by rw [hsame] at heq ⊢; exact heq)
    | wrote heq hrest ih =>
      intro hys
      have htail := fun y hy => hys y (List.mem_cons_of_mem _ hy)
      refine List.forall_mem_cons.mpr ⟨?_, ih htail⟩
      refine hstay hrest htail _ (hys _ List.mem_cons_self) ?_
      exact hwrote _ _ (hys _ List.mem_cons_self) _ _ heq
    | skipped heq hrest ih =>
      intro hys
      have htail := fun y hy => hys y (List.mem_cons_of_mem _ hy)
      refine List.forall_mem_cons.mpr ⟨?_, ih htail⟩
      exact hstay hrest htail _ (hys _ List.mem_cons_self) (.inr ⟨_, heq⟩)
  exact hall h fun y hy => hy

/-- Where an entry that is there already changes nothing, only settled
entries are read without writing. -/
theorem Took.settled_of_nothing (h : Took step s xs s' t) (ht : t.wrote = [])
    (halready : ∀ s a s₁, step s a = .already s₁ → s₁ = s) :
    s' = s ∧ ∀ x ∈ xs, Settled step s x.2 := by
  induction h with
  | done => exact ⟨rfl, by simp⟩
  | already heq _ ih =>
    have hsame := halready _ _ _ heq
    obtain ⟨hs, hrest⟩ := ih ht
    rw [hsame] at hs hrest heq
    exact ⟨hs, List.forall_mem_cons.mpr ⟨.inl heq, hrest⟩⟩
  | wrote => cases ht
  | skipped heq _ ih =>
    obtain ⟨hs, hrest⟩ := ih ht
    exact ⟨hs, List.forall_mem_cons.mpr ⟨.inr ⟨_, heq⟩, hrest⟩⟩

/-! ## Reading to the end -/

/-- Entries that raise in every state of an invariant, or in none. -/
theorem turns_isSome_iff {P : σ → Prop} {fatal : α → Prop} (hs : P s)
    (hfatal : ∀ s, ∀ x ∈ xs, P s → (step s x.2 = .raised ↔ fatal x.2))
    (halready : ∀ s a s₁, P s → step s a = .already s₁ → P s₁)
    (hwrote : ∀ s a s₁ k, P s → step s a = .wrote s₁ k → P s₁) :
    (turns step s xs).isSome = true ↔ ∀ x ∈ xs, ¬ fatal x.2 := by
  induction xs generalizing s with
  | nil => simp [turns]
  | cons x rest ih =>
    obtain ⟨p, a⟩ := x
    have hhead := hfatal s (p, a) List.mem_cons_self hs
    have htail := fun s (y : π × α) hy => hfatal s y (List.mem_cons_of_mem _ hy)
    rw [List.forall_mem_cons, ← hhead]
    rw [turns_cons]
    split
    next heq =>
      rw [ih (halready _ _ _ hs heq) htail]
      simp [heq]
    next heq =>
      rw [Option.isSome_map, ih (hwrote _ _ _ _ hs heq) htail]
      simp [heq]
    next heq =>
      rw [Option.isSome_map, ih hs htail]
      simp [heq]
    next heq => simp [heq]

/-! ## Other ways to read the same entries -/

/-- An importer of many entries. -/
abbrev Part (σ π κ ε : Type) := σ → Option (σ × Tally π κ ε)

def Part.andThen (f g : Part σ π κ ε) : Part σ π κ ε := fun s =>
  (f s).bind fun r => (g r.1).map fun r' => (r'.1, r.2.add r'.2)

def parts (fs : List (Part σ π κ ε)) : Part σ π κ ε :=
  fs.foldr Part.andThen fun s => some (s, ⟨[], []⟩)

/-- The same writes, and the same refusals in some order. -/
structure Tally.Like (t u : Tally π κ ε) : Prop where
  wrote : t.wrote = u.wrote
  skipped : t.skipped.Perm u.skipped

theorem Tally.Like.refl (t : Tally π κ ε) : t.Like t := ⟨rfl, .refl _⟩

theorem Tally.Like.add {t u t' u' : Tally π κ ε} (h : t.Like u) (h' : t'.Like u') :
    (t.add t').Like (u.add u') where
  wrote := by
    unfold Tally.add
    rw [h.wrote, h'.wrote]
  skipped := h.skipped.append h'.skipped

/-- The same outcome. -/
def Alike (a b : Option (σ × Tally π κ ε)) : Prop :=
  Option.Rel (fun r r' => r.1 = r'.1 ∧ r.2.Like r'.2) a b

theorem Alike.refl (a : Option (σ × Tally π κ ε)) : Alike a a := by
  cases a with
  | none => exact .none
  | some r => exact .some ⟨rfl, .refl _⟩

theorem Alike.trans {a b c : Option (σ × Tally π κ ε)} (h : Alike a b) (h' : Alike b c) :
    Alike a c := by
  cases h with
  | none => exact h'
  | some hr =>
    cases h' with
    | some hr' =>
      exact .some ⟨hr.1.trans hr'.1, hr.2.wrote.trans hr'.2.wrote, hr.2.skipped.trans hr'.2.skipped⟩

theorem Alike.map {a b : Option (σ × Tally π κ ε)} (h : Alike a b)
    {f g : σ × Tally π κ ε → σ × Tally π κ ε}
    (hfg : ∀ s t u, t.Like u → (f (s, t)).1 = (g (s, u)).1 ∧ (f (s, t)).2.Like (g (s, u)).2) :
    Alike (a.map f) (b.map g) := by
  cases h with
  | none => exact .none
  | @some r r' hr =>
    obtain ⟨s, t⟩ := r
    obtain ⟨s', u⟩ := r'
    obtain ⟨rfl, hlike⟩ := hr
    exact .some (hfg _ _ _ hlike)

theorem Alike.write {a b : Option (σ × Tally π κ ε)} (h : Alike a b) (k : κ) :
    Alike (a.map fun r => (r.1, r.2.write k)) (b.map fun r => (r.1, r.2.write k)) :=
  h.map fun _ _ _ hlike => ⟨rfl, congrArg (k :: ·) hlike.wrote, hlike.skipped⟩

theorem Alike.skip {a b : Option (σ × Tally π κ ε)} (h : Alike a b) (p : π) (e : ε) :
    Alike (a.map fun r => (r.1, r.2.skip p e)) (b.map fun r => (r.1, r.2.skip p e)) :=
  h.map fun _ _ _ hlike => ⟨rfl, hlike.wrote, hlike.skipped.cons (p, e)⟩

/-- The importer does what the turns of the entries do. -/
def Reads (f : Part σ π κ ε) (step : σ → α → Turn σ κ ε) (xs : List (π × α)) : Prop :=
  ∀ s, Alike (f s) (turns step s xs)

theorem reads_turns : Reads (fun s => turns step s xs) step xs := fun _ => .refl _

theorem reads_pass : Reads (fun s => some (s, ⟨[], []⟩)) step ([] : List (π × α)) := fun _ => .refl _

theorem Reads.andThen {f g : Part σ π κ ε} (hf : Reads f step xs) (hg : Reads g step ys) :
    Reads (f.andThen g) step (xs ++ ys) := by
  intro s
  rw [turns_append]
  unfold Part.andThen
  have hfs := hf s
  revert hfs
  cases f s with
  | none =>
    intro hfs
    generalize turns step s xs = b at hfs ⊢
    cases hfs
    exact .none
  | some r =>
    intro hfs
    generalize turns step s xs = b at hfs ⊢
    cases hfs with
    | @some _ r' hr =>
      rw [Option.bind_some, Option.bind_some, hr.1]
      exact (hg r'.1).map fun _ _ _ hlike => ⟨rfl, hr.2.add hlike⟩

/-- Importers one after the other read their entries one after the other. -/
theorem reads_parts {γ : Type} {files : List γ} {f : γ → Part σ π κ ε}
    {entries : γ → List (π × α)} (h : ∀ c ∈ files, Reads (f c) step (entries c)) :
    Reads (parts (files.map f)) step (files.flatMap entries) := by
  induction files with
  | nil => exact reads_pass
  | cons c rest ih =>
    rw [List.map_cons, List.flatMap_cons]
    exact (h c List.mem_cons_self).andThen (ih fun d hd => h d (List.mem_cons_of_mem _ hd))

/-- A tally that an importer gives is one of its entries' turns. -/
theorem Reads.took {f : Part σ π κ ε} (h : Reads f step xs) (hf : f s = some (s', t)) :
    ∃ u, Took step s xs s' u ∧ t.Like u := by
  have hs := h s
  rw [hf] at hs
  generalize hturns : turns step s xs = b at hs
  cases hs with
  | @some _ r hr =>
    obtain ⟨s₁, u⟩ := r
    obtain ⟨rfl, hlike⟩ := hr
    exact ⟨u, turns_iff.mp hturns, hlike⟩

/-- And the other way about. -/
theorem Reads.of_took {f : Part σ π κ ε} (h : Reads f step xs) (hu : Took step s xs s' u) :
    ∃ t, f s = some (s', t) ∧ t.Like u := by
  have hs := h s
  rw [turns_iff.mpr hu] at hs
  generalize hf : f s = b at hs
  cases hs with
  | @some r _ hr =>
    obtain ⟨s₁, t⟩ := r
    obtain ⟨rfl, hlike⟩ := hr
    exact ⟨t, rfl, hlike⟩

theorem Reads.isSome {f : Part σ π κ ε} (h : Reads f step xs) :
    (f s).isSome = (turns step s xs).isSome := by
  have hs := h s
  generalize f s = a at hs ⊢
  generalize turns step s xs = b at hs ⊢
  cases hs with
  | none => rfl
  | some => rfl

/-! ## A file that is read whole -/

/-- What one line of a file reads as. -/
inductive Read (β ε : Type) where
  | blank
  | bad (e : ε)
  | row (b : β)
  | raised

/-- The rows of a file, and its bad lines. -/
def readAll (read : α → Read β ε) : List (π × α) → Option (List (π × β) × List (π × ε))
  | [] => some ([], [])
  | (p, a) :: rest =>
    match read a with
    | .blank => readAll read rest
    | .bad e => (readAll read rest).map fun r => (r.1, (p, e) :: r.2)
    | .row b => (readAll read rest).map fun r => ((p, b) :: r.1, r.2)
    | .raised => none

/-- The turn of a line. -/
def lineTurn (read : α → Read β ε) (row : σ → β → Turn σ κ ε) (s : σ) (a : α) : Turn σ κ ε :=
  match read a with
  | .blank => .already s
  | .bad e => .skipped e
  | .row b => row s b
  | .raised => .raised

/-- All lines first, then all rows. -/
def wholeFile (read : α → Read β ε) (rows : List (π × β) → Part σ π κ ε) (lines : List (π × α)) :
    Part σ π κ ε := fun s =>
  (readAll read lines).bind fun r =>
    (rows r.1 s).map fun r' => (r'.1, ⟨r'.2.wrote, r.2 ++ r'.2.skipped⟩)

theorem reads_wholeFile {read : α → Read β ε} {row : σ → β → Turn σ κ ε}
    {rows : List (π × β) → Part σ π κ ε} {lines : List (π × α)}
    (hrows : ∀ rs, Reads (rows rs) row rs) :
    Reads (wholeFile read rows lines) (lineTurn read row) lines := by
  -- with what the lines read so far have left to be named
  suffices h : ∀ s, Alike ((readAll read lines).bind fun r => (turns row s r.1).map fun r' =>
      (r'.1, (⟨[], r.2⟩ : Tally π κ ε).add r'.2)) (turns (lineTurn read row) s lines) by
    intro s
    have hs := h s
    unfold wholeFile
    generalize turns (lineTurn read row) s lines = c at hs ⊢
    cases hread : readAll read lines with
    | none =>
      rw [hread] at hs
      exact hs
    | some r =>
      rw [hread, Option.bind_some] at hs
      rw [Option.bind_some]
      exact ((hrows r.1 s).map fun _ t u hlike =>
        ⟨rfl, hlike.wrote, hlike.skipped.append_left r.2⟩).trans hs
  intro s
  induction lines generalizing s with
  | nil => exact .refl _
  | cons x rest ih =>
    obtain ⟨p, a⟩ := x
    rw [turns_cons]
    unfold readAll lineTurn
    cases read a with
    | blank => exact ih s
    | raised => exact .none
    | bad e =>
      dsimp only
      rw [Option.bind_map]
      refine Alike.trans ?_ ((ih s).skip p e)
      rw [Option.map_bind]
      simp only [Function.comp_def, Option.map_map]
      exact .refl _
    | row b =>
      dsimp only
      rw [Option.bind_map]
      simp only [Function.comp_def, turns_cons]
      cases row s b with
      | already s₁ => exact ih s₁
      | raised =>
        cases readAll read rest with
        | none => exact .none
        | some => exact .none
      | wrote s₁ k =>
        refine Alike.trans ?_ ((ih s₁).write k)
        rw [Option.map_bind]
        simp only [Function.comp_def, Option.map_map]
        exact .refl _
      | skipped e =>
        refine Alike.trans ?_ ((ih s).skip p e)
        cases readAll read rest with
        | none => exact .none
        | some r =>
          simp only [Option.bind_some, Option.map_map, Function.comp_def]
          cases turns row s r.1 with
          | none => exact .none
          | some r' => exact .some ⟨rfl, rfl, List.perm_middle⟩

/-! ## A cache beside the state -/

/-- The turns of an importer that keeps a cache, against those of one that
does not. -/
inductive TurnRel (R : τ → σ → Prop) : Turn τ κ ε → Turn σ κ ε → Prop
  | already {c : τ} {s : σ} : R c s → TurnRel R (.already c) (.already s)
  | wrote {c : τ} {s : σ} {k : κ} : R c s → TurnRel R (.wrote c k) (.wrote s k)
  | skipped {e : ε} : TurnRel R (.skipped e) (.skipped e)
  | raised : TurnRel R .raised .raised

theorem turns_rel {R : τ → σ → Prop} (cached : τ → α → Turn τ κ ε) (xs : List (π × α))
    (hstep : ∀ c s a, R c s → TurnRel R (cached c a) (step s a)) {c : τ} (h : R c s) :
    Option.Rel (fun r r' => R r.1 r'.1 ∧ r.2 = r'.2) (turns cached c xs) (turns step s xs) := by
  induction xs generalizing c s with
  | nil => exact .some ⟨h, rfl⟩
  | cons x rest ih =>
    obtain ⟨p, a⟩ := x
    rw [turns_cons, turns_cons]
    have hturn := hstep c s a h
    generalize cached c a = turn at hturn ⊢
    generalize step s a = turn' at hturn ⊢
    cases hturn with
    | already hr => exact ih hr
    | raised => exact .none
    | @wrote c' s' k hr =>
      dsimp only
      have hrest := ih hr
      generalize turns cached c' rest = x at hrest ⊢
      generalize turns step s' rest = y at hrest ⊢
      cases hrest with
      | none => exact .none
      | some hxy => exact .some ⟨hxy.1, congrArg (Tally.write k) hxy.2⟩
    | skipped =>
      dsimp only
      have hrest := ih h
      generalize turns cached c rest = x at hrest ⊢
      generalize turns step s rest = y at hrest ⊢
      cases hrest with
      | none => exact .none
      | some hxy => exact .some ⟨hxy.1, congrArg (Tally.skip p _) hxy.2⟩

/-- A cache that agrees with the state it starts from is not noticed. -/
theorem reads_cached {χ : Type} (agrees : χ → σ → Prop) (start : σ → χ)
    {cached : σ × χ → α → Turn (σ × χ) κ ε} (hstart : ∀ s, agrees (start s) s)
    (hstep : ∀ s c a, agrees c s →
      TurnRel (fun c s => c.1 = s ∧ agrees c.2 s) (cached (s, c) a) (step s a)) :
    Reads (fun s => (turns cached (s, start s) xs).map fun r => (r.1.1, r.2)) step xs := by
  intro s
  have h := turns_rel (R := fun c s => c.1 = s ∧ agrees c.2 s) cached xs
    (fun c s a hc => by
      obtain ⟨c₁, c₂⟩ := c
      obtain ⟨rfl, hc⟩ := hc
      exact hstep _ c₂ a hc) (c := (s, start s)) ⟨rfl, hstart s⟩
  dsimp only
  generalize turns cached (s, start s) xs = x at h ⊢
  generalize turns step s xs = y at h ⊢
  cases h with
  | none => exact .none
  | some hxy => exact .some ⟨hxy.1.1, by rw [hxy.2]; exact .refl _⟩

end TradeDesk.Lists
