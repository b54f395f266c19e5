import Mathlib.Tactic.Common

/-!
# Tasks behind one lock

Tasks share a value and take turns at it in any order, one operation a
turn; which of an operation's outcomes comes about is not theirs to say. A
task that waits for the lock can only go on while nobody holds it, so what
the holder leaves half done is seen by no other.

`Discipline` is what each single operation owes: under `I` it leaves `I`,
`Free` when it gives the lock up, and what it knows (`Knows`) of the value
it has then. What a task knows while it does not hold the lock must outlast
the moves `R` the others make. `Discipline.run` is the induction over a
whole run, of any tasks called at any time: what each task knows, it knows
in every state reached.
-/

namespace TradeDesk.Async

/-- Tasks `τ`, called as `κ`, that share a `σ`. An operation's outcome is
chosen by a `φ`; it does not come about while the task has to wait. -/
structure Mutex (κ φ σ τ : Type) where
  start : κ → τ
  next : φ → τ → σ → Option (τ × σ)
  holds : τ → Bool
  locked : σ → Bool
  /-- Everybody is gone and the lock is free. -/
  reset : σ → σ

/-- What is shared, and the tasks called so far. -/
structure Crowd (σ τ : Type) where
  shared : σ
  tasks : List τ

/-- What happens next: a call, an operation of one task, or an end of all. -/
inductive Turn (κ φ : Type) where
  | call (c : κ)
  | step (i : ℕ) (outcome : φ)
  | reset

variable {κ φ σ τ : Type}

namespace Mutex

variable (m : Mutex κ φ σ τ)

def turn (s : Crowd σ τ) : Turn κ φ → Option (Crowd σ τ)
  | .call c => some ⟨s.shared, s.tasks ++ [m.start c]⟩
  | .step i o => s.tasks[i]?.bind fun t =>
    (m.next o t s.shared).map fun x => ⟨x.2, s.tasks.set i x.1⟩
  | .reset => some ⟨m.reset s.shared, []⟩

def run (s : Crowd σ τ) : List (Turn κ φ) → Option (Crowd σ τ)
  | [] => some s
  | a :: as => (m.turn s a).bind fun s' => run s' as

variable {m} {s s' : Crowd σ τ}

/-- What one operation of a task does. -/
theorem turn_step {i : ℕ} {o : φ} (h : m.turn s (.step i o) = some s') :
    ∃ t t' w, s.tasks[i]? = some t ∧ m.next o t s.shared = some (t', w) ∧
      s' = ⟨w, s.tasks.set i t'⟩ := by
  obtain ⟨t, ht, h⟩ := Option.bind_eq_some_iff.mp h
  obtain ⟨x, hx, rfl⟩ := Option.map_eq_some_iff.mp h
  exact ⟨t, x.1, x.2, ht, hx, rfl⟩

/-- A property kept by every turn holds of every state reached. -/
theorem run_induction {P : Crowd σ τ → Prop} {as : List (Turn κ φ)}
    (hturn : ∀ s a s', a ∈ as → P s → m.turn s a = some s' → P s') (h0 : P s)
    (h : m.run s as = some s') : P s' := by
  induction as generalizing s with
  | nil =>
    cases h
    exact h0
  | cons a as ih =>
    obtain ⟨mid, hmid, h⟩ := Option.bind_eq_some_iff.mp h
    exact ih (fun s a s' ha => hturn s a s' (List.mem_cons_of_mem _ ha))
      (hturn s a mid List.mem_cons_self h0 hmid) h

end Mutex

/-! ## What every operation owes -/

structure Discipline (m : Mutex κ φ σ τ) (I Free : σ → Prop) (Knows : τ → σ → Prop)
    (R : σ → σ → Prop) : Prop where
  start : ∀ c w, m.holds (m.start c) = false ∧ Knows (m.start c) w
  /-- Who does not hold the lock waits for it. -/
  waits : ∀ o t w t' w', m.next o t w = some (t', w') → m.holds t = false → m.locked w = false
  step : ∀ o t w t' w', m.next o t w = some (t', w') → I w → Knows t w →
    (m.holds t = false → Free w) → (m.holds t = true → m.locked w = true) →
    I w' ∧ Knows t' w' ∧ R w w' ∧ (m.holds t' = true → m.locked w' = true) ∧
      (m.holds t' = false → Free w')
  stable : ∀ t w w', m.holds t = false → R w w' → Knows t w → Knows t w'
  reset : ∀ w, I w → I (m.reset w) ∧ Free (m.reset w)

/-- At most one task holds the lock, which is then locked; each task knows
what it has to. -/
structure Orderly (m : Mutex κ φ σ τ) (I Free : σ → Prop) (Knows : τ → σ → Prop)
    (s : Crowd σ τ) : Prop where
  inv : I s.shared
  free : m.locked s.shared = false → Free s.shared
  locked : ∀ (i : ℕ) t, s.tasks[i]? = some t → m.holds t = true → m.locked s.shared = true
  alone : ∀ (i j : ℕ) t u, s.tasks[i]? = some t → s.tasks[j]? = some u → m.holds t = true →
    m.holds u = true → i = j
  knows : ∀ (i : ℕ) t, s.tasks[i]? = some t → Knows t s.shared

variable {m : Mutex κ φ σ τ} {I Free : σ → Prop} {Knows : τ → σ → Prop} {R : σ → σ → Prop}
variable {s s' : Crowd σ τ}

namespace Discipline

/-- A call only adds a task that waits. -/
theorem call (hd : Discipline m I Free Knows R) (c : κ) (hs : Orderly m I Free Knows s) :
    Orderly m I Free Knows ⟨s.shared, s.tasks ++ [m.start c]⟩ := by
  obtain ⟨hholds, hknows⟩ := hd.start c s.shared
  have hold : ∀ (i : ℕ) t, (s.tasks ++ [m.start c])[i]? = some t →
      s.tasks[i]? = some t ∨ t = m.start c := by
    intro i t h
    rw [List.getElem?_append] at h
    split at h
    · exact Or.inl h
    · obtain ⟨_, rfl⟩ := List.getElem?_eq_some_iff.mp h
      exact Or.inr (by simp)
  refine ⟨hs.inv, hs.free, ?_, ?_, ?_⟩
  · intro i t ht hh
    rcases hold i t ht with h | rfl
    · exact hs.locked i t h hh
    · rw [hholds] at hh
      cases hh
  · intro i j t u ht hu hht hhu
    rcases hold i t ht with h | rfl
    · rcases hold j u hu with h' | rfl
      · exact hs.alone i j t u h h' hht hhu
      · rw [hholds] at hhu
        cases hhu
    · rw [hholds] at hht
      cases hht
  · intro i t ht
    rcases hold i t ht with h | rfl
    · exact hs.knows i t h
    · exact hknows

/-- While one task takes its turn, no other holds the lock. -/
theorem others_wait (hd : Discipline m I Free Knows R) (hs : Orderly m I Free Knows s)
    {i j : ℕ} {o : φ} {t t' u : τ} {w : σ} (ht : s.tasks[i]? = some t)
    (hn : m.next o t s.shared = some (t', w)) (hu : s.tasks[j]? = some u) (hij : i ≠ j) :
    m.holds u = false := by
  rw [← Bool.not_eq_true]
  intro hh
  cases hht : m.holds t with
  | true => exact hij (hs.alone i j t u ht hu hht hh)
  | false =>
    have hfree := hd.waits o t s.shared t' w hn hht
    rw [hs.locked j u hu hh] at hfree
    cases hfree

/-- **One operation.** -/
theorem turn (hd : Discipline m I Free Knows R) {a : Turn κ φ} (hs : Orderly m I Free Knows s)
    (h : m.turn s a = some s') : Orderly m I Free Knows s' := by
  cases a with
  | call c =>
    cases h
    exact hd.call c hs
  | reset =>
    cases h
    obtain ⟨hI, hF⟩ := hd.reset s.shared hs.inv
    refine ⟨hI, fun _ => hF, ?_, ?_, ?_⟩ <;> intro i <;> simp
  | step i o =>
    obtain ⟨t, t', w, ht, hn, rfl⟩ := Mutex.turn_step h
    have hfree : m.holds t = false → Free s.shared := fun hh =>
      hs.free (hd.waits o t s.shared t' w hn hh)
    obtain ⟨hI, hK, hR, hlocked, hF⟩ :=
      hd.step o t s.shared t' w hn hs.inv (hs.knows i t ht) hfree (hs.locked i t ht)
    -- the task that stepped, or one of the others, which all wait
    have hcase : ∀ (j : ℕ) u, (s.tasks.set i t')[j]? = some u →
        (j = i ∧ u = t') ∨ (i ≠ j ∧ s.tasks[j]? = some u ∧ m.holds u = false) := by
      intro j u hu
      rw [List.getElem?_set] at hu
      split at hu
      · next hij =>
        split at hu
        · cases hu
          exact Or.inl ⟨hij.symm, rfl⟩
        · cases hu
      · next hij => exact Or.inr ⟨hij, hu, hd.others_wait hs ht hn hu hij⟩
    refine ⟨hI, ?_, ?_, ?_, ?_⟩
    · intro hw
      apply hF
      rw [← Bool.not_eq_true]
      intro hh
      rw [hlocked hh] at hw
      cases hw
    · intro j u hu hh
      rcases hcase j u hu with ⟨_, rfl⟩ | ⟨_, _, hno⟩
      · exact hlocked hh
      · rw [hno] at hh
        cases hh
    · intro j k u v hu hv hhu hhv
      rcases hcase j u hu with ⟨rfl, _⟩ | ⟨_, _, hno⟩
      · rcases hcase k v hv with ⟨rfl, _⟩ | ⟨_, _, hno⟩
        · rfl
        · rw [hno] at hhv
          cases hhv
      · rw [hno] at hhu
        cases hhu
    · intro j u hu
      rcases hcase j u hu with ⟨_, rfl⟩ | ⟨_, hold, hno⟩
      · exact hK
      · exact hd.stable u s.shared w hno hR (hs.knows j u hold)

/-- **A whole run.** -/
theorem run (hd : Discipline m I Free Knows R) {as : List (Turn κ φ)} {w : σ} (hI : I w)
    (hF : Free w) (h : m.run ⟨w, []⟩ as = some s) : Orderly m I Free Knows s := by
  refine Mutex.run_induction (fun s a s' _ hs hturn => hd.turn hs hturn) ?_ h
  refine ⟨hI, fun _ => hF, ?_, ?_, ?_⟩ <;> intro i <;> simp

end Discipline

end TradeDesk.Async
