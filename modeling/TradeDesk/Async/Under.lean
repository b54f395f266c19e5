import TradeDesk.Async.Prog

/-!
# Programs that others write beside

`Always` is about a program that nobody writes beside. `Under` is the same
weakest precondition with the store given up between any two steps: all a
program then knows of the store it finds is an assertion `J` on it, which
may speak of what the program itself has done and which the others keep.
The program owes `J` again after each of its writes.

One rule a constructor, as for `Always`, and `Under.step`, from which a
pool's invariant is one case for the program that steps and one for those
that stand by.
-/

namespace TradeDesk.Async

variable {σ Q ε α β : Type} {A : Q → Type}
variable {Adm : ∀ q, A q → Prop} {J : List (Event σ Q A) → σ → Prop}
variable {R : Except ε α → List (Event σ Q A) → Prop} {h : List (Event σ Q A)}

/-- Whatever the store is at each of its steps, as long as it is one with
`J`: every write of `p` leaves one with `J`, and every end satisfies `R`. -/
def Under (Adm : ∀ q, A q → Prop) (J : List (Event σ Q A) → σ → Prop)
    (R : Except ε α → List (Event σ Q A) → Prop) :
    Prog σ Q A ε α → List (Event σ Q A) → Prop
  | .ret a, h => R (.ok a) h
  | .raise e, h => R (.error e) h
  | .read k, h => ∀ s, J h s → Under Adm J R (k s) h
  | .write f k, h => ∀ s, J h s →
      J (.wrote s (f s) :: h) (f s) ∧ Under Adm J R (k s) (.wrote s (f s) :: h)
  | .ask q k, h => ∀ a, Adm q a →
      (∀ s, J h s → J (.asked q a :: h) s) ∧ Under Adm J R (k a) (.asked q a :: h)

/-- **One step among others.** -/
theorem Under.step {c c' : Config σ Q A ε α} (hc : Under Adm J R c.prog c.hist)
    (hJ : J c.hist c.store) (hs : Step Adm c c') :
    Under Adm J R c'.prog c'.hist ∧ J c'.hist c'.store := by
  cases hs with
  | read k h s => exact ⟨hc s hJ, hJ⟩
  | write f k h s => exact ⟨(hc s hJ).2, (hc s hJ).1⟩
  | ask q k h s a ha => exact ⟨(hc a ha).2, (hc a ha).1 s hJ⟩

/-- Weakening the end. -/
theorem Under.mono {S : Except ε α → List (Event σ Q A) → Prop} {p : Prog σ Q A ε α}
    (hp : Under Adm J R p h) (hR : ∀ r h, R r h → S r h) : Under Adm J S p h := by
  induction p generalizing h with
  | ret a => exact hR _ _ hp
  | raise e => exact hR _ _ hp
  | read k ih => exact fun s hs => ih s (hp s hs)
  | write f k ih => exact fun s hs => ⟨(hp s hs).1, ih s (hp s hs).2⟩
  | ask q k ih => exact fun a ha => ⟨(hp a ha).1, ih a (hp a ha).2⟩

/-- Sequencing. -/
theorem Under.bind {S : Except ε β → List (Event σ Q A) → Prop} {p : Prog σ Q A ε α}
    {f : α → Prog σ Q A ε β} (hp : Under Adm J R p h)
    (hok : ∀ a h, R (.ok a) h → Under Adm J S (f a) h)
    (herr : ∀ e h, R (.error e) h → S (.error e) h) : Under Adm J S (p >>= f) h := by
  show Under Adm J S (p.bind f) h
  induction p generalizing h with
  | ret a => exact hok a h hp
  | raise e => exact herr e h hp
  | read k ih => exact fun s hs => ih s (hp s hs)
  | write u k ih => exact fun s hs => ⟨(hp s hs).1, ih s (hp s hs).2⟩
  | ask q k ih => exact fun a ha => ⟨(hp a ha).1, ih a (hp a ha).2⟩

/-- An exception becomes a value. -/
theorem Under.attempt {S : Except ε (Except ε α) → List (Event σ Q A) → Prop}
    {p : Prog σ Q A ε α} (hp : Under Adm J R p h) (hR : ∀ r h, R r h → S (.ok r) h) :
    Under Adm J S p.attempt h := by
  induction p generalizing h with
  | ret a => exact hR _ _ hp
  | raise e => exact hR _ _ hp
  | read k ih => exact fun s hs => ih s (hp s hs)
  | write f k ih => exact fun s hs => ⟨(hp s hs).1, ih s (hp s hs).2⟩
  | ask q k ih => exact fun a ha => ⟨(hp a ha).1, ih a (hp a ha).2⟩

theorem under_check {x : Except ε α} (hx : R x h) : Under Adm J R (.check x) h := by
  cases x <;> exact hx

/-- A read-only part: each of its queries sees some store with `J`. -/
theorem under_scan {r : Reads σ ε α} (hr : ∀ x, R x h) : Under Adm J R (.scan r) h := by
  induction r with
  | ret a => exact hr _
  | raise e => exact hr _
  | read k ih => exact fun s _ => ih s

/-- Reading first, in one query. -/
theorem under_get_bind {g : σ → β} {f : β → Prog σ Q A ε α}
    (hf : ∀ s, J h s → Under Adm J R (f (g s)) h) :
    Under Adm J R (.scan (.get g) >>= f) h := hf

/-- Asking first. -/
theorem under_query_bind {q : Q} {f : A q → Prog σ Q A ε α}
    (hf : ∀ a, Adm q a →
      (∀ s, J h s → J (.asked q a :: h) s) ∧ Under Adm J R (f a) (.asked q a :: h)) :
    Under Adm J R (.query q >>= f) h := hf

/-- Writing first. -/
theorem under_update_bind {u : σ → σ} {f : Unit → Prog σ Q A ε α}
    (hf : ∀ s, J h s →
      J (.wrote s (u s) :: h) (u s) ∧ Under Adm J R (f ()) (.wrote s (u s) :: h)) :
    Under Adm J R (.update u >>= f) h := hf

end TradeDesk.Async
