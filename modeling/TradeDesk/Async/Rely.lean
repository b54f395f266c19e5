import TradeDesk.Async.Pool

/-!
# Programs among others of their kind

To a program that runs `Under` an assertion the store may be any with that
assertion at its next step. Where it is known what the others do, more can
be carried along. `Among W` is the weakest precondition of a program whose
store is moved by steps of `W` only, its own writes among them: what it saw
of the store still holds, up to what such steps can have changed since.

* `Among.bind`, `among_get_bind`, `among_update_bind`, `Among.foldlM`: one
  rule a construct, as for `Always`.
* `Trace.among`: a pool of such programs moves its store by `W` only, and
  each that has ended left what it promised, at the store it saw last.
* `Trace.tally`: where every write adds rows at the end of a table, the rows
  that are new are those the histories of the programs tell of.
-/

namespace TradeDesk.Async

open Relation

variable {ι σ Q ε α β τ : Type} {A : Q → Type}
variable {Adm : ∀ q, A q → Prop} {W : σ → σ → Prop}
variable {R : Except ε α → List (Event σ Q A) → σ → Prop}
variable {h : List (Event σ Q A)} {s s' : σ}

/-- Others may write between any two steps, along `W`: every write of `p` is
one of `W` too, and every end satisfies `R` of the store as `p` saw it last. -/
def Among (Adm : ∀ q, A q → Prop) (W : σ → σ → Prop)
    (R : Except ε α → List (Event σ Q A) → σ → Prop) :
    Prog σ Q A ε α → List (Event σ Q A) → σ → Prop
  | .ret a, h, s => R (.ok a) h s
  | .raise e, h, s => R (.error e) h s
  | .read k, h, s => ∀ s', ReflTransGen W s s' → Among Adm W R (k s') h s'
  | .write f k, h, s => ∀ s', ReflTransGen W s s' →
      W s' (f s') ∧ Among Adm W R (k s') (.wrote s' (f s') :: h) (f s')
  | .ask q k, h, s => ∀ a, Adm q a → Among Adm W R (k a) (.asked q a :: h) s

/-! ## One rule a construct -/

/-- Weakening the end. -/
theorem Among.mono {S : Except ε α → List (Event σ Q A) → σ → Prop} {p : Prog σ Q A ε α}
    (hp : Among Adm W R p h s) (hR : ∀ r h s, R r h s → S r h s) : Among Adm W S p h s := by
  induction p generalizing h s with
  | ret a => exact hR _ _ _ hp
  | raise e => exact hR _ _ _ hp
  | read k ih => exact fun s' hs => ih s' (hp s' hs)
  | write f k ih => exact fun s' hs => ⟨(hp s' hs).1, ih s' (hp s' hs).2⟩
  | ask q k ih => exact fun a ha => ih a (hp a ha)

/-- Sequencing. -/
theorem Among.bind {S : Except ε β → List (Event σ Q A) → σ → Prop} {p : Prog σ Q A ε α}
    {f : α → Prog σ Q A ε β} (hp : Among Adm W R p h s)
    (hok : ∀ a h s, R (.ok a) h s → Among Adm W S (f a) h s)
    (herr : ∀ e h s, R (.error e) h s → S (.error e) h s) : Among Adm W S (p >>= f) h s := by
  show Among Adm W S (p.bind f) h s
  induction p generalizing h s with
  | ret a => exact hok a h s hp
  | raise e => exact herr e h s hp
  | read k ih => exact fun s' hs => ih s' (hp s' hs)
  | write u k ih => exact fun s' hs => ⟨(hp s' hs).1, ih s' (hp s' hs).2⟩
  | ask q k ih => exact fun a ha => ih a (hp a ha)

/-- A check touches nothing. -/
theorem among_check_bind {S : Except ε β → List (Event σ Q A) → σ → Prop} {x : Except ε α}
    {f : α → Prog σ Q A ε β} (hok : ∀ a, x = .ok a → Among Adm W S (f a) h s)
    (herr : ∀ e, x = .error e → S (.error e) h s) : Among Adm W S (.check x >>= f) h s := by
  cases x with
  | ok a => exact hok a rfl
  | error e => exact herr e rfl

/-- Reading first, in one query. -/
theorem among_get_bind {S : Except ε β → List (Event σ Q A) → σ → Prop} {g : σ → α}
    {f : α → Prog σ Q A ε β}
    (hf : ∀ s', ReflTransGen W s s' → Among Adm W S (f (g s')) h s') :
    Among Adm W S (.scan (.get g) >>= f) h s := hf

/-- Writing first. -/
theorem among_update_bind {S : Except ε β → List (Event σ Q A) → σ → Prop} {u : σ → σ}
    {f : Unit → Prog σ Q A ε β} (hf : ∀ s', ReflTransGen W s s' →
      W s' (u s') ∧ Among Adm W S (f ()) (.wrote s' (u s') :: h) (u s')) :
    Among Adm W S (.update u >>= f) h s := hf

/-- A loop, by an invariant of what it has gathered and what is left. -/
theorem Among.foldlM {S : Except ε β → List (Event σ Q A) → σ → Prop} {f : β → α → Prog σ Q A ε β}
    {I : β → List α → List (Event σ Q A) → σ → Prop}
    (hstep : ∀ acc a rest h s, I acc (a :: rest) h s →
      Among Adm W (fun r h s => match r with
        | .ok acc' => I acc' rest h s
        | .error e => S (.error e) h s) (f acc a) h s)
    (hdone : ∀ acc h s, I acc [] h s → S (.ok acc) h s) :
    ∀ (as : List α) (acc : β) (h : List (Event σ Q A)) (s : σ), I acc as h s →
      Among Adm W S (as.foldlM f acc) h s
  | [], acc, h, s, hI => hdone acc h s hI
  | a :: as, acc, h, s, hI => by
    rw [List.foldlM_cons]
    exact (hstep acc a as h s hI).bind (fun acc' h s hI => foldlM hstep hdone as acc' h s hI)
      fun _ _ _ he => he

/-! ## A pool of them -/

/-- The program goes on from a store it saw, and this one has come of that. -/
def Task.Among (Adm : ∀ q, A q → Prop) (W : σ → σ → Prop)
    (R : Except ε α → List (Event σ Q A) → σ → Prop) (t : Task ι σ Q A ε α) (s : σ) : Prop :=
  ∃ seen, Async.Among Adm W R t.prog t.hist seen ∧ ReflTransGen W seen s

theorem Task.Among.later {t : Task ι σ Q A ε α} (ht : t.Among Adm W R s)
    (hs : ReflTransGen W s s') : t.Among Adm W R s' := by
  obtain ⟨seen, hp, hseen⟩ := ht
  exact ⟨seen, hp, hseen.trans hs⟩

/-- What is left when the program has ended. -/
theorem Task.Among.ended {t : Task ι σ Q A ε α} (ht : t.Among Adm W R s) (he : t.ended = true) :
    ∃ r seen, t.prog = .ofExcept r ∧ R r t.hist seen ∧ ReflTransGen W seen s := by
  obtain ⟨seen, hp, hseen⟩ := ht
  obtain ⟨r, hr⟩ := Option.isSome_iff_exists.mp he
  have hprog := Prog.ended?_some hr
  rw [hprog] at hp
  refine ⟨r, seen, hprog, ?_, hseen⟩
  cases r <;> exact hp

/-- **One step among others**: the program goes on, and the store has moved
by a write of `W` or not at all. -/
theorem Task.Among.step {t : Task ι σ Q A ε α} {c : Config σ Q A ε α} (ht : t.Among Adm W R s)
    (hstep : Step Adm ⟨t.prog, t.hist, s⟩ c) :
    (⟨t.tag, c.prog, c.hist⟩ : Task ι σ Q A ε α).Among Adm W R c.store ∧
      ((W s c.store ∧ c.hist = .wrote s c.store :: t.hist) ∨
        c.store = s ∧ (c.hist = t.hist ∨ ∃ q a, c.hist = .asked q a :: t.hist)) := by
  obtain ⟨seen, hp, hseen⟩ := ht
  obtain ⟨tag, prog, hist⟩ := t
  cases hstep with
  | read k => exact ⟨⟨s, hp s hseen, .refl⟩, Or.inr ⟨rfl, Or.inl rfl⟩⟩
  | write f k =>
    obtain ⟨hw, hnext⟩ := hp s hseen
    exact ⟨⟨f s, hnext, .refl⟩, Or.inl ⟨hw, rfl⟩⟩
  | ask q k h s a ha => exact ⟨⟨seen, hp a ha, hseen⟩, Or.inr ⟨rfl, Or.inr ⟨q, a, rfl⟩⟩⟩

section

variable {code : ι → Prog σ Q A ε α} {Env : σ → σ → Prop}
variable {C : Act ι σ Q A ε α → Pool ι σ Q A ε α → Prop} {init : σ}
variable {acts : List (Act ι σ Q A ε α)} {p : Pool ι σ Q A ε α}

/-- **A pool of programs that write along `W`** moves its store along `W`,
and each of them goes on from a store it saw. -/
theorem Trace.among (ht : Trace code Adm Env C init acts p) (hquiet : ∀ q, ¬ C .env q)
    (hcode : ∀ o s, ReflTransGen W init s → Async.Among Adm W R (code o) [] s) :
    ReflTransGen W init p.store ∧ ∀ t ∈ p.tasks, t.Among Adm W R p.store := by
  induction ht with
  | idle => exact ⟨.refl, fun t ht => by cases ht⟩
  | @move acts p q a hrun hc hmove ih =>
    obtain ⟨hstore, htasks⟩ := ih
    cases hmove with
    | start o s ts =>
      refine ⟨hstore, fun t ht => ?_⟩
      rcases List.mem_append.mp ht with ht | ht
      · exact htasks t ht
      · obtain rfl := List.mem_singleton.mp ht
        exact ⟨s, hcode o s hstore, .refl⟩
    | @step t c s pre post hstep =>
      obtain ⟨hnext, hmoved⟩ := (htasks t (by simp)).step hstep
      have hlater : ReflTransGen W s c.store := by
        rcases hmoved with ⟨hw, _⟩ | ⟨he, _⟩
        · exact .single hw
        · rw [he]
      refine ⟨hstore.trans hlater, fun u hu => ?_⟩
      rcases mem_middle hu with rfl | hin
      · exact hnext
      · exact (htasks u (mem_of_others hin)).later hlater
    | leave pre post _ => exact ⟨hstore, fun u hu => htasks u (mem_of_others hu)⟩
    | stop pre post _ => exact ⟨hstore, fun u hu => htasks u (mem_of_others hu)⟩
    | env _ => exact absurd hc (hquiet _)

/-- The rows an event adds at the end of a table. -/
def Event.added (rows : σ → List τ) : Event σ Q A → List τ
  | .asked _ _ => []
  | .wrote a b => (rows b).drop (rows a).length

/-- **The rows of a table are those the histories tell of**, where every
write adds at its end and every program that was started is still there. -/
theorem Trace.tally (rows : σ → List τ) (ht : Trace code Adm Env C init acts p)
    (hstay : ∀ a q, C a q → (∃ o, a = .start o) ∨ ∃ t others, a = .step t others)
    (hcode : ∀ o s, ReflTransGen W init s → Async.Among Adm W R (code o) [] s)
    (hrows : ∀ a b, W a b → rows a <+: rows b) :
    (rows p.store).Perm
      (rows init ++ p.tasks.flatMap fun t => t.hist.flatMap (Event.added rows)) := by
  have hquiet : ∀ q, ¬ C .env q := fun q hc => by
    rcases hstay _ _ hc with ⟨o, he⟩ | ⟨t, others, he⟩ <;> cases he
  induction ht with
  | idle => simp
  | @move acts p q a hrun hc hmove ih =>
    obtain ⟨_, htasks⟩ := Trace.among hrun hquiet hcode
    cases hmove with
    | start o s ts => simpa using ih
    | @step t c s pre post hstep =>
      obtain ⟨_, hmoved⟩ := (htasks t (by simp)).step hstep
      simp only [List.flatMap_append, List.flatMap_cons] at ih ⊢
      rcases hmoved with ⟨hw, hhist⟩ | ⟨hstore, hhist | ⟨q, a, hhist⟩⟩
      · obtain ⟨new, hnew⟩ := hrows _ _ hw
        rw [hhist, List.flatMap_cons, Event.added, ← hnew, List.drop_left]
        refine (ih.append_right new).trans ?_
        rw [List.append_assoc]
        refine List.Perm.append_left _ ?_
        rw [List.append_assoc, List.append_assoc new]
        exact List.Perm.append_left _ List.perm_append_comm
      · rw [hstore, hhist]
        exact ih
      · rw [hstore, hhist, List.flatMap_cons]
        exact ih
    | leave pre post _ =>
      rcases hstay _ _ hc with ⟨o, he⟩ | ⟨t, others, he⟩ <;> cases he
    | stop pre post _ =>
      rcases hstay _ _ hc with ⟨o, he⟩ | ⟨t, others, he⟩ <;> cases he
    | env _ => exact absurd hc (hquiet _)

end

end TradeDesk.Async
