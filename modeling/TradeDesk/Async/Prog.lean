import Mathlib.Logic.Relation
import Mathlib.Tactic.Common

/-!
# Asynchronous programs over one shared store

A coroutine that talks to a database and to services outside the process
does three kinds of thing, and another coroutine can run between any two
of them: it reads the store in one query, it writes the store in one
statement or transaction, or it awaits an answer from outside. `Prog` is
the free monad on exactly these steps, so a program in it fixes the points
where it may be interrupted and nothing else.

* `Reads` — the programs that only read. Run with nobody writing in
  between, such a program is a function of the store (`Reads.eval`).
* `Step`/`Steps` — one step, and any number of them, of one program over
  a store, with the history of what it asked and wrote.
* `Runs` — a run to its end, by a value or by an exception.
* `Always G R` — the weakest precondition: every write the program makes
  satisfies the guarantee `G` and it can only end in `R`. One rule a
  constructor (`always_bind`, `always_scan`, `always_update`, …), and the
  adequacy lemmas `Always.steps`, `Always.runs`, `Always.steps_inv`.
* `runWith`/`advance` — the same semantics as functions of an oracle that
  answers the questions, so that a run on a fixed input can be computed.
-/

namespace TradeDesk.Async

/-- What a program has done that somebody else could see. -/
inductive Event (σ Q : Type) (A : Q → Type) where
  | asked (q : Q) (a : A q)
  | wrote (before after : σ)

/-- Programs that only read the store, one query at a time. -/
inductive Reads (σ ε α : Type) where
  | ret (a : α)
  | raise (e : ε)
  | read (k : σ → Reads σ ε α)

/-- Programs that read the store, write it and ask questions outside. The
continuation of a write sees the store as it was before the write, as a
statement that reports a row count or a new row's id does. -/
inductive Prog (σ Q : Type) (A : Q → Type) (ε α : Type) where
  | ret (a : α)
  | raise (e : ε)
  | read (k : σ → Prog σ Q A ε α)
  | write (f : σ → σ) (k : σ → Prog σ Q A ε α)
  | ask (q : Q) (k : A q → Prog σ Q A ε α)

variable {σ Q ε α β : Type} {A : Q → Type}

/-! ## Read-only programs -/

namespace Reads

def bind : Reads σ ε α → (α → Reads σ ε β) → Reads σ ε β
  | ret a, f => f a
  | raise e, _ => raise e
  | read k, f => read fun s => (k s).bind f

instance : Monad (Reads σ ε) where
  pure := ret
  bind := bind

/-- One query. -/
def get (f : σ → α) : Reads σ ε α := read fun s => ret (f s)

/-- A check that needs no query. -/
def check : Except ε α → Reads σ ε α
  | .ok a => ret a
  | .error e => raise e

/-- What the program computes when nobody writes while it reads. -/
def eval : Reads σ ε α → σ → Except ε α
  | ret a, _ => .ok a
  | raise e, _ => .error e
  | read k, s => (k s).eval s

@[simp] theorem eval_pure (a : α) (s : σ) :
    (pure a : Reads σ ε α).eval s = .ok a := rfl

@[simp] theorem eval_ret (a : α) (s : σ) : (ret a : Reads σ ε α).eval s = .ok a := rfl

@[simp] theorem eval_raise (e : ε) (s : σ) :
    (raise e : Reads σ ε α).eval s = .error e := rfl

@[simp] theorem eval_read (k : σ → Reads σ ε α) (s : σ) :
    (read k).eval s = (k s).eval s := rfl

@[simp] theorem eval_get (f : σ → α) (s : σ) :
    (get f : Reads σ ε α).eval s = .ok (f s) := rfl

@[simp] theorem eval_check (x : Except ε α) (s : σ) : (check x : Reads σ ε α).eval s = x := by
  cases x <;> rfl

@[simp] theorem eval_bind (x : Reads σ ε α) (f : α → Reads σ ε β) (s : σ) :
    (x >>= f).eval s = (x.eval s >>= fun a => (f a).eval s) := by
  show (x.bind f).eval s = _
  induction x with
  | ret a => rfl
  | raise e => rfl
  | read k ih => exact ih s

/-- A sequence ends well only through a value of its first half. -/
theorem eval_bind_ok {x : Reads σ ε α} {f : α → Reads σ ε β} {s : σ} {b : β}
    (h : (x >>= f).eval s = .ok b) : ∃ a, x.eval s = .ok a ∧ (f a).eval s = .ok b := by
  rw [eval_bind] at h
  cases hx : x.eval s with
  | error e => rw [hx] at h; cases h
  | ok a => rw [hx] at h; exact ⟨a, rfl, h⟩

/-- One program for each element, in order. -/
def each (f : α → Reads σ ε β) : List α → Reads σ ε (List β)
  | [] => ret []
  | a :: as => do
    let b ← f a
    let bs ← each f as
    return b :: bs

theorem each_ok {f : α → Reads σ ε β} {s : σ} : ∀ {as : List α} {bs : List β},
    (each f as).eval s = .ok bs → List.Forall₂ (fun a b => (f a).eval s = .ok b) as bs
  | [], bs, h => by
    cases h
    exact .nil
  | a :: as, bs, h => by
    obtain ⟨b, hb, h⟩ := eval_bind_ok h
    obtain ⟨bs', hbs, h⟩ := eval_bind_ok h
    cases h
    exact .cons hb (each_ok hbs)

/-- Programs that compute a function compute its map. -/
theorem each_eval {f : α → Reads σ ε β} {g : α → β} {s : σ} : ∀ {as : List α},
    (∀ a ∈ as, (f a).eval s = .ok (g a)) → (each f as).eval s = .ok (as.map g)
  | [], _ => rfl
  | a :: as, h => by
    have hrest := each_eval fun x hx => h x (List.mem_cons_of_mem a hx)
    rw [each, eval_bind, h a List.mem_cons_self]
    show (each f as >>= fun bs => pure (g a :: bs)).eval s = _
    rw [eval_bind, hrest]
    rfl

theorem each_total {f : α → Reads σ ε β} {s : σ} : ∀ {as : List α},
    (∀ a ∈ as, ∃ b, (f a).eval s = .ok b) → ∃ bs, (each f as).eval s = .ok bs
  | [], _ => ⟨[], rfl⟩
  | a :: as, h => by
    obtain ⟨b, hb⟩ := h a List.mem_cons_self
    obtain ⟨bs, hbs⟩ := each_total fun x hx => h x (List.mem_cons_of_mem a hx)
    refine ⟨b :: bs, ?_⟩
    rw [each, eval_bind, hb]
    show (each f as >>= fun bs => pure (b :: bs)).eval s = _
    rw [eval_bind, hbs]
    rfl

end Reads

/-- Peels one step off a computation that ended well. -/
theorem except_bind_ok {x : Except ε α} {f : α → Except ε β} {b : β}
    (h : (x >>= f) = .ok b) : ∃ a, x = .ok a ∧ f a = .ok b := by
  cases x with
  | error e => cases h
  | ok a => exact ⟨a, rfl, h⟩

/-- Refuses when `c` holds. -/
def refuseIf (c : Prop) [Decidable c] (e : ε) : Except ε Unit :=
  if c then .error e else .ok ()

theorem refuseIf_ok {c : Prop} [Decidable c] {e : ε} {u : Unit}
    (h : refuseIf c e = .ok u) : ¬ c := by
  intro hc
  rw [refuseIf, if_pos hc] at h
  cases h

/-! ## Programs -/

namespace Prog

def bind : Prog σ Q A ε α → (α → Prog σ Q A ε β) → Prog σ Q A ε β
  | ret a, f => f a
  | raise e, _ => raise e
  | read k, f => read fun s => (k s).bind f
  | write u k, f => write u fun s => (k s).bind f
  | ask q k, f => ask q fun a => (k a).bind f

instance : Monad (Prog σ Q A ε) where
  pure := ret
  bind := bind

/-- Runs a read-only program. -/
def scan : Reads σ ε α → Prog σ Q A ε α
  | .ret a => ret a
  | .raise e => raise e
  | .read k => read fun s => scan (k s)

/-- A check that touches nothing. -/
def check : Except ε α → Prog σ Q A ε α
  | .ok a => ret a
  | .error e => raise e

/-- One statement. -/
def update (f : σ → σ) : Prog σ Q A ε Unit := write f fun _ => ret ()

/-- One transaction that also answers, from the store it found. -/
def transact (f : σ → σ) (g : σ → α) : Prog σ Q A ε α := write f fun s => ret (g s)

/-- One statement a constraint of the store may reject, leaving it alone. -/
def tryUpdate (f : σ → Except ε σ) : Prog σ Q A ε Unit :=
  write (fun s => (f s).toOption.getD s) fun s => check ((f s).map fun _ => ())

/-- One question to the outside. -/
def query (q : Q) : Prog σ Q A ε (A q) := ask q ret

/-- The same program, its exceptions among its values. -/
def attempt : Prog σ Q A ε α → Prog σ Q A ε (Except ε α)
  | ret a => ret (.ok a)
  | raise e => ret (.error e)
  | read k => read fun s => (k s).attempt
  | write f k => write f fun s => (k s).attempt
  | ask q k => ask q fun a => (k a).attempt

/-- The program that ends as `r` says. -/
def ofExcept : Except ε α → Prog σ Q A ε α := check

end Prog

/-! ## Steps -/

/-- A program somewhere in its run: what is left of it, what it has done,
most recent first, and the store. -/
structure Config (σ Q : Type) (A : Q → Type) (ε α : Type) where
  prog : Prog σ Q A ε α
  hist : List (Event σ Q A)
  store : σ

/-- One step. `Adm` says which answers the outside may give. -/
inductive Step (Adm : ∀ q, A q → Prop) : Config σ Q A ε α → Config σ Q A ε α → Prop
  | read (k : σ → Prog σ Q A ε α) (h : List (Event σ Q A)) (s : σ) :
      Step Adm ⟨.read k, h, s⟩ ⟨k s, h, s⟩
  | write (f : σ → σ) (k : σ → Prog σ Q A ε α) (h : List (Event σ Q A)) (s : σ) :
      Step Adm ⟨.write f k, h, s⟩ ⟨k s, .wrote s (f s) :: h, f s⟩
  | ask (q : Q) (k : A q → Prog σ Q A ε α) (h : List (Event σ Q A)) (s : σ) (a : A q) :
      Adm q a → Step Adm ⟨.ask q k, h, s⟩ ⟨k a, .asked q a :: h, s⟩

/-- Any number of steps: where a program can be when it is stopped. -/
def Steps (Adm : ∀ q, A q → Prop) : Config σ Q A ε α → Config σ Q A ε α → Prop :=
  Relation.ReflTransGen (Step Adm)

/-- A run to the end: `p` from store `s` ends as `r` in store `s'`. -/
def Runs (Adm : ∀ q, A q → Prop) (p : Prog σ Q A ε α) (h : List (Event σ Q A)) (s : σ)
    (r : Except ε α) (h' : List (Event σ Q A)) (s' : σ) : Prop :=
  Steps Adm ⟨p, h, s⟩ ⟨.ofExcept r, h', s'⟩

/-- The history holds a write. -/
def Wrote (h : List (Event σ Q A)) : Prop := ∃ a b, .wrote a b ∈ h

theorem Wrote.cons {h : List (Event σ Q A)} (hw : Wrote h) (e : Event σ Q A) : Wrote (e :: h) := by
  obtain ⟨a, b, hab⟩ := hw
  exact ⟨a, b, List.mem_cons_of_mem e hab⟩

/-- Until its first write a program leaves the store alone. -/
theorem Steps.unwritten {Adm : ∀ q, A q → Prop} {c c' : Config σ Q A ε α} (hs : Steps Adm c c')
    (hw : ¬ Wrote c'.hist) : c'.store = c.store := by
  induction hs with
  | refl => rfl
  | @tail b d _ hstep ih =>
    cases hstep with
    | read k h s => exact ih hw
    | write f k h s => exact absurd ⟨s, f s, List.mem_cons_self⟩ hw
    | ask q k h s a ha => exact ih fun hb => hw (hb.cons _)

/-! ## The weakest precondition -/

section Always

variable {Adm : ∀ q, A q → Prop} {G : List (Event σ Q A) → σ → σ → Prop}
variable {R : Except ε α → List (Event σ Q A) → σ → Prop}
variable {h : List (Event σ Q A)} {s : σ}

/-- Every write `p` makes from here satisfies `G`, whatever admissible
answers it gets, and every end of it satisfies `R`. -/
def Always (Adm : ∀ q, A q → Prop) (G : List (Event σ Q A) → σ → σ → Prop)
    (R : Except ε α → List (Event σ Q A) → σ → Prop) :
    Prog σ Q A ε α → List (Event σ Q A) → σ → Prop
  | .ret a, h, s => R (.ok a) h s
  | .raise e, h, s => R (.error e) h s
  | .read k, h, s => Always Adm G R (k s) h s
  | .write f k, h, s => G h s (f s) ∧ Always Adm G R (k s) (.wrote s (f s) :: h) (f s)
  | .ask q k, h, s => ∀ a, Adm q a → Always Adm G R (k a) (.asked q a :: h) s

@[simp] theorem always_pure (a : α) :
    Always Adm G R (pure a) h s ↔ R (.ok a) h s := Iff.rfl

@[simp] theorem always_ret (a : α) :
    Always Adm G R (.ret a) h s ↔ R (.ok a) h s := Iff.rfl

@[simp] theorem always_raise (e : ε) :
    Always Adm G R (.raise e) h s ↔ R (.error e) h s := Iff.rfl

/-- The rule of sequencing. -/
theorem always_bind {R : Except ε β → List (Event σ Q A) → σ → Prop}
    (p : Prog σ Q A ε α) (f : α → Prog σ Q A ε β) :
    Always Adm G R (p >>= f) h s ↔
      Always Adm G (fun r h s => match r with
        | .ok a => Always Adm G R (f a) h s
        | .error e => R (.error e) h s) p h s := by
  show Always Adm G R (p.bind f) h s ↔ _
  induction p generalizing h s with
  | ret a => rfl
  | raise e => rfl
  | read k ih => exact ih s
  | write u k ih => exact and_congr Iff.rfl (ih s)
  | ask q k ih => exact forall_congr' fun a => imp_congr Iff.rfl (ih a)

@[simp] theorem always_scan (r : Reads σ ε α) :
    Always Adm G R (.scan r) h s ↔ R (r.eval s) h s := by
  induction r with
  | ret a => rfl
  | raise e => rfl
  | read k ih => exact ih s

@[simp] theorem always_check (x : Except ε α) :
    Always Adm G R (.check x) h s ↔ R x h s := by
  cases x <;> rfl

@[simp] theorem always_ofExcept (x : Except ε α) :
    Always Adm G R (.ofExcept x) h s ↔ R x h s := always_check x

@[simp] theorem always_update {R : Except ε Unit → List (Event σ Q A) → σ → Prop} (f : σ → σ) :
    Always Adm G R (.update f) h s ↔ G h s (f s) ∧ R (.ok ()) (.wrote s (f s) :: h) (f s) :=
  Iff.rfl

@[simp] theorem always_transact (f : σ → σ) (g : σ → α) :
    Always Adm G R (.transact f g) h s ↔
      G h s (f s) ∧ R (.ok (g s)) (.wrote s (f s) :: h) (f s) := Iff.rfl

@[simp] theorem always_query {q : Q} {R : Except ε (A q) → List (Event σ Q A) → σ → Prop} :
    Always Adm G R (.query q) h s ↔ ∀ a, Adm q a → R (.ok a) (.asked q a :: h) s := Iff.rfl

/-- Catching: the exception is a result like any other. -/
theorem always_attempt {R : Except ε (Except ε α) → List (Event σ Q A) → σ → Prop}
    (p : Prog σ Q A ε α) :
    Always Adm G R p.attempt h s ↔ Always Adm G (fun r => R (.ok r)) p h s := by
  induction p generalizing h s with
  | ret a => rfl
  | raise e => rfl
  | read k ih => exact ih s
  | write f k ih => exact and_congr Iff.rfl (ih s)
  | ask q k ih => exact forall_congr' fun a => imp_congr Iff.rfl (ih a)

/-- Weakening both halves at once. -/
theorem Always.mono {G' : List (Event σ Q A) → σ → σ → Prop}
    {R' : Except ε α → List (Event σ Q A) → σ → Prop} {p : Prog σ Q A ε α}
    (hp : Always Adm G R p h s) (hG : ∀ h a b, G h a b → G' h a b)
    (hR : ∀ r h s, R r h s → R' r h s) : Always Adm G' R' p h s := by
  induction p generalizing h s with
  | ret a => exact hR _ _ _ hp
  | raise e => exact hR _ _ _ hp
  | read k ih => exact ih s hp
  | write f k ih => exact ⟨hG _ _ _ hp.1, ih s hp.2⟩
  | ask q k ih => exact fun a ha => ih a (hp a ha)

/-- Two specifications of one program are one. -/
theorem Always.and {G' : List (Event σ Q A) → σ → σ → Prop}
    {R' : Except ε α → List (Event σ Q A) → σ → Prop} {p : Prog σ Q A ε α}
    (hp : Always Adm G R p h s) (hp' : Always Adm G' R' p h s) :
    Always Adm (fun h a b => G h a b ∧ G' h a b) (fun r h s => R r h s ∧ R' r h s) p h s := by
  induction p generalizing h s with
  | ret a => exact ⟨hp, hp'⟩
  | raise e => exact ⟨hp, hp'⟩
  | read k ih => exact ih s hp hp'
  | write f k ih => exact ⟨⟨hp.1, hp'.1⟩, ih s hp.2 hp'.2⟩
  | ask q k ih => exact fun a ha => ih a (hp a ha) (hp' a ha)

/-- Sequencing as a rule: whatever the first half leaves, the second
half goes on from. -/
theorem Always.bind {S : Except ε β → List (Event σ Q A) → σ → Prop}
    {p : Prog σ Q A ε α} {f : α → Prog σ Q A ε β} (hp : Always Adm G R p h s)
    (hok : ∀ a h s, R (.ok a) h s → Always Adm G S (f a) h s)
    (herr : ∀ e h s, R (.error e) h s → S (.error e) h s) :
    Always Adm G S (p >>= f) h s := by
  rw [always_bind]
  refine hp.mono (fun _ _ _ hg => hg) fun r h s hr => ?_
  cases r with
  | ok a => exact hok a h s hr
  | error e => exact herr e h s hr

/-- Reading first: the rest runs with the value the store gives. -/
theorem always_scan_bind {R : Except ε β → List (Event σ Q A) → σ → Prop}
    {r : Reads σ ε α} {f : α → Prog σ Q A ε β}
    (hok : ∀ a, r.eval s = .ok a → Always Adm G R (f a) h s)
    (herr : ∀ e, r.eval s = .error e → R (.error e) h s) :
    Always Adm G R (.scan r >>= f) h s := by
  rw [always_bind, always_scan]
  cases hr : r.eval s with
  | ok a => exact hok a hr
  | error e => exact herr e hr

/-- Checking first: the rest runs with what the check passed. -/
theorem always_check_bind {R : Except ε β → List (Event σ Q A) → σ → Prop}
    {x : Except ε α} {f : α → Prog σ Q A ε β}
    (hok : ∀ a, x = .ok a → Always Adm G R (f a) h s)
    (herr : ∀ e, x = .error e → R (.error e) h s) :
    Always Adm G R (.check x >>= f) h s := by
  rw [always_bind, always_check]
  cases x with
  | ok a => exact hok a rfl
  | error e => exact herr e rfl

/-- Asking first: the rest runs with any admissible answer. -/
theorem always_query_bind {q : Q} {R : Except ε β → List (Event σ Q A) → σ → Prop}
    {f : A q → Prog σ Q A ε β}
    (hok : ∀ a, Adm q a → Always Adm G R (f a) (.asked q a :: h) s) :
    Always Adm G R (.query q >>= f) h s := by
  rw [always_bind, always_query]
  exact hok

/-- Writing first. -/
theorem always_update_bind {R : Except ε β → List (Event σ Q A) → σ → Prop}
    {u : σ → σ} {f : Unit → Prog σ Q A ε β} (hg : G h s (u s))
    (hok : Always Adm G R (f ()) (.wrote s (u s) :: h) (u s)) :
    Always Adm G R (.update u >>= f) h s := by
  rw [always_bind, always_update]
  exact ⟨hg, hok⟩

/-- Writing first, with an answer. -/
theorem always_transact_bind {R : Except ε β → List (Event σ Q A) → σ → Prop}
    {u : σ → σ} {g : σ → α} {f : α → Prog σ Q A ε β} (hg : G h s (u s))
    (hok : Always Adm G R (f (g s)) (.wrote s (u s) :: h) (u s)) :
    Always Adm G R (.transact u g >>= f) h s := by
  rw [always_bind, always_transact]
  exact ⟨hg, hok⟩

/-- A statement that its constraint accepts is the write it makes. -/
theorem always_tryUpdate {R : Except ε Unit → List (Event σ Q A) → σ → Prop}
    {u : σ → Except ε σ} {s' : σ} (hu : u s = .ok s') (hg : G h s s')
    (hok : R (.ok ()) (.wrote s s' :: h) s') : Always Adm G R (.tryUpdate u) h s := by
  have hs : (u s).toOption.getD s = s' := by rw [hu]; rfl
  show G h s ((u s).toOption.getD s) ∧ Always Adm G R (Prog.check ((u s).map fun _ => ()))
    (.wrote s ((u s).toOption.getD s) :: h) ((u s).toOption.getD s)
  rw [hs, hu]
  exact ⟨hg, hok⟩

/-- The end of one turn of a loop: it goes on with the invariant, or an
exception ends the loop as `R` allows. -/
def turn (I : List (Event σ Q A) → σ → Prop) (R : Except ε β → List (Event σ Q A) → σ → Prop) :
    Except ε β → List (Event σ Q A) → σ → Prop
  | .ok _, h, s => I h s
  | .error e, h, s => R (.error e) h s

/-- **Loops.** A fold over a list keeps an invariant of what it has
computed and of what of the list is still to do. -/
theorem always_foldlM_acc {γ : Type} {f : β → γ → Prog σ Q A ε β}
    (I : β → List γ → List (Event σ Q A) → σ → Prop)
    {R : Except ε β → List (Event σ Q A) → σ → Prop}
    (hstep : ∀ b x xs h s, I b (x :: xs) h s → Always Adm G (fun r h s => match r with
      | .ok b' => I b' xs h s
      | .error e => R (.error e) h s) (f b x) h s)
    (hdone : ∀ b h s, I b [] h s → R (.ok b) h s) :
    ∀ (l : List γ) (b : β) (h : List (Event σ Q A)) (s : σ), I b l h s →
      Always Adm G R (l.foldlM f b) h s := by
  intro l
  induction l with
  | nil => exact fun b h s hI => hdone b h s hI
  | cons x xs ih =>
    intro b h s hI
    rw [List.foldlM_cons]
    exact (hstep b x xs h s hI).bind (fun b' h s hI' => ih b' h s hI') fun _ _ _ he => he

/-- The same, of what is still to do alone. -/
theorem always_foldlM {γ : Type} {f : β → γ → Prog σ Q A ε β}
    (I : List γ → List (Event σ Q A) → σ → Prop)
    {R : Except ε β → List (Event σ Q A) → σ → Prop}
    (hstep : ∀ x xs b h s, I (x :: xs) h s → Always Adm G (turn (I xs) R) (f b x) h s)
    (hdone : ∀ b h s, I [] h s → R (.ok b) h s) :
    ∀ (l : List γ) (b : β) (h : List (Event σ Q A)) (s : σ), I l h s →
      Always Adm G R (l.foldlM f b) h s :=
  always_foldlM_acc (fun _ => I) (fun b x xs h s hI => (hstep x xs b h s hI).mono
    (fun _ _ _ hg => hg) fun r _ _ hr => by cases r <;> exact hr) hdone

/-- Every answer in the history is one the outside may give. -/
def Told (Adm : ∀ q, A q → Prop) (h : List (Event σ Q A)) : Prop :=
  ∀ q a, .asked q a ∈ h → Adm q a

theorem Told.nil : Told Adm ([] : List (Event σ Q A)) := fun _ _ h => by cases h

theorem Told.asked {q : Q} {a : A q} (ht : Told Adm h) (ha : Adm q a) :
    Told Adm (.asked q a :: h) := by
  intro q' a' hmem
  rcases List.mem_cons.mp hmem with he | hmem
  · cases he
    exact ha
  · exact ht q' a' hmem

theorem Told.wrote {a b : σ} (ht : Told Adm h) : Told Adm (.wrote a b :: h) := by
  intro q a hmem
  rcases List.mem_cons.mp hmem with he | hmem
  · cases he
  · exact ht q a hmem

/-- A program is only ever told what the outside may say. -/
theorem Always.told {p : Prog σ Q A ε α} (hp : Always Adm G R p h s) (ht : Told Adm h) :
    Always Adm (fun h a b => Told Adm h ∧ G h a b) (fun r h s => Told Adm h ∧ R r h s) p h s := by
  induction p generalizing h s with
  | ret a => exact ⟨ht, hp⟩
  | raise e => exact ⟨ht, hp⟩
  | read k ih => exact ih s hp ht
  | write f k ih => exact ⟨⟨ht, hp.1⟩, ih s hp.2 ht.wrote⟩
  | ask q k ih => exact fun a ha => ih a (hp a ha) (ht.asked ha)

/-- Each write is made from a store with what every write keeps. -/
theorem Always.inv {J : σ → Prop} {p : Prog σ Q A ε α} (hp : Always Adm G R p h s)
    (hJ : ∀ h a b, J a → G h a b → J b) (h0 : J s) :
    Always Adm (fun h a b => J a ∧ G h a b) (fun r h s => J s ∧ R r h s) p h s := by
  induction p generalizing h s with
  | ret a => exact ⟨h0, hp⟩
  | raise e => exact ⟨h0, hp⟩
  | read k ih => exact ih s hp h0
  | write f k ih => exact ⟨⟨h0, hp.1⟩, ih s hp.2 (hJ _ _ _ h0 hp.1)⟩
  | ask q k ih => exact fun a ha => ih a (hp a ha) h0

/-- A program only adds to its history. -/
theorem Always.appends {p : Prog σ Q A ε α} (hp : Always Adm G R p h s) :
    Always Adm G (fun r h' s' => (∃ new, h' = new ++ h) ∧ R r h' s') p h s := by
  induction p generalizing h s with
  | ret a => exact ⟨⟨[], rfl⟩, hp⟩
  | raise e => exact ⟨⟨[], rfl⟩, hp⟩
  | read k ih => exact ih s hp
  | write f k ih =>
    refine ⟨hp.1, (ih s hp.2).mono (fun _ _ _ hg => hg) ?_⟩
    rintro r h' s' ⟨⟨new, rfl⟩, hr⟩
    exact ⟨⟨new ++ [.wrote s (f s)], by simp⟩, hr⟩
  | ask q k ih =>
    intro a ha
    refine (ih a (hp a ha)).mono (fun _ _ _ hg => hg) ?_
    rintro r h' s' ⟨⟨new, rfl⟩, hr⟩
    exact ⟨⟨new ++ [.asked q a], by simp⟩, hr⟩

/-! ### Adequacy -/

theorem Always.step {c c' : Config σ Q A ε α} (hc : Always Adm G R c.prog c.hist c.store)
    (hs : Step Adm c c') : Always Adm G R c'.prog c'.hist c'.store := by
  cases hs with
  | read k h s => exact hc
  | write f k h s => exact hc.2
  | ask q k h s a ha => exact hc a ha

theorem Always.steps {c c' : Config σ Q A ε α} (hc : Always Adm G R c.prog c.hist c.store)
    (hs : Steps Adm c c') : Always Adm G R c'.prog c'.hist c'.store := by
  induction hs with
  | refl => exact hc
  | tail _ hstep ih => exact ih.step hstep

/-- The end of a run is one the precondition allows. -/
theorem Always.runs {p : Prog σ Q A ε α} {r : Except ε α} {h' : List (Event σ Q A)} {s' : σ}
    (hp : Always Adm G R p h s) (hr : Runs Adm p h s r h' s') : R r h' s' :=
  (always_ofExcept r).mp (Always.steps hp hr)

/-- Every end of a program is the end of one of its runs. -/
theorem always_runs (p : Prog σ Q A ε α) (h : List (Event σ Q A)) (s : σ) :
    Always Adm (fun _ _ _ => True) (Runs Adm p h s) p h s := by
  induction p generalizing h s with
  | ret a => exact .refl
  | raise e => exact .refl
  | read k ih => exact (ih s h s).mono (fun _ _ _ hg => hg) fun _ _ _ hr => .head (.read k h s) hr
  | write f k ih =>
    exact ⟨trivial, (ih s _ _).mono (fun _ _ _ hg => hg) fun _ _ _ hr => .head (.write f k h s) hr⟩
  | ask q k ih =>
    exact fun a ha => (ih a _ s).mono (fun _ _ _ hg => hg) fun _ _ _ hr =>
      .head (.ask q k h s a ha) hr

/-- A sequence runs one half after the other, unless the first raises. -/
theorem Runs.of_bind {p : Prog σ Q A ε α} {f : α → Prog σ Q A ε β} {r : Except ε β}
    {h' : List (Event σ Q A)} {s' : σ} (hr : Runs Adm (p >>= f) h s r h' s') :
    (∃ e, r = .error e ∧ Runs Adm p h s (.error e) h' s') ∨
      ∃ a h₁ s₁, Runs Adm p h s (.ok a) h₁ s₁ ∧ Runs Adm (f a) h₁ s₁ r h' s' := by
  refine Always.runs (G := fun _ _ _ => True) (R := fun r h' s' =>
    (∃ e, r = .error e ∧ Runs Adm p h s (.error e) h' s') ∨
      ∃ a h₁ s₁, Runs Adm p h s (.ok a) h₁ s₁ ∧ Runs Adm (f a) h₁ s₁ r h' s') ?_ hr
  refine (always_runs p h s).bind (fun a h₁ s₁ hp => ?_) fun e h₁ s₁ hp => .inl ⟨e, rfl, hp⟩
  exact (always_runs (f a) h₁ s₁).mono (fun _ _ _ hg => hg) fun r h' s' hf =>
    .inr ⟨a, h₁, s₁, hp, hf⟩

/-- What every guaranteed write keeps holds wherever the program is. -/
theorem Always.steps_inv {c c' : Config σ Q A ε α} {J : σ → Prop}
    (hc : Always Adm G R c.prog c.hist c.store)
    (hJ : ∀ h a b, J a → G h a b → J b) (h0 : J c.store) (hs : Steps Adm c c') :
    J c'.store := by
  induction hs with
  | refl => exact h0
  | @tail b d hb hstep ih =>
    have hb' : Always Adm G R b.prog b.hist b.store := hc.steps hb
    cases hstep with
    | read k h s => exact ih
    | write f k h s => exact hJ _ _ _ ih hb'.1
    | ask q k h s a ha => exact ih

/-- A relation that every guaranteed write takes one step of relates the
stores at both ends of a run. -/
theorem Always.steps_rel {c c' : Config σ Q A ε α} {J : σ → σ → Prop}
    (hc : Always Adm G R c.prog c.hist c.store) (hrefl : J c.store c.store)
    (hJ : ∀ h a b, J c.store a → G h a b → J c.store b) (hs : Steps Adm c c') :
    J c.store c'.store :=
  Always.steps_inv (J := J c.store) hc hJ hrefl hs

/-- Every write in the history a program leaves satisfies the guarantee
it was made under. -/
theorem Always.steps_wrote {c c' : Config σ Q A ε α}
    (hc : Always Adm G R c.prog c.hist c.store) (hs : Steps Adm c c') :
    ∃ new, c'.hist = new ++ c.hist ∧
      ∀ pre a b post, new = pre ++ .wrote a b :: post → G (post ++ c.hist) a b := by
  induction hs with
  | refl => exact ⟨[], rfl, fun pre a b post h => by simp at h⟩
  | @tail b d hb hstep ih =>
    obtain ⟨new, hnew, hG⟩ := ih
    have hb' : Always Adm G R b.prog b.hist b.store := hc.steps hb
    cases hstep with
    | read k h s => exact ⟨new, hnew, hG⟩
    | write f k h s =>
      simp only at hnew
      refine ⟨.wrote s (f s) :: new, by rw [hnew]; rfl, ?_⟩
      intro pre a b post hsplit
      cases pre with
      | nil =>
        obtain ⟨hab, rfl⟩ := List.cons.inj hsplit
        cases hab
        exact hnew ▸ hb'.1
      | cons x pre => exact hG pre a b post (List.cons.inj hsplit).2
    | ask q k h s a ha =>
      simp only at hnew
      refine ⟨.asked q a :: new, by rw [hnew]; rfl, ?_⟩
      intro pre a' b post hsplit
      cases pre with
      | nil => exact absurd (List.cons.inj hsplit).1 (by simp)
      | cons x pre => exact hG pre a' b post (List.cons.inj hsplit).2

/-- The writes in the history of a program that started with none. -/
theorem Always.wrote {c : Config σ Q A ε α} {p : Prog σ Q A ε α} (hp : Always Adm G R p [] s)
    (hs : Steps Adm ⟨p, [], s⟩ c) {a b : σ} (hmem : .wrote a b ∈ c.hist) :
    ∃ h post, G h a b ∧ c.hist = post ++ .wrote a b :: h := by
  obtain ⟨new, hnew, hG⟩ := Always.steps_wrote (c := ⟨p, [], s⟩) hp hs
  simp only [List.append_nil] at hnew hG
  obtain ⟨pre, post, hsplit⟩ := List.append_of_mem (hnew ▸ hmem)
  exact ⟨post, pre, hG pre a b post hsplit, hnew.trans hsplit⟩

/-- Along a run whose writes are all allowed, what every allowed write
keeps holds before and after each of them. -/
theorem Always.along {J : σ → Prop} {C : σ → σ → Prop} {p : Prog σ Q A ε α}
    {c : Config σ Q A ε α} (hp : Always Adm G R p [] s)
    (hJ : ∀ h a b, J a → G h a b → C a b → J b) (h0 : J s) (hs : Steps Adm ⟨p, [], s⟩ c)
    (hC : ∀ a b, .wrote a b ∈ c.hist → C a b) :
    J c.store ∧ ∀ a b, .wrote a b ∈ c.hist → J a ∧ J b := by
  induction hs with
  | refl => exact ⟨h0, fun a b hmem => by cases hmem⟩
  | @tail b d hb hstep ih =>
    have hb' : Always Adm G R b.prog b.hist b.store := Always.steps (c := ⟨p, [], s⟩) hp hb
    cases hstep with
    | read k h s => exact ih hC
    | write f k h s =>
      obtain ⟨hJs, hJw⟩ := ih fun a b hmem => hC a b (List.mem_cons_of_mem _ hmem)
      have hJf := hJ _ _ _ hJs hb'.1 (hC s (f s) List.mem_cons_self)
      refine ⟨hJf, fun a b hmem => ?_⟩
      rcases List.mem_cons.mp hmem with he | hmem
      · cases he
        exact ⟨hJs, hJf⟩
      · exact hJw a b hmem
    | ask q k h s a ha =>
      obtain ⟨hJs, hJw⟩ := ih fun a b hmem => hC a b (List.mem_cons_of_mem _ hmem)
      refine ⟨hJs, fun a b hmem => ?_⟩
      rcases List.mem_cons.mp hmem with he | hmem
      · cases he
      · exact hJw a b hmem

/-- A program all of whose writes add to a measure has written exactly if
the measure has grown. -/
theorem Always.grows {μ : σ → ℕ} {p : Prog σ Q A ε α} {c : Config σ Q A ε α}
    (hp : Always Adm G R p [] s) (hG : ∀ h a b, G h a b → μ a < μ b)
    (hs : Steps Adm ⟨p, [], s⟩ c) (hw : Wrote c.hist) : μ s < μ c.store := by
  induction hs with
  | refl =>
    obtain ⟨a, b, hab⟩ := hw
    cases hab
  | @tail b d hb hstep ih =>
    have hb' : Always Adm G R b.prog b.hist b.store := Always.steps (c := ⟨p, [], s⟩) hp hb
    cases hstep with
    | read k h s => exact ih hw
    | ask q k h s a ha =>
      obtain ⟨x, y, hxy⟩ := hw
      rcases List.mem_cons.mp hxy with he | hxy
      · cases he
      · exact ih ⟨x, y, hxy⟩
    | write f k h t =>
      have hlast := hG _ _ _ hb'.1
      by_cases hbefore : Wrote h
      · exact Nat.lt_trans (ih hbefore) hlast
      · have ht : t = s := Steps.unwritten hb hbefore
        exact ht ▸ hlast

/-- The stores a history went through, most recent first. -/
def states : List (Event σ Q A) → List σ
  | [] => []
  | .asked _ _ :: h => states h
  | .wrote a b :: h => b :: a :: states h

/-- A write is between two neighbours. -/
theorem states_wrote {a b : σ} : ∀ {h : List (Event σ Q A)}, .wrote a b ∈ h →
    ∃ pre post, states h = pre ++ b :: a :: post
  | .asked q x :: h, hmem => by
    rcases List.mem_cons.mp hmem with he | hmem
    · cases he
    · exact states_wrote (h := h) hmem
  | .wrote x y :: h, hmem => by
    rcases List.mem_cons.mp hmem with he | hmem
    · cases he
      exact ⟨[], states h, rfl⟩
    · obtain ⟨pre, post, hsplit⟩ := states_wrote hmem
      exact ⟨y :: x :: pre, post, by rw [states, hsplit]; rfl⟩

theorem mem_states {r : σ} : ∀ {h : List (Event σ Q A)}, r ∈ states h →
    ∃ a b, .wrote a b ∈ h ∧ (r = a ∨ r = b)
  | .asked q x :: h, hmem => by
    obtain ⟨a, b, hw, hr⟩ := mem_states (h := h) hmem
    exact ⟨a, b, List.mem_cons_of_mem _ hw, hr⟩
  | .wrote x y :: h, hmem => by
    rcases List.mem_cons.mp hmem with rfl | hmem
    · exact ⟨x, _, List.mem_cons_self, Or.inr rfl⟩
    · rcases List.mem_cons.mp hmem with rfl | hmem
      · exact ⟨_, y, List.mem_cons_self, Or.inl rfl⟩
      · obtain ⟨a, b, hw, hr⟩ := mem_states hmem
        exact ⟨a, b, List.mem_cons_of_mem _ hw, hr⟩

/-- **Order along a run.** A relation that every store has to itself and
that every allowed write carries on relates every earlier store of a run
to every later one. -/
theorem Always.ordered {T C : σ → σ → Prop} {K : σ → Prop} {p : Prog σ Q A ε α}
    {c : Config σ Q A ε α} (hp : Always Adm G R p [] s) (hK : ∀ h a b, K a → G h a b → K b)
    (hrefl : ∀ a, K a → T a a)
    (hstep : ∀ h a b r, K a → G h a b → C a b → T r a → T r b) (h0 : K s)
    (hs : Steps Adm ⟨p, [], s⟩ c) (hC : ∀ a b, .wrote a b ∈ c.hist → C a b) :
    (states c.hist).Pairwise (fun later earlier => T earlier later) ∧
      (∀ r ∈ states c.hist, T r c.store) ∧ K c.store := by
  induction hs with
  | refl => exact ⟨List.Pairwise.nil, fun r hr => (by cases hr), h0⟩
  | @tail b d hb hstep' ih =>
    have hb' : Always Adm G R b.prog b.hist b.store := Always.steps (c := ⟨p, [], s⟩) hp hb
    cases hstep' with
    | read k h s => exact ih hC
    | ask q k h s a ha =>
      exact ih fun a b hmem => hC a b (List.mem_cons_of_mem _ hmem)
    | write f k h s =>
      obtain ⟨hpair, hlast, hKs⟩ := ih fun a b hmem => hC a b (List.mem_cons_of_mem _ hmem)
      have hnew : ∀ r, T r s → T r (f s) := fun r hr =>
        hstep h s (f s) r hKs hb'.1 (hC s (f s) List.mem_cons_self) hr
      have hKf := hK h s (f s) hKs hb'.1
      refine ⟨List.pairwise_cons.mpr ⟨fun r hr => ?_, List.pairwise_cons.mpr ⟨hlast, hpair⟩⟩,
        fun r hr => ?_, hKf⟩
      · rcases List.mem_cons.mp hr with rfl | hr
        · exact hnew _ (hrefl _ hKs)
        · exact hnew r (hlast r hr)
      · rcases List.mem_cons.mp hr with rfl | hr
        · exact hrefl _ hKf
        · rcases List.mem_cons.mp hr with rfl | hr
          · exact hnew _ (hrefl _ hKs)
          · exact hnew r (hlast r hr)

end Always

/-! ## Running on an oracle -/

/-- The run in which `ω` answers every question. -/
def runWith (ω : (q : Q) → A q) :
    Prog σ Q A ε α → List (Event σ Q A) → σ → Config σ Q A ε α
  | .ret a, h, s => ⟨.ret a, h, s⟩
  | .raise e, h, s => ⟨.raise e, h, s⟩
  | .read k, h, s => runWith ω (k s) h s
  | .write f k, h, s => runWith ω (k s) (.wrote s (f s) :: h) (f s)
  | .ask q k, h, s => runWith ω (k (ω q)) (.asked q (ω q) :: h) s

/-- How a program that has stopped ended. -/
def Prog.ended? : Prog σ Q A ε α → Option (Except ε α)
  | .ret a => some (.ok a)
  | .raise e => some (.error e)
  | _ => none

theorem Prog.ended?_some {p : Prog σ Q A ε α} {r : Except ε α} (h : p.ended? = some r) :
    p = .ofExcept r := by
  cases p <;> simp only [Prog.ended?, Option.some.injEq, reduceCtorEq] at h <;> subst h <;> rfl

/-- The first `n` steps of the run in which `ω` answers. -/
def advance (ω : (q : Q) → A q) : ℕ → Config σ Q A ε α → Config σ Q A ε α
  | 0, c => c
  | n + 1, c => match c with
    | ⟨.ret a, h, s⟩ => ⟨.ret a, h, s⟩
    | ⟨.raise e, h, s⟩ => ⟨.raise e, h, s⟩
    | ⟨.read k, h, s⟩ => advance ω n ⟨k s, h, s⟩
    | ⟨.write f k, h, s⟩ => advance ω n ⟨k s, .wrote s (f s) :: h, f s⟩
    | ⟨.ask q k, h, s⟩ => advance ω n ⟨k (ω q), .asked q (ω q) :: h, s⟩

theorem runWith_steps {Adm : ∀ q, A q → Prop} {ω : (q : Q) → A q} (hω : ∀ q, Adm q (ω q)) :
    ∀ (p : Prog σ Q A ε α) (h : List (Event σ Q A)) (s : σ),
      Steps Adm ⟨p, h, s⟩ (runWith ω p h s) := by
  intro p
  induction p with
  | ret a => exact fun _ _ => .refl
  | raise e => exact fun _ _ => .refl
  | read k ih => exact fun h s => .head (.read k h s) (ih s h s)
  | write f k ih => exact fun h s => .head (.write f k h s) (ih s _ _)
  | ask q k ih => exact fun h s => .head (.ask q k h s _ (hω q)) (ih _ _ _)

theorem advance_steps {Adm : ∀ q, A q → Prop} {ω : (q : Q) → A q} (hω : ∀ q, Adm q (ω q)) :
    ∀ (n : ℕ) (c : Config σ Q A ε α), Steps Adm c (advance ω n c) := by
  intro n
  induction n with
  | zero => exact fun _ => .refl
  | succ n ih =>
    rintro ⟨p, h, s⟩
    cases p with
    | ret a => exact .refl
    | raise e => exact .refl
    | read k => exact .head (.read k h s) (ih _)
    | write f k => exact .head (.write f k h s) (ih _)
    | ask q k => exact .head (.ask q k h s _ (hω q)) (ih _)

/-- Answered at every question, a program ends. -/
theorem runWith_ended (ω : (q : Q) → A q) :
    ∀ (p : Prog σ Q A ε α) (h : List (Event σ Q A)) (s : σ),
      ∃ r, (runWith ω p h s).prog.ended? = some r := by
  intro p
  induction p with
  | ret a => exact fun _ _ => ⟨.ok a, rfl⟩
  | raise e => exact fun _ _ => ⟨.error e, rfl⟩
  | read k ih => exact fun h s => ih s h s
  | write f k ih => exact fun h s => ih s _ _
  | ask q k ih => exact fun h s => ih _ _ _

/-- A computed end is the end of a run. -/
theorem runWith_runs {Adm : ∀ q, A q → Prop} {ω : (q : Q) → A q} (hω : ∀ q, Adm q (ω q))
    {p : Prog σ Q A ε α} {h : List (Event σ Q A)} {s s' : σ} {r : Except ε α}
    (hr : (runWith ω p h s).prog.ended? = some r) (hs : (runWith ω p h s).store = s') :
    ∃ h', Runs Adm p h s r h' s' := by
  refine ⟨(runWith ω p h s).hist, ?_⟩
  have hsteps := runWith_steps hω p h s
  rcases hc : runWith ω p h s with ⟨p', h', t⟩
  rw [hc] at hr hs hsteps
  simp only at hr hs
  rw [Prog.ended?_some hr, hs] at hsteps
  exact hsteps

/-- With somebody to answer, every program has a run. -/
theorem runWith_ends {Adm : ∀ q, A q → Prop} {ω : (q : Q) → A q} (hω : ∀ q, Adm q (ω q))
    (p : Prog σ Q A ε α) (h : List (Event σ Q A)) (s : σ) :
    ∃ r h', Runs Adm p h s r h' (runWith ω p h s).store := by
  obtain ⟨r, hr⟩ := runWith_ended ω p h s
  obtain ⟨h', hruns⟩ := runWith_runs hω hr rfl
  exact ⟨r, h', hruns⟩

end TradeDesk.Async
