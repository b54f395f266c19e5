import TradeDesk.Async.Prog

/-!
# Programs in progress together

A `Pool` is a store and the programs in progress on it. At any moment one
may start, any of them may take its next step, one that has ended may
leave, and one that has not may be stopped where it stands: an exception
from the store, a cancelled coroutine, a dead process. `Trace C` is a run
all of whose moves `C` allows.

* `Trace.alone` — programs that start only when none is in progress: the
  one in progress is at a point of a run of its own.
* `Trace.serial` — programs whose steps keep `Apart` leave the store some
  run of them one after another leaves.
* `Trace.steps` — a run of one program is a trace of the pool it is in.
-/

namespace TradeDesk.Async

/-- A program in progress, and what it was started as. -/
structure Task (ι σ Q : Type) (A : Q → Type) (ε α : Type) where
  tag : ι
  prog : Prog σ Q A ε α
  hist : List (Event σ Q A)

structure Pool (ι σ Q : Type) (A : Q → Type) (ε α : Type) where
  store : σ
  tasks : List (Task ι σ Q A ε α)

/-- What can happen next. A step comes with the others in progress. -/
inductive Act (ι σ Q : Type) (A : Q → Type) (ε α : Type) where
  | start (o : ι)
  | step (t : Task ι σ Q A ε α) (others : List (Task ι σ Q A ε α))
  | leave (t : Task ι σ Q A ε α)
  | stop (t : Task ι σ Q A ε α)
  | env

variable {ι σ Q ε α : Type} {A : Q → Type}

/-- The program is about to write. -/
def Prog.atWrite : Prog σ Q A ε α → Prop
  | .write _ _ => True
  | _ => False

namespace Task

def ended (t : Task ι σ Q A ε α) : Bool := t.prog.ended?.isSome

/-- It has not taken a step yet. -/
def Unbegun (code : ι → Prog σ Q A ε α) (t : Task ι σ Q A ε α) : Prop :=
  t.prog = code t.tag ∧ t.hist = []

end Task

/-- One move. `code` says what is started under a tag, `Env` what else may
happen to the store while no program is in progress. -/
inductive Move (code : ι → Prog σ Q A ε α) (Adm : ∀ q, A q → Prop) (Env : σ → σ → Prop) :
    Act ι σ Q A ε α → Pool ι σ Q A ε α → Pool ι σ Q A ε α → Prop
  | start (o : ι) (s : σ) (ts : List (Task ι σ Q A ε α)) :
      Move code Adm Env (.start o) ⟨s, ts⟩ ⟨s, ts ++ [⟨o, code o, []⟩]⟩
  | step {t : Task ι σ Q A ε α} {c : Config σ Q A ε α} {s : σ}
      (pre post : List (Task ι σ Q A ε α)) : Step Adm ⟨t.prog, t.hist, s⟩ c →
      Move code Adm Env (.step t (pre ++ post)) ⟨s, pre ++ t :: post⟩
        ⟨c.store, pre ++ ⟨t.tag, c.prog, c.hist⟩ :: post⟩
  | leave {t : Task ι σ Q A ε α} {s : σ} (pre post : List (Task ι σ Q A ε α)) :
      t.ended = true → Move code Adm Env (.leave t) ⟨s, pre ++ t :: post⟩ ⟨s, pre ++ post⟩
  | stop {t : Task ι σ Q A ε α} {s : σ} (pre post : List (Task ι σ Q A ε α)) :
      t.ended = false → Move code Adm Env (.stop t) ⟨s, pre ++ t :: post⟩ ⟨s, pre ++ post⟩
  | env {s s' : σ} : Env s s' → Move code Adm Env .env ⟨s, []⟩ ⟨s', []⟩

/-- A run of the pool from an idle store, its moves most recent first. -/
inductive Trace (code : ι → Prog σ Q A ε α) (Adm : ∀ q, A q → Prop) (Env : σ → σ → Prop)
    (C : Act ι σ Q A ε α → Pool ι σ Q A ε α → Prop) (init : σ) :
    List (Act ι σ Q A ε α) → Pool ι σ Q A ε α → Prop
  | idle : Trace code Adm Env C init [] ⟨init, []⟩
  | move {acts : List (Act ι σ Q A ε α)} {p q : Pool ι σ Q A ε α} {a : Act ι σ Q A ε α} :
      Trace code Adm Env C init acts p → C a p → Move code Adm Env a p q →
      Trace code Adm Env C init (a :: acts) q

section

variable {code : ι → Prog σ Q A ε α} {Adm : ∀ q, A q → Prop} {Env : σ → σ → Prop}
variable {C : Act ι σ Q A ε α → Pool ι σ Q A ε α → Prop} {init s s' : σ}
variable {acts : List (Act ι σ Q A ε α)} {p : Pool ι σ Q A ε α} {t : Task ι σ Q A ε α}
variable {ts pre post : List (Task ι σ Q A ε α)}

/-! ## One at a time -/

/-- The only program in progress is at a point of a run of its own, from a
store with `I` that let it start. -/
def Alone (code : ι → Prog σ Q A ε α) (Adm : ∀ q, A q → Prop) (I : σ → Prop)
    (Pre : ι → σ → Prop) (t : Task ι σ Q A ε α) (s : σ) : Prop :=
  ∃ s₀, I s₀ ∧ Pre t.tag s₀ ∧ Steps Adm ⟨code t.tag, [], s₀⟩ ⟨t.prog, t.hist, s⟩

/-- **One program at a time.** If a program starts only when none is in
progress, and leaves `I` wherever it ends or is stopped, then at any
moment either the pool is idle with `I` or its one program is at a point
of a run of its own from a store with `I`. -/
theorem Trace.alone {I : σ → Prop} {P : ι → σ → Prop} (ht : Trace code Adm Env C init acts p)
    (h0 : I init) (hstart : ∀ o p, C (.start o) p → p.tasks = [] ∧ P o p.store)
    (hleave : ∀ t s, Alone code Adm I P t s → t.ended = true → I s)
    (hstop : ∀ t p, Alone code Adm I P t p.store → C (.stop t) p → I p.store)
    (henv : ∀ a b, I a → Env a b → I b) :
    (p.tasks = [] ∧ I p.store) ∨ ∃ t, p.tasks = [t] ∧ Alone code Adm I P t p.store := by
  have hone : ∀ {t u : Task ι σ Q A ε α} {pre post}, pre ++ t :: post = [u] →
      pre = [] ∧ t = u ∧ post = [] := by
    intro t u pre post he
    cases pre with
    | nil =>
      obtain ⟨rfl, rfl⟩ := List.cons.inj he
      exact ⟨rfl, rfl, rfl⟩
    | cons x pre => simp at he
  induction ht with
  | idle => exact Or.inl ⟨rfl, h0⟩
  | @move acts p q a hrun hc hmove ih =>
    cases hmove with
    | start o s ts =>
      obtain ⟨hts, hpre⟩ := hstart o _ hc
      obtain rfl : ts = [] := hts
      rcases ih with ⟨_, hI⟩ | ⟨t, he, _⟩
      · exact Or.inr ⟨_, rfl, ⟨s, hI, hpre, .refl⟩⟩
      · cases he
    | step pre post hstep =>
      rcases ih with ⟨he, _⟩ | ⟨u, he, ⟨s₀, hI, hpre, hsteps⟩⟩
      · simp at he
      · obtain ⟨rfl, rfl, rfl⟩ := hone he
        exact Or.inr ⟨_, rfl, ⟨s₀, hI, hpre, hsteps.tail hstep⟩⟩
    | leave pre post hended =>
      rcases ih with ⟨he, _⟩ | ⟨u, he, ha⟩
      · simp at he
      · obtain ⟨rfl, rfl, rfl⟩ := hone he
        exact Or.inl ⟨rfl, hleave _ _ ha hended⟩
    | stop pre post _ =>
      rcases ih with ⟨he, _⟩ | ⟨u, he, ha⟩
      · simp at he
      · obtain ⟨rfl, rfl, rfl⟩ := hone he
        exact Or.inl ⟨rfl, hstop _ ⟨_, [_]⟩ ha hc⟩
    | env henv' =>
      rcases ih with ⟨_, hI⟩ | ⟨u, he, _⟩
      · exact Or.inl ⟨rfl, henv _ _ hI henv'⟩
      · cases he

/-! ## One after another -/

/-- Programs run one after another, each to its end. -/
inductive Serial (code : ι → Prog σ Q A ε α) (Adm : ∀ q, A q → Prop) : List ι → σ → σ → Prop
  | nil (s : σ) : Serial code Adm [] s s
  | snoc {os : List ι} {s s' s'' : σ} {o : ι} {r : Except ε α} {h : List (Event σ Q A)} :
      Serial code Adm os s s' → Runs Adm (code o) [] s' r h s'' →
      Serial code Adm (os ++ [o]) s s''

/-- What every program started in the list leaves as it was. -/
theorem Serial.keeps {I : σ → Prop} {os : List ι} (hs : Serial code Adm os s s')
    (hI : ∀ o ∈ os, ∀ a r h b, I a → Runs Adm (code o) [] a r h b → I b) (h0 : I s) : I s' := by
  induction hs with
  | nil s => exact h0
  | @snoc os s s' s'' o r h _ hruns ih =>
    have hos := ih (fun o ho => hI o (List.mem_append_left _ ho)) h0
    exact hI o (List.mem_append_right _ (List.mem_singleton.mpr rfl)) _ _ _ _ hos hruns

/-- The tags of the programs a trace started, most recent first. -/
def started : List (Act ι σ Q A ε α) → List ι
  | [] => []
  | .start o :: acts => o :: started acts
  | _ :: acts => started acts

/-- The tags of the programs still running. -/
def running (ts : List (Task ι σ Q A ε α)) : List ι := (ts.filter fun t => !t.ended).map (·.tag)

/-- **A step that keeps apart**: nobody else is between its first write and
its end, and if the step writes, nobody else is between its first step and
its end. Nothing is stopped, and nobody but the programs writes. -/
def Apart (code : ι → Prog σ Q A ε α) : Act ι σ Q A ε α → Pool ι σ Q A ε α → Prop
  | .step t others, _ => ∀ u ∈ others, u.ended = false →
      ¬ Wrote u.hist ∧ (t.prog.atWrite → u.Unbegun code)
  | .stop _, _ | .env, _ => False
  | .start _, _ | .leave _, _ => True

/-- The program has only read, and what it read is what the store is. -/
def Reader (code : ι → Prog σ Q A ε α) (Adm : ∀ q, A q → Prop) (s : σ)
    (t : Task ι σ Q A ε α) : Prop :=
  Steps Adm ⟨code t.tag, [], s⟩ ⟨t.prog, t.hist, s⟩

theorem Task.Unbegun.reader (hu : t.Unbegun code) : Reader code Adm s t := by
  unfold Reader
  rw [hu.1, hu.2]
  exact .refl

theorem ended_runs (he : t.ended = true)
    (hs : Steps Adm ⟨code t.tag, [], s⟩ ⟨t.prog, t.hist, s'⟩) :
    ∃ r h, Runs Adm (code t.tag) [] s r h s' := by
  obtain ⟨r, hr⟩ := Option.isSome_iff_exists.mp he
  rw [Prog.ended?_some hr] at hs
  exact ⟨r, _, hs⟩

theorem running_middle : (running (pre ++ t :: post)).Perm
    ((if t.ended then [] else [t.tag]) ++ running (pre ++ post)) := by
  unfold running
  rw [List.filter_append, List.filter_append, List.map_append, List.map_append]
  by_cases he : t.ended = true
  · rw [List.filter_cons_of_neg (by simp [he]), if_pos he]
    exact .refl _
  · rw [List.filter_cons_of_pos (by simpa using he), if_neg he, List.map_cons]
    exact List.perm_middle

theorem running_concat : running (ts ++ [t]) = running ts ++ if t.ended then [] else [t.tag] := by
  unfold running
  rw [List.filter_append, List.map_append]
  by_cases he : t.ended = true
  · rw [List.filter_cons_of_neg (by simp [he]), if_pos he]
    rfl
  · rw [List.filter_cons_of_pos (by simpa using he), if_neg he]
    rfl

/-- **Where a trace whose steps keep apart is.** The programs in `done` ran
one after another; of the rest, either none has written and each reads the
store they left, or one has written since and no other has begun. -/
inductive Serialised (code : ι → Prog σ Q A ε α) (Adm : ∀ q, A q → Prop) (init : σ)
    (done : List ι) (p : Pool ι σ Q A ε α) : Prop
  | reading : Serial code Adm done init p.store →
      (∀ u ∈ p.tasks, u.ended = true ∨ Reader code Adm p.store u) → Serialised code Adm init done p
  | writing (w : Task ι σ Q A ε α) (s₀ : σ) : Serial code Adm done init s₀ →
      w.ended = false → Wrote w.hist → Steps Adm ⟨code w.tag, [], s₀⟩ ⟨w.prog, w.hist, p.store⟩ →
      w ∈ p.tasks → (∀ u ∈ p.tasks, u = w ∨ u.ended = true ∨ u.Unbegun code) →
      Serialised code Adm init done p

section

variable {done : List ι}

/-- A program that starts waits, unless it has nothing to do. -/
theorem Serialised.start {o : ι} (hs : Serialised code Adm init done ⟨s, ts⟩)
    (hperm : (done ++ running ts).Perm (started acts)) :
    ∃ done', (done' ++ running (ts ++ [⟨o, code o, []⟩])).Perm (o :: started acts) ∧
      Serialised code Adm init done' ⟨s, ts ++ [⟨o, code o, []⟩]⟩ := by
  have hnew : Task.Unbegun code (⟨o, code o, []⟩ : Task ι σ Q A ε α) := ⟨rfl, rfl⟩
  rw [running_concat]
  by_cases he : (⟨o, code o, []⟩ : Task ι σ Q A ε α).ended = true
  · -- it has ended before its first step, so it ran just now
    refine ⟨done ++ [o], ?_, ?_⟩
    · rw [if_pos he, List.append_nil, List.append_assoc]
      exact (List.perm_middle).trans (hperm.cons o)
    · cases hs with
      | reading hser hread =>
        obtain ⟨r, h, hruns⟩ := ended_runs he (show Reader code Adm s _ from hnew.reader)
        refine .reading (hser.snoc hruns) fun u hu => ?_
        rcases List.mem_append.mp hu with hu | hu
        · exact hread u hu
        · exact Or.inl (List.mem_singleton.mp hu ▸ he)
      | writing w s₀ hser hend hw hsteps hmem hrest =>
        obtain ⟨r, h, hruns⟩ := ended_runs he (show Reader code Adm s₀ _ from hnew.reader)
        refine .writing w s₀ (hser.snoc hruns) hend hw hsteps (List.mem_append_left _ hmem)
          fun u hu => ?_
        rcases List.mem_append.mp hu with hu | hu
        · exact hrest u hu
        · exact Or.inr (Or.inl (List.mem_singleton.mp hu ▸ he))
  · refine ⟨done, ?_, ?_⟩
    · rw [if_neg he, ← List.append_assoc]
      exact (List.perm_append_singleton _ _).trans (hperm.cons o)
    · cases hs with
      | reading hser hread =>
        refine .reading hser fun u hu => ?_
        rcases List.mem_append.mp hu with hu | hu
        · exact hread u hu
        · rw [List.mem_singleton.mp hu]
          exact Or.inr hnew.reader
      | writing w s₀ hser hend hw hsteps hmem hrest =>
        refine .writing w s₀ hser hend hw hsteps (List.mem_append_left _ hmem) fun u hu => ?_
        rcases List.mem_append.mp hu with hu | hu
        · exact hrest u hu
        · rw [List.mem_singleton.mp hu]
          exact Or.inr (Or.inr hnew)

/-- What a step leaves of the others. -/
theorem mem_middle {t' u : Task ι σ Q A ε α} (hu : u ∈ pre ++ t' :: post) :
    u = t' ∨ u ∈ pre ++ post := by
  rcases List.mem_append.mp hu with hu | hu
  · exact Or.inr (List.mem_append_left _ hu)
  · exact (List.mem_cons.mp hu).imp id (List.mem_append_right _)

theorem mem_of_others {u : Task ι σ Q A ε α} (hu : u ∈ pre ++ post) : u ∈ pre ++ t :: post := by
  rcases List.mem_append.mp hu with hu | hu
  · exact List.mem_append_left _ hu
  · exact List.mem_append_right _ (List.mem_cons_of_mem _ hu)

/-- A program is counted once, while it runs or when it has ended. -/
theorem counted_step {t' : Task ι σ Q A ε α} {tags : List ι} (ht : t.ended = false)
    (htag : t'.tag = t.tag) (hperm : (done ++ running (pre ++ t :: post)).Perm tags) :
    ((done ++ if t'.ended then [t.tag] else []) ++ running (pre ++ t' :: post)).Perm tags := by
  have hbefore : (done ++ ([t.tag] ++ running (pre ++ post))).Perm tags := by
    refine (List.Perm.append_left done ?_).trans hperm
    have hmid : (running (pre ++ t :: post)).Perm _ := running_middle
    rw [if_neg (by rw [ht]; decide)] at hmid
    exact hmid.symm
  refine List.Perm.trans ?_ hbefore
  rw [List.append_assoc]
  refine List.Perm.append_left done ((List.Perm.append_left _ running_middle).trans ?_)
  rw [htag]
  by_cases he : t'.ended = true
  · rw [if_pos he, if_pos he, List.nil_append]
  · rw [if_neg he, if_neg he, List.nil_append]

/-- A program that has written goes on alone, or ends. -/
theorem Serialised.wrote {t' : Task ι σ Q A ε α} {s₀ : σ} (hser : Serial code Adm done init s₀)
    (hsteps : Steps Adm ⟨code t'.tag, [], s₀⟩ ⟨t'.prog, t'.hist, s⟩) (hw : Wrote t'.hist)
    (hrest : ∀ u ∈ pre ++ post, u.ended = true ∨ u.Unbegun code) :
    Serialised code Adm init (done ++ if t'.ended then [t'.tag] else [])
      ⟨s, pre ++ t' :: post⟩ := by
  by_cases he : t'.ended = true
  · obtain ⟨r, h, hruns⟩ := ended_runs he hsteps
    rw [if_pos he]
    refine .reading (hser.snoc hruns) fun u hu => ?_
    rcases mem_middle hu with rfl | hu
    · exact Or.inl he
    · exact (hrest u hu).imp id Task.Unbegun.reader
  · rw [if_neg he, List.append_nil]
    exact .writing t' s₀ hser (by simpa using he) hw hsteps (by simp) fun u hu =>
      (mem_middle hu).imp id (hrest u)

/-- A program that has only read goes on beside the others, or ends. -/
theorem Serialised.read {t' : Task ι σ Q A ε α} (hser : Serial code Adm done init s)
    (hsteps : Reader code Adm s t')
    (hrest : ∀ u ∈ pre ++ post, u.ended = true ∨ Reader code Adm s u) :
    Serialised code Adm init (done ++ if t'.ended then [t'.tag] else [])
      ⟨s, pre ++ t' :: post⟩ := by
  by_cases he : t'.ended = true
  · obtain ⟨r, h, hruns⟩ := ended_runs he hsteps
    rw [if_pos he]
    refine .reading (hser.snoc hruns) fun u hu => ?_
    rcases mem_middle hu with rfl | hu
    · exact Or.inl he
    · exact hrest u hu
  · rw [if_neg he, List.append_nil]
    refine .reading hser fun u hu => ?_
    rcases mem_middle hu with rfl | hu
    · exact Or.inr hsteps
    · exact hrest u hu

/-- What can take a step has not ended. -/
theorem Step.not_ended {c : Config σ Q A ε α} (hstep : Step Adm ⟨t.prog, t.hist, s⟩ c) :
    t.ended = false := by
  obtain ⟨tag, prog, hist⟩ := t
  cases hstep <;> rfl

/-- **One step that keeps apart.** -/
theorem Serialised.step {c : Config σ Q A ε α}
    (hs : Serialised code Adm init done ⟨s, pre ++ t :: post⟩)
    (hap : ∀ u ∈ pre ++ post, u.ended = false →
      ¬ Wrote u.hist ∧ (t.prog.atWrite → u.Unbegun code))
    (hstep : Step Adm ⟨t.prog, t.hist, s⟩ c) :
    Serialised code Adm init
      (done ++ if (⟨t.tag, c.prog, c.hist⟩ : Task ι σ Q A ε α).ended then [t.tag] else [])
      ⟨c.store, pre ++ ⟨t.tag, c.prog, c.hist⟩ :: post⟩ := by
  have hnot := hstep.not_ended
  cases hs with
  | reading hser hread =>
    have ht : Reader code Adm s t := (hread t (by simp)).resolve_left (by rw [hnot]; decide)
    have hrest := fun u hu => hread u (mem_of_others hu)
    obtain ⟨tag, prog, hist⟩ := t
    cases hstep with
    | read k => exact .read hser (Relation.ReflTransGen.tail ht (.read k hist s)) hrest
    | ask q k h s a ha =>
      exact .read hser (Relation.ReflTransGen.tail ht (.ask q k hist s a ha)) hrest
    | write f k =>
      refine .wrote hser (Relation.ReflTransGen.tail ht (.write f k hist s))
        ⟨s, f s, List.mem_cons_self⟩ fun u hu => ?_
      cases he : u.ended with
      | true => exact Or.inl rfl
      | false => exact Or.inr ((hap u hu he).2 trivial)
  | writing w s₀ hser hend hw hsteps hmem hrest =>
    -- the writer is the one that steps: nobody else has written
    have hout : ∀ u ∈ pre ++ post, u ≠ w := fun u hu he =>
      (hap u hu (he ▸ hend)).1 (he ▸ hw)
    obtain rfl : w = t := (mem_middle hmem).resolve_right fun hin => hout w hin rfl
    refine .wrote hser (hsteps.tail hstep) ?_ fun u hu =>
      (hrest u (mem_of_others hu)).resolve_left (hout u hu)
    obtain ⟨a, b, hab⟩ := hw
    obtain ⟨tag, prog, hist⟩ := w
    cases hstep with
    | read k => exact ⟨a, b, hab⟩
    | ask q k h s x hx => exact ⟨a, b, List.mem_cons_of_mem _ hab⟩
    | write f k => exact ⟨a, b, List.mem_cons_of_mem _ hab⟩

/-- **Serialisability.** Programs whose steps keep apart, once all of them
have ended, leave what running them one after another, in the order they
ended in, would leave. -/
theorem Trace.serial (ht : Trace code Adm Env C init acts p)
    (hC : ∀ a p, C a p → Apart code a p) :
    ∃ done, (done ++ running p.tasks).Perm (started acts) ∧ Serialised code Adm init done p := by
  induction ht with
  | idle => exact ⟨[], .refl _, .reading (.nil init) fun u hu => by cases hu⟩
  | @move acts p q a hrun hc hmove ih =>
    obtain ⟨done, hperm, hs⟩ := ih
    have hap := hC _ _ hc
    cases hmove with
    | start o s ts => exact hs.start hperm
    | @step t c s pre post hstep =>
      exact ⟨_, counted_step hstep.not_ended rfl hperm, hs.step hap hstep⟩
    | @leave t s pre post he =>
      refine ⟨done, ?_, ?_⟩
      · have hmid : (running (pre ++ t :: post)).Perm _ := running_middle
        rw [if_pos he] at hmid
        exact (List.Perm.append_left done hmid.symm).trans hperm
      · cases hs with
        | reading hser hread => exact .reading hser fun u hu => hread u (mem_of_others hu)
        | writing w s₀ hser hend hw hsteps hmem hrest =>
          refine .writing w s₀ hser hend hw hsteps ?_ fun u hu => hrest u (mem_of_others hu)
          refine (mem_middle hmem).resolve_left fun hwt => ?_
          rw [hwt, he] at hend
          cases hend
    | stop pre post _ => exact hap.elim
    | env _ => exact hap.elim

/-- The same, of a pool that is idle again. -/
theorem Trace.serial_idle (ht : Trace code Adm Env C init acts p)
    (hC : ∀ a p, C a p → Apart code a p) (hidle : p.tasks = []) :
    ∃ order, order.Perm (started acts) ∧ Serial code Adm order init p.store := by
  obtain ⟨done, hperm, hs⟩ := ht.serial hC
  rw [hidle] at hperm
  refine ⟨done, by simpa [running] using hperm, ?_⟩
  cases hs with
  | reading hser _ => exact hser
  | writing w s₀ _ _ _ _ hmem _ =>
    rw [hidle] at hmem
    cases hmem

end

/-! ## Traces that can be computed -/

/-- A step, whoever takes it. -/
def Act.IsStep : Act ι σ Q A ε α → Prop
  | .step _ _ => True
  | _ => False

/-- A step starts nothing. -/
theorem started_steps {steps : List (Act ι σ Q A ε α)} (hsteps : ∀ a ∈ steps, a.IsStep) :
    started (steps ++ acts) = started acts := by
  induction steps with
  | nil => rfl
  | cons a steps ih =>
    have htail := ih fun b hb => hsteps b (List.mem_cons_of_mem a hb)
    cases a with
    | step t others => exact htail
    | start | leave | stop | env => exact (hsteps _ List.mem_cons_self).elim

/-- A run of one program is a trace of the pool it is in. -/
theorem Trace.steps {c : Config σ Q A ε α} (ht : Trace code Adm Env C init acts ⟨s, pre ++ t :: post⟩)
    (hC : ∀ u q, u.tag = t.tag → C (.step u (pre ++ post)) q)
    (hs : Steps Adm ⟨t.prog, t.hist, s⟩ c) :
    ∃ steps : List (Act ι σ Q A ε α), (∀ a ∈ steps, a.IsStep) ∧
      Trace code Adm Env C init (steps ++ acts)
        ⟨c.store, pre ++ ⟨t.tag, c.prog, c.hist⟩ :: post⟩ := by
  induction hs with
  | refl => exact ⟨[], fun a ha => (by cases ha), ht⟩
  | @tail b d _ hstep ih =>
    obtain ⟨steps, hall, htrace⟩ := ih
    refine ⟨.step ⟨t.tag, b.prog, b.hist⟩ (pre ++ post) :: steps, fun a ha => ?_,
      htrace.move (hC _ _ rfl) (.step (t := ⟨t.tag, b.prog, b.hist⟩) pre post hstep)⟩
    rcases List.mem_cons.mp ha with rfl | ha
    · trivial
    · exact hall a ha

/-- The first of two programs goes on. -/
theorem Trace.steps_first {u : Task ι σ Q A ε α} {c : Config σ Q A ε α}
    (ht : Trace code Adm Env C init acts ⟨s, [t, u]⟩)
    (hC : ∀ v q, v.tag = t.tag → C (.step v [u]) q) (hs : Steps Adm ⟨t.prog, t.hist, s⟩ c) :
    ∃ steps : List (Act ι σ Q A ε α), (∀ a ∈ steps, a.IsStep) ∧
      Trace code Adm Env C init (steps ++ acts) ⟨c.store, [⟨t.tag, c.prog, c.hist⟩, u]⟩ :=
  (show Trace code Adm Env C init acts ⟨s, [] ++ t :: [u]⟩ from ht).steps hC hs

/-- The second of two goes on. -/
theorem Trace.steps_second {u : Task ι σ Q A ε α} {c : Config σ Q A ε α}
    (ht : Trace code Adm Env C init acts ⟨s, [u, t]⟩)
    (hC : ∀ v q, v.tag = t.tag → C (.step v [u]) q) (hs : Steps Adm ⟨t.prog, t.hist, s⟩ c) :
    ∃ steps : List (Act ι σ Q A ε α), (∀ a ∈ steps, a.IsStep) ∧
      Trace code Adm Env C init (steps ++ acts) ⟨c.store, [u, ⟨t.tag, c.prog, c.hist⟩]⟩ :=
  (show Trace code Adm Env C init acts ⟨s, [u] ++ t :: []⟩ from ht).steps hC hs

/-- The program of a tag where a run of its own got to. -/
def Task.at_ (o : ι) (c : Config σ Q A ε α) : Task ι σ Q A ε α := ⟨o, c.prog, c.hist⟩

/-- A program starts in an idle pool and goes some way. -/
theorem Trace.begin {o : ι} {c : Config σ Q A ε α} (ht : Trace code Adm Env C init acts ⟨s, []⟩)
    (hstart : C (.start o) ⟨s, []⟩) (hstep : ∀ u q, u.tag = o → C (.step u []) q)
    (hs : Steps Adm ⟨code o, [], s⟩ c) :
    ∃ steps : List (Act ι σ Q A ε α), (∀ a ∈ steps, a.IsStep) ∧
      Trace code Adm Env C init (steps ++ .start o :: acts) ⟨c.store, [.at_ o c]⟩ :=
  (show Trace code Adm Env C init _ ⟨s, [] ++ ⟨o, code o, []⟩ :: []⟩ from
    ht.move hstart (.start o s [])).steps hstep hs

/-- It runs to its end and leaves. -/
theorem Trace.whole {o : ι} {ω : (q : Q) → A q} (ht : Trace code Adm Env C init acts ⟨s, []⟩)
    (hω : ∀ q, Adm q (ω q)) (hstart : C (.start o) ⟨s, []⟩)
    (hstep : ∀ u q, u.tag = o → C (.step u []) q)
    (hleave : ∀ q, C (.leave (.at_ o (runWith ω (code o) [] s))) q) :
    ∃ steps : List (Act ι σ Q A ε α), (∀ a ∈ steps, a.IsStep) ∧
      Trace code Adm Env C init
        (.leave (.at_ o (runWith ω (code o) [] s)) :: (steps ++ .start o :: acts))
        ⟨(runWith ω (code o) [] s).store, []⟩ := by
  obtain ⟨steps, hall, htrace⟩ := ht.begin hstart hstep (runWith_steps hω (code o) [] s)
  obtain ⟨r, hr⟩ := runWith_ended ω (code o) [] s
  have hended : (Task.at_ o (runWith ω (code o) [] s)).ended = true := by
    show (runWith ω (code o) [] s).prog.ended?.isSome = true
    rw [hr]
    rfl
  exact ⟨steps, hall, htrace.move (hleave _) (.leave [] [] hended)⟩

/-- It is stopped after `n` steps. -/
theorem Trace.cut {o : ι} {ω : (q : Q) → A q} {n : ℕ}
    (ht : Trace code Adm Env C init acts ⟨s, []⟩)
    (hω : ∀ q, Adm q (ω q)) (hstart : C (.start o) ⟨s, []⟩)
    (hstep : ∀ u q, u.tag = o → C (.step u []) q)
    (hstop : ∀ q, C (.stop (.at_ o (advance ω n ⟨code o, [], s⟩))) q)
    (hended : (advance ω n ⟨code o, [], s⟩).prog.ended?.isSome = false) :
    ∃ acts', Trace code Adm Env C init acts' ⟨(advance ω n ⟨code o, [], s⟩).store, []⟩ := by
  obtain ⟨steps, _, htrace⟩ := ht.begin hstart hstep (advance_steps hω n ⟨code o, [], s⟩)
  exact ⟨_, htrace.move (hstop _) (.stop [] [] hended)⟩

end

end TradeDesk.Async
