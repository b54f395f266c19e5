import TradeDesk.Desk.LoopSpecs

/-!
# One purchase a proposal

A watch records a fill in one statement and the outcome that closes the
proposal in the next, and what it still has to fill it reads from the
outcomes alone. A pass that is stopped between the two, or another that
reads between them, leaves or finds a proposal that has been bought and
does not look it, and the next pass buys it again. Two passes at once can
sell one position twice in the same way.

So passes must take turns: one starts only when no operation is in
progress and every entry fill has its outcome. Then every proposal is
bought once at most, wherever passes are stopped (`atMostOnce_of_turns`).
-/

namespace TradeDesk.Desk

open TradeDesk.Async

variable {cfg : Settings} {Adm : ∀ q, Answer q → Prop} {init s : Store} {acts : List DeskAct}
variable {pool : DeskPool} {p : Proposal} {l : Life}

/-- Every proposal has one purchase at most, and no more of it is sold than
was bought. -/
def AtMostOnce (s : Store) : Prop :=
  ∀ p ∈ s.proposals, (s.buys p.id).length ≤ 1 ∧ s.sold p.id ≤ s.bought p.id

/-- Every proposal that has been bought has its outcome. -/
def Settled (s : Store) : Prop :=
  ∀ p ∈ s.proposals, s.buys p.id ≠ [] → s.hasOutcome p.id = true

/-- An operation starts only when none is in progress and every entry fill
has its outcome. It may be stopped anywhere. -/
def TakesTurns : DeskAct → DeskPool → Prop
  | .start _, pool => pool.tasks = [] ∧ Settled pool.store
  | _, _ => True

theorem WF.sound_of_settled (hs : WF s) (hset : Settled s) : Sound s := by
  refine ⟨hs, fun p hp b hb => ?_⟩
  have hout := hset p hp (by rw [hb.buys]; exact List.cons_ne_nil _ _)
  rw [hb.hasOutcome] at hout
  cases hout

/-- At every place of its life a proposal has been bought once at most, and
nothing has been sold that was not bought. -/
theorem HasLife.atMostOnce (h : HasLife s p l) (hq : 0 < p.quantity) :
    (s.buys p.id).length ≤ 1 ∧ s.sold p.id ≤ s.bought p.id := by
  have hfits := h.fits
  unfold Store.sold Store.bought Store.quantitySum
  rw [h.buys, h.sells]
  cases l with
  | pending | dropped o => exact ⟨by simp [Life.buys], le_refl _⟩
  | filling b | held b =>
    have hb : b.quantity = p.quantity := hfits
    refine ⟨le_refl _, ?_⟩
    simp only [Life.buys, Life.sells, List.map_nil, List.sum_nil, List.map_singleton,
      List.sum_singleton]
    omega
  | closed b x =>
    obtain ⟨hb, hx⟩ : b.quantity = p.quantity ∧ x.quantity = p.quantity := hfits
    refine ⟨le_refl _, ?_⟩
    simp only [Life.buys, Life.sells, List.map_singleton, List.sum_singleton]
    omega

theorem WF.atMostOnce (hs : WF s) : AtMostOnce s := fun p hp => by
  obtain ⟨l, hl⟩ := hs.lives p hp
  exact hl.atMostOnce (hs.quantity p hp)

/-- Wherever an operation stands, the ledger is well formed. -/
theorem Op.steps_wf {o : Op} {h : History} {s' : Store} {prog : DeskM Unit} (hs : Sound s)
    (hsteps : Steps Adm ⟨o.prog cfg, [], s⟩ ⟨prog, h, s'⟩) : WF s' :=
  have hspec : Always Adm (DeskWrite cfg o) (fun _ _ s' => Sound s') (o.prog cfg) [] s := o.spec hs
  hspec.steps_inv (J := WF) (fun _ _ _ ha hdw => hdw.wf ha) hs.wf hsteps

/-- **One purchase a proposal.** If operations take turns, each starting
only when every entry fill has its outcome, then wherever any of them is,
or was stopped, every proposal has been bought once at most and no more of
it sold than bought. -/
theorem atMostOnce_of_turns (ht : DeskTrace cfg Adm TakesTurns init acts pool) (hf : Fresh init) :
    AtMostOnce pool.store := by
  have hturn := Trace.alone (I := WF) (P := fun _ => Settled) ht hf.sound.wf
    (fun _ _ hc => hc)
    (fun _ _ ⟨_, hw, hset, hsteps⟩ _ => Op.steps_wf (hw.sound_of_settled hset) hsteps)
    (fun _ _ ⟨_, hw, hset, hsteps⟩ _ => Op.steps_wf (hw.sound_of_settled hset) hsteps)
    fun _ _ hw hworld => by
      obtain ⟨_, _, _, _, _, rfl⟩ := hworld
      exact hw.of_same rfl rfl rfl rfl
  rcases hturn with ⟨_, hw⟩ | ⟨_, _, _, hw, hset, hsteps⟩
  · exact hw.atMostOnce
  · exact (Op.steps_wf (hw.sound_of_settled hset) hsteps).atMostOnce

/-- A submission, its posting, and where a watch of both is stopped or ends. -/
def posted : Store := Script.play deskSettings [submitAt 9 50 "47" 2 .shares, postAt 9 51] openingStore

def watchedFor (n : ℕ) : Config Store Query Answer Exc Unit :=
  advance (watchAt 10 15 50).2 n ⟨(watchAt 10 15 50).1.prog deskSettings, [], posted⟩

/-- The store when a pass was stopped after `n` steps and another followed. -/
def watchedAgain (n : ℕ) : Store :=
  (runWith (watchAt 10 16 50).2 ((watchAt 10 16 50).1.prog deskSettings) [] (watchedFor n).store).store

/-- The submission, the posting, a watch stopped after `n` steps, a watch. -/
theorem watchedAgain_trace {C : DeskAct → DeskPool → Prop} {n : ℕ}
    (hstart : ∀ o s, s ∈ [openingStore, Script.play deskSettings [submitAt 9 50 "47" 2 .shares]
      openingStore, posted, (watchedFor n).store] → C (.start o) ⟨s, []⟩)
    (hrest : ∀ a p, (∀ o, a ≠ .start o) → C a p)
    (hn : (watchedFor n).prog.ended?.isSome = false) :
    ∃ acts, DeskTrace deskSettings AnyAnswer C openingStore acts ⟨watchedAgain n, []⟩ := by
  have hstep : ∀ {o : Op} u q, u.tag = o → C (.step u []) q :=
    fun _ _ _ => hrest _ _ fun _ he => by cases he
  have hleave : ∀ t q, C (.leave t) q := fun _ _ => hrest _ _ fun _ he => by cases he
  have hidle : DeskTrace deskSettings AnyAnswer C openingStore [] ⟨openingStore, []⟩ := .idle
  obtain ⟨_, _, h₁⟩ := hidle.whole (ω := (submitAt 9 50 "47" 2 .shares).2)
    (fun _ => trivial) (hstart (submitAt 9 50 "47" 2 .shares).1 _ (by simp)) hstep (hleave _)
  obtain ⟨_, _, h₂⟩ := h₁.whole (ω := (postAt 9 51).2) (fun _ => trivial)
    (hstart (postAt 9 51).1 _ (by simp [Script.play])) hstep (hleave _)
  obtain ⟨_, h₃⟩ := h₂.cut (ω := (watchAt 10 15 50).2) (n := n) (fun _ => trivial)
    (hstart (watchAt 10 15 50).1 _ (by simp [posted, Script.play])) hstep
    (fun _ => hrest _ _ fun _ he => by cases he) hn
  obtain ⟨_, _, h₄⟩ := h₃.whole (ω := (watchAt 10 16 50).2) (fun _ => trivial)
    (hstart (watchAt 10 16 50).1 _ (by simp [watchedFor, posted, Script.play])) hstep (hleave _)
  exact ⟨_, h₄⟩

/-- A pass stopped between its fill and the outcome is followed by one that
buys the proposal a second time. -/
theorem bought_twice : ¬ ∀ cfg Adm init acts pool, DeskTrace cfg Adm OneAtATime init acts pool →
    Fresh init → AtMostOnce pool.store := by
  intro hall
  obtain ⟨acts, htrace⟩ := watchedAgain_trace (C := OneAtATime) (n := 14) (fun _ _ _ => rfl)
    (fun a p hne => by
      cases a with
      | start o => exact absurd rfl (hne o)
      | step | leave | stop | env => trivial) (by decide +kernel)
  have honce := hall _ _ _ _ _ htrace openingStore_fresh
  have hbuys : ∀ p ∈ (watchedAgain 14).proposals, ((watchedAgain 14).buys p.id).length ≤ 1 :=
    fun p hp => (honce p hp).1
  revert hbuys
  decide +kernel

/-- Stopped one step later, the pass has closed the proposal. -/
theorem atMostOnce_stopped_later : ∃ acts,
    DeskTrace deskSettings AnyAnswer TakesTurns openingStore acts ⟨watchedAgain 15, []⟩ ∧
    (watchedAgain 15).paperFills.length = 1 ∧ AtMostOnce (watchedAgain 15) := by
  have hsettled : ∀ s ∈ [openingStore, Script.play deskSettings [submitAt 9 50 "47" 2 .shares]
      openingStore, posted, (watchedFor 15).store], ∀ p ∈ s.proposals, s.buys p.id ≠ [] →
      s.hasOutcome p.id = true := by
    decide +kernel
  obtain ⟨acts, htrace⟩ := watchedAgain_trace (C := TakesTurns) (n := 15)
    (fun _ s hs => ⟨rfl, hsettled s hs⟩)
    (fun a p hne => by
      cases a with
      | start o => exact absurd rfl (hne o)
      | step | leave | stop | env => trivial) (by decide +kernel)
  exact ⟨acts, htrace, by decide +kernel, atMostOnce_of_turns htrace openingStore_fresh⟩

end TradeDesk.Desk
