import TradeDesk.Desk.Effects

/-!
# Nothing is stamped later than it was written

Every row an operation writes carries the operation's own time, so when
no operation ran later than `now` no row is stamped later than `now`
(`Run.timely`). In a chronological run that makes every row an operation
finds at most as late as the operation, and every row it leaves too
(`Run.timely_wrote`).
-/

namespace TradeDesk.Desk

open TradeDesk.Async

variable {cfg : Settings} {op : Op} {Adm : ∀ q, Answer q → Prop} {h : History} {a b s : Store}
variable {init : Store} {log : List Entry} {now t : Instant}

structure Timely (now : Instant) (s : Store) : Prop where
  fills : ∀ f ∈ s.paperFills, f.at_ ≤ now
  created : ∀ p ∈ s.proposals, p.createdAt ≤ now
  posted : ∀ p ∈ s.proposals, ∀ t, p.postedAt = some t → t ≤ now

theorem Timely.of_same (ht : Timely now a) (hprops : b.proposals = a.proposals)
    (hfills : b.paperFills = a.paperFills) : Timely now b :=
  ⟨hfills ▸ ht.fills, hprops ▸ ht.created, hprops ▸ ht.posted⟩

theorem Timely.addFill {f : PaperFill} (ht : Timely now a) (hf : f.at_ ≤ now) :
    Timely now (a.addFill f) := by
  refine ⟨fun g hg => ?_, ht.created, ht.posted⟩
  rcases List.mem_append.mp hg with hg | hg
  · exact ht.fills g hg
  · rw [List.mem_singleton.mp hg]
    exact hf

theorem Timely.stampPosted {pid : ℕ} {d : Instant} {m : Option String} (ht : Timely now a)
    (hle : t ≤ now) : Timely now (a.stampPosted pid t d m) := by
  refine ⟨ht.fills, fun p hp => ?_, fun p hp t' ht' => ?_⟩
  · obtain ⟨q, hq, rfl⟩ := List.mem_map.mp hp
    exact le_of_eq_of_le (stamp_same (·.createdAt) (fun _ _ _ _ => rfl) q) (ht.created q hq)
  · obtain ⟨q, hq, rfl⟩ := Store.mem_stampPosted.mp hp
    split at ht'
    · cases ht'
      exact hle
    · exact ht.posted q hq t' ht'

theorem DeskWrite.timely (hdw : DeskWrite cfg op h a b) (ht : Timely now a)
    (hop : ∀ t, op.time? = some t → t ≤ now) : Timely now b := by
  cases hdw with
  | call | extension | tighten | exitRequest | dropped | filled | mark | exitDone | resolve =>
    exact ht.of_same rfl rfl
  | @proposal t cin _ a₀ c plan _ _ _ =>
    refine ⟨ht.fills, fun p hp => ?_, fun p hp t' ht' => ?_⟩
    · rcases mem_addProposal.mp hp with hp | rfl
      · exact ht.created p hp
      · exact hop t rfl
    · rcases mem_addProposal.mp hp with hp | rfl
      · exact ht.posted p hp t' ht'
      · cases ht'
  | posted p veto mid _ _ _ _ => exact ht.stampPosted (hop _ rfl)
  | buy p ask stop _ _ _ => exact ht.addFill (hop _ rfl)
  | sell p e price reason _ _ _ => exact ht.addFill (hop _ rfl)

theorem Fresh.timely (hf : Fresh s) : Timely now s := by
  refine ⟨?_, ?_, ?_⟩
  · rw [hf.fills]
    exact fun f hf => by cases hf
  · rw [hf.proposals]
    exact fun p hp => by cases hp
  · rw [hf.proposals]
    exact fun p hp => by cases hp

theorem NotAfter.tail {e : Entry} (hn : NotAfter now (e :: log)) : NotAfter now log :=
  fun e' he' => hn e' (List.mem_cons_of_mem e he')

/-- **No row is later than every operation.** -/
theorem Run.timely (hrun : Run cfg Adm init log s) (hf : Fresh init) :
    ∀ now, NotAfter now log → Timely now s := by
  refine hrun.induct (I := fun log s => ∀ now, NotAfter now log → Timely now s)
    (fun _ _ => hf.timely) ?_ ?_
  · intro log s o r h s' hrun hI hruns now hn
    exact (Always.steps_inv (J := Timely now) (o.spec (hrun.sound hf.sound))
      (fun _ _ _ ht hdw => hdw.timely ht (hn ⟨o, h, s, s'⟩ List.mem_cons_self)) (hI now hn.tail)
      hruns)
  · intro log a b hI hw now hn
    obtain ⟨_, _, _, _, _, rfl⟩ := hw
    exact (hI now hn).of_same rfl rfl

/-- In a chronological run an operation writes on rows no later than
itself. -/
theorem Run.timely_wrote (hrun : Run cfg Adm init log s) (hf : Fresh init)
    (hchron : Chronological log) : ∀ e ∈ log, ∀ t, e.time? = some t →
      ∀ a b, .wrote a b ∈ e.hist → Timely t a ∧ Timely t b := by
  refine hrun.induct (I := fun log _ => Chronological log → ∀ e ∈ log, ∀ t, e.time? = some t →
    ∀ a b, .wrote a b ∈ e.hist → Timely t a ∧ Timely t b) (fun _ e he => by cases he) ?_
    (fun _ _ _ hI _ => hI) hchron
  intro log s o r h s' hrun hI hruns hchron e he t ht a b hmem
  rcases List.mem_cons.mp he with rfl | he
  · have hwrites : Always Adm (DeskWrite cfg o) (fun _ _ s' => Sound s') (o.prog cfg) [] s :=
      o.spec (hrun.sound hf.sound)
    have hspec := (hwrites.inv
      (J := Timely t) (fun _ _ _ ha hdw => hdw.timely ha fun t' ht' => by
        rw [show o.time? = some t from ht] at ht'
        cases ht'
        exact le_refl t) (hrun.timely hf t (hchron.notAfter ht)))
    obtain ⟨_, _, ⟨ha, hdw⟩, _⟩ := hspec.wrote hruns hmem
    exact ⟨ha, hdw.timely ha fun t' ht' => by
      rw [show o.time? = some t from ht] at ht'
      cases ht'
      exact le_refl t⟩
  · exact hI hchron.tail e he t ht a b hmem

end TradeDesk.Desk
