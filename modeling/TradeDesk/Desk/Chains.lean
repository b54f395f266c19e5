import TradeDesk.Desk.OpenCalls
import Mathlib.Logic.Relation

/-!
# Chains of extensions

`current_call_id` follows rows that point back at the call they extend, and
nothing in its loop bounds it. What does is in `extend_call`: it refuses a
call that extends another and one that is extended already, and the row it
inserts is the newest of the table. So a chain is one link long at most, and
its second row, if there is one, is where the loop ends (`chains_end`).
-/

namespace TradeDesk.Desk

open TradeDesk.Async

variable {cfg : Settings} {op : Op} {Adm : ∀ q, Answer q → Prop} {h : History} {a b s : Store}
variable {init : Store} {log : List Entry} {i j e : ℕ}

/-- Call `j` extends call `i`. -/
def Extends (s : Store) (i j : ℕ) : Prop := ∃ c ∈ s.calls, c.extendsCallId = some i ∧ c.id = j

/-- A call that is extended by none, and to which a chain from `i` leads. -/
structure EndOf (s : Store) (i e : ℕ) : Prop where
  reached : Relation.ReflTransGen (Extends s) i e
  last : ∀ k, ¬ Extends s e k

/-- Chains of extensions are finite and linear. -/
structure ChainsEnd (s : Store) : Prop where
  one : ∀ c ∈ s.calls, ∀ d ∈ s.calls, c.extendsCallId ≠ none → c.extendsCallId = d.extendsCallId →
    c = d
  notAgain : ∀ i j k, Extends s i j → ¬ Extends s j k
  newer : ∀ i j, Extends s i j → i < j
  /-- The loop ends, after two reads at most, at the one end of the chain. -/
  ends : ∀ c ∈ s.calls, ∃ e, (∀ fuel, 2 ≤ fuel → (followExtensions fuel c.id).eval s = .ok e) ∧
    (currentCallId c.id).eval s = .ok e ∧ EndOf s c.id e ∧ ∀ e', EndOf s c.id e' → e' = e

/-! ## Newer than what they extend -/

/-- An extension is newer than what it extends. -/
def ExtensionsNewer (s : Store) : Prop := ∀ i j, Extends s i j → i < j

theorem ExtensionsNewer.addCall {n : NewCall} (hn : ExtensionsNewer a)
    (hold : ∀ i, n.extendsCallId = some i → ∃ old ∈ a.calls, old.id = i) :
    ExtensionsNewer (a.addCall n) := by
  rintro i j ⟨c, hc, hi, rfl⟩
  rcases List.mem_append.mp hc with hc | hc
  · exact hn i c.id ⟨c, hc, hi, rfl⟩
  · obtain rfl := List.mem_singleton.mp hc
    obtain ⟨old, hold, rfl⟩ := hold i hi
    exact lt_nextId (List.mem_map_of_mem hold)

theorem ExtensionsNewer.of_same (hn : ExtensionsNewer a) (hcalls : b.calls = a.calls) :
    ExtensionsNewer b := by
  unfold ExtensionsNewer Extends at *
  rw [hcalls]
  exact hn

/-- **No statement extends a call by an older one.** -/
theorem DeskWrite.extensionsNewer (hdw : DeskWrite cfg op h a b) (hn : ExtensionsNewer a) :
    ExtensionsNewer b := by
  cases hdw with
  | call c hc =>
    refine hn.addCall fun i hi => ?_
    rw [hc.original] at hi
    cases hi
  | extension old t i last spy bench hold =>
    refine hn.addCall fun i hi => ?_
    obtain rfl : old.id = i := Option.some.inj hi
    exact ⟨old, hold, rfl⟩
  | proposal | tighten | exitRequest | posted | dropped | buy | filled | mark | sell | exitDone
  | resolve =>
    exact hn.of_same rfl

/-! ## The loop -/

theorem extension?_iff : s.extension? i = none ↔ ∀ k, ¬ Extends s i k := by
  constructor
  · rintro hnone k ⟨c, hc, hi, -⟩
    exact extension?_none hnone hc hi
  · intro hno
    cases hx : s.extension? i with
    | none => rfl
    | some c =>
      obtain ⟨hc, hi⟩ := extension?_some hx
      exact absurd ⟨c, hc, hi, rfl⟩ (hno c.id)

theorem WF.notExtendedAgain (hs : WF s) {k : ℕ} (hij : Extends s i j) : ¬ Extends s j k := by
  obtain ⟨c, hc, hi, rfl⟩ := hij
  exact extension?_iff.mp (hs.extension?_extension hc hi) k

/-- Where the loop is after two reads. -/
theorem WF.followExtensions_eval (hs : WF s) (i n : ℕ) :
    (followExtensions (n + 2) i).eval s = .ok (s.currentCall i) := by
  unfold Store.currentCall
  rw [followExtensions, Reads.eval_read]
  cases hx : s.extension? i with
  | none => rfl
  | some c =>
    obtain ⟨hc, hi⟩ := extension?_some hx
    dsimp only
    rw [followExtensions, Reads.eval_read, hs.extension?_extension hc hi]
    rfl

theorem WF.endOf_currentCall (hs : WF s) (i : ℕ) : EndOf s i (s.currentCall i) := by
  unfold Store.currentCall
  cases hx : s.extension? i with
  | none => exact ⟨.refl, extension?_iff.mp hx⟩
  | some c =>
    obtain ⟨hc, hi⟩ := extension?_some hx
    have hlink : Extends s i c.id := ⟨c, hc, hi, rfl⟩
    exact ⟨.single hlink, fun k => hs.notExtendedAgain hlink⟩

/-- Two ends of one chain are one, whatever the chains are like. -/
theorem WF.endOf_unique (hs : WF s) {e' : ℕ} (he : EndOf s i e) (he' : EndOf s i e') : e' = e := by
  have hone : ∀ {i j k : ℕ}, Extends s i j → Extends s i k → j = k := by
    rintro i j k ⟨c, hc, hi, rfl⟩ ⟨d, hd, hi', rfl⟩
    rw [hs.oneExtension c hc d hd (by rw [hi]; exact Option.some_ne_none _) (hi.trans hi'.symm)]
  obtain ⟨hreached, hlast⟩ := he
  induction hreached using Relation.ReflTransGen.head_induction_on with
  | refl =>
    rcases Relation.ReflTransGen.cases_head he'.reached with heq | ⟨k, hk, -⟩
    · exact heq.symm
    · exact absurd hk (hlast k)
  | head hstep _ ih =>
    rcases Relation.ReflTransGen.cases_head he'.reached with rfl | ⟨k, hk, hrest⟩
    · exact absurd hstep (he'.last _)
    · exact ih ⟨hone hk hstep ▸ hrest, he'.last⟩

theorem ChainsEnd.of (hs : WF s) (hn : ExtensionsNewer s) : ChainsEnd s where
  one := hs.oneExtension
  notAgain _ _ _ hij := hs.notExtendedAgain hij
  newer := hn
  ends c _ := by
    refine ⟨s.currentCall c.id, fun fuel hfuel => ?_, hs.currentCallId_eval c.id,
      hs.endOf_currentCall c.id, fun e' he' => hs.endOf_unique (hs.endOf_currentCall c.id) he'⟩
    obtain ⟨n, rfl⟩ := Nat.exists_eq_add_of_le' hfuel
    exact hs.followExtensions_eval c.id n

/-! ## Runs -/

theorem Fresh.extensionsNewer (hf : Fresh s) : ExtensionsNewer s := by
  rintro i j ⟨c, hc, -⟩
  rw [hf.calls] at hc
  cases hc

/-- **Chains of extensions end.** Throughout a run from an empty ledger a
call has one extension at most, an extension is newer than what it extends
and not itself extended, and the loop of `current_call_id` ends at the one
end of the chain. -/
theorem chains_end (hrun : Run cfg Adm init log s) (hf : Fresh init) : Throughout ChainsEnd log s := by
  have hall := hrun.throughout (J := fun s => WF s ∧ ExtensionsNewer s) hf.sound
    ⟨hf.sound.wf, hf.extensionsNewer⟩
    (fun _ _ _ _ _ _ hn hdw => ⟨hdw.wf hn.1, hdw.extensionsNewer hn.2⟩)
    fun _ _ hn hw => by
      obtain ⟨_, _, _, _, _, rfl⟩ := hw
      exact ⟨hn.1.of_same rfl rfl rfl rfl, hn.2.of_same rfl⟩
  exact ⟨.of hall.1.1 hall.1.2, fun e he a b hmem =>
    ⟨.of (hall.2 e he a b hmem).1.1 (hall.2 e he a b hmem).1.2,
      .of (hall.2 e he a b hmem).2.1 (hall.2 e he a b hmem).2.2⟩⟩

/-- The call on AAA is resolved at its horizon and extended. -/
theorem chains_end_extended : ∃ log s, Run deskSettings AnyAnswer openingStore log s ∧
    s.calls.map (fun c => (c.id, c.extendsCallId)) = [(1, none), (2, some 1)] ∧
    Throughout ChainsEnd log s := by
  obtain ⟨log, hrun, -⟩ := buying.goes_on opening_run
  obtain ⟨log', hrun', -⟩ := Script.goes_on [scoreAt 57 0, extendAt 58 0 1 "47"]
    (hrun.world twoDaysOn_world)
  exact ⟨log', _, hrun', by decide +kernel, chains_end hrun' openingStore_fresh⟩

end TradeDesk.Desk
