import TradeDesk.Desk.Effects

/-!
# One open call a name and direction

A submission checks that no desk call on its name and direction is open.
An extension does not: it continues a call that has been resolved, and by
then a new call on the same name may have been made. So the desk keeps one
open call a name and direction exactly as long as no extension is inserted
beside one (`oneOpenCall_iff`).

Either way a call's resolution is of a call that is there, which is why a
new row starts unresolved.
-/

namespace TradeDesk.Desk

open TradeDesk.Async

variable {cfg : Settings} {op : Op} {Adm : ∀ q, Answer q → Prop} {h : History} {a b s : Store}
variable {init : Store} {log : List Entry} {c d : Call} {sym : String} {dir : Direction}

/-- A desk call nothing has resolved yet. -/
structure IsOpen (s : Store) (c : Call) : Prop where
  mem : c ∈ s.calls
  desk : c.origin ≠ .legacy
  unresolved : s.resolved .call c.id = false

/-- For every name and direction, one open call at most. -/
def OneOpenCall (s : Store) : Prop :=
  ∀ c d, IsOpen s c → IsOpen s d → c.symbol = d.symbol → c.direction = d.direction → c = d

/-- The statement, if it inserts an extension, finds no open call on its
name and direction. -/
def ExtendsAlone (a b : Store) : Prop :=
  ∀ c : NewCall, c.extendsCallId ≠ none → b = a.addCall c →
    a.openCall? c.symbol c.direction false = none

theorem openCall?_none_iff : s.openCall? sym dir false = none ↔
    ∀ c, IsOpen s c → c.symbol = sym → c.direction ≠ dir := by
  unfold Store.openCall?
  rw [List.getLast?_eq_none_iff, List.filter_eq_nil_iff]
  constructor
  · intro hall c hc hsym hdir
    exact hall c hc.mem (by simp [hsym, hdir, hc.desk, hc.unresolved])
  · intro hall c hc hmatch
    simp only [Bool.and_eq_true, beq_iff_eq, Bool.not_eq_true', beq_eq_false_iff_ne, ne_eq]
      at hmatch
    obtain ⟨⟨⟨hsym, hdir⟩, hdesk⟩, hres⟩ := hmatch
    exact hall c ⟨hc, hdesk, hres⟩ hsym hdir

/-! ## Resolutions are of calls that are there -/

def ResolvesCalls (s : Store) : Prop :=
  ∀ r ∈ s.resolutions, r.kind = .call → ∃ c ∈ s.calls, c.id = r.itemId

theorem ResolvesCalls.addCall {n : NewCall} (hr : ResolvesCalls a) : ResolvesCalls (a.addCall n) :=
  fun r hmem hk => (hr r hmem hk).imp fun _ hc => ⟨List.mem_append_left _ hc.1, hc.2⟩

theorem DeskWrite.resolvesCalls (hdw : DeskWrite cfg op h a b) (hr : ResolvesCalls a) :
    ResolvesCalls b := by
  cases hdw with
  | call c _ => exact hr.addCall
  | extension old t i last spy bench => exact hr.addCall
  | resolve r hnone hcall =>
    intro r' hr' hk
    rcases List.mem_append.mp hr' with hr' | hr'
    · exact hr r' hr' hk
    · rw [List.mem_singleton.mp hr'] at hk ⊢
      exact hcall hk
  | proposal | tighten | exitRequest | posted | dropped | buy | filled | mark | sell | exitDone =>
    exact hr

theorem Fresh.resolvesCalls (hf : Fresh s) : ResolvesCalls s := fun r hr hk => by
  have hp := hf.resolutions r hr
  rw [hk] at hp
  cases hp

/-- A new row has no resolution. -/
theorem ResolvesCalls.unresolved_new (hr : ResolvesCalls s) :
    s.resolved .call (nextId (s.calls.map (·.id))) = false := by
  unfold Store.resolved
  rw [List.any_eq_false]
  intro r hmem hmatch
  obtain ⟨hk, hid⟩ : r.kind = .call ∧ r.itemId = nextId (s.calls.map (·.id)) := by
    simpa using hmatch
  obtain ⟨c, hc, hcid⟩ := hr r hmem hk
  exact nextId_not_mem _ (List.mem_map.mpr ⟨c, hc, hcid.trans hid⟩)

/-! ## One statement -/

/-- The open calls after an insertion: those before, and the new row. -/
theorem isOpen_addCall {n : NewCall} (hc : IsOpen (a.addCall n) c) :
    IsOpen a c ∨ c = insertedCall a n := by
  rcases List.mem_append.mp hc.mem with hmem | hmem
  · exact Or.inl ⟨hmem, hc.desk, hc.unresolved⟩
  · exact Or.inr (List.mem_singleton.mp hmem)

theorem IsOpen.addCall {n : NewCall} (hc : IsOpen a c) : IsOpen (a.addCall n) c :=
  ⟨List.mem_append_left _ hc.mem, hc.desk, hc.unresolved⟩

theorem isOpen_inserted {n : NewCall} (hr : ResolvesCalls a) (hn : n.origin ≠ .legacy) :
    IsOpen (a.addCall n) (insertedCall a n) :=
  ⟨List.mem_append_right _ (List.mem_singleton.mpr rfl), hn, hr.unresolved_new⟩

/-- A new call beside no open call of its name and direction. -/
theorem OneOpenCall.addCall {n : NewCall} (ho : OneOpenCall a)
    (hn : n.origin ≠ .legacy → a.openCall? n.symbol n.direction false = none) :
    OneOpenCall (a.addCall n) := by
  have halone : ∀ c, IsOpen a c → IsOpen (a.addCall n) (insertedCall a n) →
      c.symbol = n.symbol → c.direction = n.direction → False := fun c hc hnew hsym hdir =>
    openCall?_none_iff.mp (hn hnew.desk) c hc hsym hdir
  intro c d hc hd hsym hdir
  rcases isOpen_addCall hc with hc' | rfl <;> rcases isOpen_addCall hd with hd' | rfl
  · exact ho c d hc' hd' hsym hdir
  · exact (halone c hc' hd hsym hdir).elim
  · exact (halone d hd' hc hsym.symm hdir.symm).elim
  · rfl

theorem OneOpenCall.of_same (ho : OneOpenCall a) (hcalls : b.calls = a.calls)
    (hres : ∀ i, b.resolved .call i = false → a.resolved .call i = false) : OneOpenCall b :=
  fun c d hc hd => ho c d ⟨hcalls ▸ hc.mem, hc.desk, hres _ hc.unresolved⟩
    ⟨hcalls ▸ hd.mem, hd.desk, hres _ hd.unresolved⟩

/-- **One statement keeps one open call a name and direction**, if an
extension it inserts finds none. -/
theorem DeskWrite.oneOpenCall (hdw : DeskWrite cfg op h a b) (ho : OneOpenCall a)
    (hc : ExtendsAlone a b) : OneOpenCall b := by
  cases hdw with
  | call c hnew => exact ho.addCall hnew.alone
  | extension old t i last spy bench =>
    exact ho.addCall fun _ => hc _ (fun hne => by cases hne) rfl
  | resolve r _ _ =>
    refine ho.of_same rfl fun i hi => ?_
    -- what is unresolved after a resolution was unresolved before
    unfold Store.resolved Store.withResolution at hi
    rw [List.any_append] at hi
    exact (Bool.or_eq_false_iff.mp hi).1
  | proposal | tighten | exitRequest | posted | dropped | buy | filled | mark | sell | exitDone =>
    exact ho.of_same rfl fun _ hi => hi

/-- An extension that keeps one open call found none. -/
theorem DeskWrite.extendsAlone (hdw : DeskWrite cfg op h a b) (hr : ResolvesCalls a)
    (ho : OneOpenCall b) : ExtendsAlone a b := by
  intro c hext hb
  obtain ⟨i, hi⟩ := Option.ne_none_iff_exists'.mp hext
  obtain ⟨_, _, _, _, _, horigin⟩ := hdw.extended hi hb
  have hdesk : c.origin ≠ .legacy := fun hl => by
    rw [hl] at horigin
    cases horigin
  rw [openCall?_none_iff]
  intro d hd hsym hdir
  have hnew := isOpen_inserted hr hdesk
  have heq := ho d (insertedCall a c) (hb ▸ hd.addCall) (hb ▸ hnew) hsym hdir
  exact nextId_not_mem _ (List.mem_map.mpr ⟨d, hd.mem, congrArg Call.id heq⟩)

/-! ## Runs -/

theorem Fresh.oneOpenCall (hf : Fresh s) : OneOpenCall s := fun c d hc => by
  have := hc.mem
  rw [hf.calls] at this
  cases this

/-- **When there is one open call a name and direction.** Along a run from
an empty ledger no two desk calls on one name and direction are ever both
unresolved exactly if no extension is inserted while a call on its name
and direction is open. -/
theorem oneOpenCall_iff (hrun : Run cfg Adm init log s) (hf : Fresh init) :
    Throughout OneOpenCall log s ↔ EveryWrite ExtendsAlone log := by
  have hres := (hrun.throughout (J := ResolvesCalls) hf.sound hf.resolvesCalls
    (fun _ _ _ _ _ _ hr hdw => hdw.resolvesCalls hr)
    fun _ _ hr hw => by
      obtain ⟨_, _, _, _, _, rfl⟩ := hw
      exact hr).2
  constructor
  · intro hall e he a b hmem
    obtain ⟨h, _, _, _, _, hdw⟩ := hrun.wrote hf.sound e he a b hmem
    exact hdw.extendsAlone (hres e he a b hmem).1 (hall.2 e he a b hmem).2
  · intro hc
    exact hrun.along (C := fun _ => ExtendsAlone) hf.sound hf.oneOpenCall
      (fun _ _ _ _ _ _ ho hdw hc => hdw.oneOpenCall ho hc)
      (fun _ _ ho hw => by
        obtain ⟨_, _, _, _, _, rfl⟩ := hw
        exact ho.of_same rfl fun _ hi => hi)
      hc

/-- The call is resolved at its horizon, another is made on the name, and
the first is extended. -/
def extendingBeside : Store :=
  Script.play deskSettings [scoreAt 57 0, submitAt 58 0 "47" 4 .none, extendAt 58 5 1 "47"]
    (twoDaysOn (buying.play deskSettings openingStore))

theorem extendingBeside_run : ∃ log, Run deskSettings AnyAnswer openingStore log extendingBeside := by
  obtain ⟨log, hrun, _⟩ := buying.goes_on opening_run
  obtain ⟨log', hrun', _⟩ := Script.goes_on
    [scoreAt 57 0, submitAt 58 0 "47" 4 .none, extendAt 58 5 1 "47"] (hrun.world twoDaysOn_world)
  exact ⟨log', hrun'⟩

/-- Two calls up on AAA are open. -/
theorem two_open_calls : ¬ ∀ cfg Adm init log s, Run cfg Adm init log s → Fresh init → OneOpenCall s := by
  intro hall
  obtain ⟨log, hrun⟩ := extendingBeside_run
  have hone := hall _ _ _ _ _ hrun openingStore_fresh
  have hsame : ∀ c ∈ extendingBeside.calls, ∀ d ∈ extendingBeside.calls,
      c.origin ≠ .legacy ∧ d.origin ≠ .legacy ∧ extendingBeside.resolved .call c.id = false ∧
        extendingBeside.resolved .call d.id = false ∧ c.symbol = d.symbol ∧
        c.direction = d.direction → c.id = d.id := fun c hc d hd ⟨hco, hdo, hcr, hdr, hsym, hdir⟩ =>
    congrArg Call.id (hone c d ⟨hc, hco, hcr⟩ ⟨hd, hdo, hdr⟩ hsym hdir)
  revert hsame
  decide +kernel

/-- Before the second call was made there was one. -/
theorem oneOpenCall_iff_buying : ∃ log s, Run deskSettings AnyAnswer openingStore log s ∧
    s.calls.length = 1 ∧ (Throughout OneOpenCall log s ↔ EveryWrite ExtendsAlone log) := by
  obtain ⟨log, hrun, _⟩ := buying.goes_on opening_run
  exact ⟨log, _, hrun, by decide +kernel, oneOpenCall_iff hrun openingStore_fresh⟩

end TradeDesk.Desk
