import TradeDesk.Desk.OpenCalls
import TradeDesk.Desk.Solvency

/-!
# Submissions in progress together

A submission counts the day's calls, looks for an open one and prices the
book over many awaits, and only then writes. Nothing holds the others off
in the meantime, so what two requests have both checked need not be so
when the second writes: both may insert the day's last call, or a call on
the same name.

Requests whose steps keep `Apart` do leave what some order of them would,
by the general `Trace.serial_idle`; and one after another, each finds true
what the gates of the one before left true (`GatesHold`).
-/

namespace TradeDesk.Desk

open TradeDesk.Async

variable {cfg : Settings} {op : Op} {Adm : ∀ q, Answer q → Prop} {h : History} {a b s : Store}
variable {now : Instant} {cin : CallIn} {acts : List DeskAct} {pool : DeskPool} {init : Store}
variable {C : DeskAct → DeskPool → Prop}

/-- What the gates of a submission look after. -/
structure GatesHold (cfg : Settings) (s : Store) : Prop where
  oneOpen : OneOpenCall s
  dailyCap : ∀ cap, cfg.rules.getInt .strategy "desk_max_new_calls_per_day" = .ok cap →
    ∀ day, (s.callsMadeOn day : ℤ) ≤ cap
  reserve : ∀ E, s.paperBook = some E →
    cfg.reserve ≤ s.cash E - (s.committed.map (·.worstCase)).sum
  room : ∀ cap, cfg.rules.getInt .strategy "max_funded_positions" = .ok cap →
    ((s.openPositions.length + s.committed.length : ℕ) : ℤ) ≤ cap

/-- Submissions, none of them stopped, and nobody else. -/
def Requests : DeskAct → DeskPool → Prop
  | .start o, _ => ∃ now cin, o = .submitCall now cin
  | .stop _, _ | .env, _ => False
  | .step _ _, _ | .leave _, _ => True

/-! ## One submission -/

theorem callsMadeOn_addCall (c : NewCall) (day : Date) :
    (a.addCall c).callsMadeOn day = a.callsMadeOn day +
      if c.session = day ∧ c.origin ≠ .legacy ∧ c.extendsCallId = none then 1 else 0 := by
  unfold Store.callsMadeOn Store.addCall
  rw [List.countP_append, List.countP_singleton]
  congr 1
  by_cases hc : c.session = day ∧ c.origin ≠ .legacy ∧ c.extendsCallId = none
  · obtain ⟨hday, horigin, hext⟩ := hc
    simp [hday, horigin, hext]
  · rw [if_neg hc, if_neg]
    simpa [and_assoc] using hc

/-- A call that passed the gates is within the day's cap. -/
theorem NewCallOk.dailyCap {c : NewCall} (hc : NewCallOk cfg now cin a c) {cap : ℤ}
    (hcap : cfg.rules.getInt .strategy "desk_max_new_calls_per_day" = .ok cap) {day : Date}
    (hle : (a.callsMadeOn day : ℤ) ≤ cap) : ((a.addCall c).callsMadeOn day : ℤ) ≤ cap := by
  rw [callsMadeOn_addCall]
  split
  next hnew =>
    obtain ⟨rfl, horigin, _⟩ := hnew
    obtain ⟨cap', hcap', hlt⟩ := hc.cap horigin
    obtain rfl := Except.ok.inj (hcap'.symm.trans hcap)
    push_cast
    omega
  · push_cast
    omega

/-- **A submission leaves true what its gates look after.** -/
theorem DeskWrite.gatesHold (hdw : DeskWrite cfg (.submitCall now cin) h a b) (hw : WF a)
    (hg : GatesHold cfg a) : GatesHold cfg b := by
  cases hdw with
  | call c hnew =>
    have hab : Alike a (a.addCall c) := ⟨rfl, rfl, rfl⟩
    refine ⟨hg.oneOpen.addCall hnew.alone, fun cap hcap day => hnew.dailyCap hcap
      (hg.dailyCap cap hcap day), fun E hE => ?_, fun cap hcap => ?_⟩
    · rw [hab.cash, hab.committed]
      exact hg.reserve E hE
    · rw [hab.openPositions, hab.committed]
      exact hg.room cap hcap
  | @proposal _ _ _ a₀ c plan _ _ hplan =>
    -- the book was judged without the call, which changes nothing in it
    have hab : Alike a₀ (a₀.addCall c) := ⟨rfl, rfl, rfl⟩
    have hq : 0 < plan.quantity := by have := hplan.quantity; omega
    refine ⟨hg.oneOpen.of_same rfl fun _ hi => hi, hg.dailyCap, fun E hE => ?_,
      fun cap hcap => ?_⟩
    · obtain ⟨_, hres⟩ := hplan.pledge (E := E) hE
      show cfg.reserve ≤ Store.cash _ E - Store.committedCost _
      rw [cash_addProposal hw, committedCost_addProposal hw, hab.cash, hab.committedCost,
        ← sub_sub]
      exact hres
    · obtain ⟨book, _, hbook, _⟩ := hplan.book
      obtain ⟨E, hE, _⟩ := bookState_ok hbook
      obtain ⟨⟨cap', hcap', hroom⟩, _⟩ := hplan.pledge hE
      obtain rfl := Except.ok.inj (hcap'.symm.trans hcap)
      show ((Store.slots _ : ℕ) : ℤ) ≤ cap'
      rw [slots_addProposal hw hq, hab.slots]
      push_cast
      omega
  | dropped p o hmay => cases hmay

/-! ## Runs -/

theorem requests_started (ht : DeskTrace cfg Adm C init acts pool)
    (hC : ∀ a pool, C a pool → Requests a pool) :
    ∀ o ∈ started acts, ∃ now cin, o = .submitCall now cin := by
  induction ht with
  | idle => exact fun o ho => by cases ho
  | @move acts p q a _ hc hmove ih =>
    have hreq := hC _ _ hc
    cases hmove with
    | start o s ts =>
      intro o' ho'
      rcases List.mem_cons.mp ho' with rfl | ho'
      · exact hreq
      · exact ih o' ho'
    | step | leave | stop | env => exact ih

/-- Submissions one after another keep what their gates look after. -/
theorem serial_gatesHold {order : List Op} (hserial : Serial (Op.prog cfg) Adm order init s)
    (hreq : ∀ o ∈ order, ∃ now cin, o = .submitCall now cin) (hs : Sound init)
    (hg : GatesHold cfg init) : GatesHold cfg s := by
  refine (hserial.keeps (I := fun s => Sound s ∧ GatesHold cfg s) (fun o ho a r h b hI hruns => ?_)
    ⟨hs, hg⟩).2
  obtain ⟨now, cin, rfl⟩ := hreq o ho
  exact (Op.keeping hI.1 hI.2 fun _ _ _ _ hw hg hdw => hdw.gatesHold hw hg).runs hruns

/-- **When submissions are serialisable.** Requests none of which steps
while another has written and not ended, nor writes while another has
begun and not ended, leave together what running them one after another in
some order leaves; and what the gates look after still holds. -/
theorem submitCall_serialisable
    (ht : DeskTrace cfg Adm (fun a pool => Requests a pool ∧ Apart (Op.prog cfg) a pool) init acts
      pool) (hs : Sound init) (hidle : pool.tasks = []) :
    (∃ order, order.Perm (started acts) ∧ Serial (Op.prog cfg) Adm order init pool.store) ∧
      (GatesHold cfg init → GatesHold cfg pool.store) := by
  obtain ⟨order, hperm, hserial⟩ := ht.serial_idle (fun _ _ hc => hc.2) hidle
  exact ⟨⟨order, hperm, hserial⟩, serial_gatesHold hserial
    (fun o ho => requests_started ht (fun _ _ hc => hc.1) o (hperm.mem_iff.mp ho)) hs⟩

/-- A request that has read all it needs, another request run meanwhile,
and the first run on from there. -/
def requestOp : Op := (submitAt 9 50 "47" 2 .none).1

def readSoFar : Config Store Query Answer Exc Unit :=
  advance (quoting (fromMonday 9 50) 50) 5 ⟨requestOp.prog deskSettings, [], openingStore⟩

def ranMeanwhile : Config Store Query Answer Exc Unit :=
  runWith (quoting (fromMonday 9 50) 50) (requestOp.prog deskSettings) [] readSoFar.store

def ranOn : Config Store Query Answer Exc Unit :=
  runWith (quoting (fromMonday 9 50) 50) readSoFar.prog readSoFar.hist ranMeanwhile.store

theorem ranOn_trace : ∃ acts, DeskTrace deskSettings AnyAnswer Requests openingStore acts
    ⟨ranOn.store, []⟩ := by
  have hω : ∀ q, AnyAnswer q (quoting (fromMonday 9 50) 50 q) := fun _ => trivial
  have hstart : ∀ pool, Requests (.start requestOp) pool := fun _ => ⟨_, _, rfl⟩
  have hstep : ∀ others (u : Task Op Store Query Answer Exc Unit) pool, u.tag = requestOp →
      Requests (.step u others) pool := fun _ _ _ _ => trivial
  have hidle : DeskTrace deskSettings AnyAnswer Requests openingStore [] ⟨openingStore, []⟩ := .idle
  have h₁ := hidle.move (hstart _) (.start requestOp openingStore [])
  have h₂ := h₁.move (hstart _) (.start requestOp openingStore [⟨requestOp, _, []⟩])
  obtain ⟨_, _, h₃⟩ := h₂.steps_first (hstep _) (advance_steps hω 5 _)
  obtain ⟨_, _, h₄⟩ := h₃.steps_second (hstep _) (runWith_steps hω _ [] readSoFar.store)
  obtain ⟨_, _, h₅⟩ := h₄.steps_first (hstep _)
    (runWith_steps hω readSoFar.prog readSoFar.hist ranMeanwhile.store)
  have hended : ∀ c : Config Store Query Answer Exc Unit, c = ranOn ∨ c = ranMeanwhile →
      (Task.at_ requestOp c).ended = true := by
    rintro c (rfl | rfl)
    · obtain ⟨r, hr⟩ := runWith_ended (quoting (fromMonday 9 50) 50) readSoFar.prog readSoFar.hist
        ranMeanwhile.store
      exact Option.isSome_of_eq_some hr
    · obtain ⟨r, hr⟩ := runWith_ended (quoting (fromMonday 9 50) 50)
        (requestOp.prog deskSettings) [] readSoFar.store
      exact Option.isSome_of_eq_some hr
  have h₆ := h₅.move (a := .leave (.at_ requestOp ranOn)) trivial
    (.leave [] [.at_ requestOp ranMeanwhile] (hended _ (Or.inl rfl)))
  have h₇ := h₆.move (a := .leave (.at_ requestOp ranMeanwhile)) trivial
    (.leave [] [] (hended _ (Or.inr rfl)))
  exact ⟨_, h₇⟩

/-- The gates hold of the ledger both requests start from. -/
theorem openingStore_gatesHold : GatesHold deskSettings openingStore where
  oneOpen c _ hc _ _ _ := absurd hc.mem (by rw [openingStore_fresh.calls]; exact List.not_mem_nil)
  dailyCap cap hcap day := by
    have hread : rulesYml.getInt .strategy "desk_max_new_calls_per_day" = .ok 5 := by decide +kernel
    obtain rfl := Except.ok.inj (hread.symm.trans hcap)
    show ((0 : ℕ) : ℤ) ≤ 5
    decide
  reserve E hE := by
    obtain rfl : (10000 : ℚ) = E := Option.some.inj hE
    decide +kernel
  room cap hcap := by
    have hread : rulesYml.getInt .strategy "max_funded_positions" = .ok 8 := by decide +kernel
    obtain rfl := Except.ok.inj (hread.symm.trans hcap)
    decide +kernel

/-- Two requests for the same call, each of which looked before the other
wrote, leave two open calls: no order of them does. -/
theorem two_requests_both_in : ¬ ∀ cfg Adm init acts pool,
    DeskTrace cfg Adm Requests init acts pool → Sound init → pool.tasks = [] →
    ∃ order, order.Perm (started acts) ∧ Serial (Op.prog cfg) Adm order init pool.store := by
  intro hall
  obtain ⟨acts, htrace⟩ := ranOn_trace
  obtain ⟨order, hperm, hserial⟩ := hall _ _ _ _ _ htrace openingStore_fresh.sound rfl
  have hone := (serial_gatesHold hserial
    (fun o ho => requests_started htrace (fun _ _ hc => hc) o (hperm.mem_iff.mp ho))
    openingStore_fresh.sound openingStore_gatesHold).oneOpen
  have hsame : ∀ c ∈ ranOn.store.calls, ∀ d ∈ ranOn.store.calls,
      c.origin ≠ .legacy ∧ d.origin ≠ .legacy ∧ ranOn.store.resolved .call c.id = false ∧
        ranOn.store.resolved .call d.id = false ∧ c.symbol = d.symbol ∧
        c.direction = d.direction → c.id = d.id := fun c hc d hd ⟨hco, hdo, hcr, hdr, hsym, hdir⟩ =>
    congrArg Call.id (hone c d ⟨hc, hco, hcr⟩ ⟨hd, hdo, hdr⟩ hsym hdir)
  revert hsame
  decide +kernel

/-- One after the other, the second is refused. -/
theorem submitCall_serialisable_twice : ∃ acts pool,
    DeskTrace deskSettings AnyAnswer
      (fun a pool => Requests a pool ∧ Apart (Op.prog deskSettings) a pool) openingStore acts pool ∧
    pool.store.calls.length = 1 ∧
    (∃ order, order.Perm (started acts) ∧
      Serial (Op.prog deskSettings) AnyAnswer order openingStore pool.store) ∧
    (GatesHold deskSettings openingStore → GatesHold deskSettings pool.store) := by
  have hω : ∀ q, AnyAnswer q (quoting (fromMonday 9 50) 50 q) := fun _ => trivial
  have hstart : ∀ pool, Requests (.start requestOp) pool ∧
      Apart (Op.prog deskSettings) (.start requestOp) pool := fun _ => ⟨⟨_, _, rfl⟩, trivial⟩
  have hstep : ∀ (u : Task Op Store Query Answer Exc Unit) pool, u.tag = requestOp →
      Requests (.step u []) pool ∧ Apart (Op.prog deskSettings) (.step u []) pool :=
    fun _ _ _ => ⟨trivial, fun v hv => by cases hv⟩
  have hidle : DeskTrace deskSettings AnyAnswer
      (fun a pool => Requests a pool ∧ Apart (Op.prog deskSettings) a pool) openingStore []
      ⟨openingStore, []⟩ := .idle
  obtain ⟨_, _, h₁⟩ := hidle.whole hω (hstart _) hstep fun _ => ⟨trivial, trivial⟩
  obtain ⟨_, _, h₂⟩ := h₁.whole hω (hstart _) hstep fun _ => ⟨trivial, trivial⟩
  obtain ⟨horder, hgates⟩ := submitCall_serialisable h₂ openingStore_fresh.sound rfl
  exact ⟨_, _, h₂, by decide +kernel, horder, hgates⟩

end TradeDesk.Desk
