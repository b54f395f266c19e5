import TradeDesk.Desk.Effects

/-!
# Prices stay on the right side of zero

Levels are parsed as positive decimals and an entry is filled at a
positive ask, whatever the broker answers (`Priced`). A limit may instead
be a chase above a quoted ask, and a sale may be at a quoted bid, so those
are non-negative as far as the quotes are and as far as a chase does not
go below the ask by more than all of it (`Limits`, `SaleAt.nonneg`).
-/

namespace TradeDesk.Desk

open TradeDesk.Async

variable {cfg : Settings} {op : Op} {Adm : ∀ q, Answer q → Prop} {h : History} {a b s : Store}
variable {init : Store} {log : List Entry}

structure Priced (s : Store) : Prop where
  calls : ∀ c ∈ s.calls, 0 < c.invalidation
  tightenings : ∀ t ∈ s.callTightenings, 0 < t.invalidation
  buys : ∀ f ∈ s.paperFills, f.side = .buy → 0 < f.price

theorem Priced.of_same (hp : Priced a) (hcalls : b.calls = a.calls)
    (htight : b.callTightenings = a.callTightenings) (hfills : b.paperFills = a.paperFills) :
    Priced b :=
  ⟨hcalls ▸ hp.calls, htight ▸ hp.tightenings, hfills ▸ hp.buys⟩

theorem Priced.addCall {c : NewCall} (hp : Priced a) (hc : 0 < c.invalidation) :
    Priced (a.addCall c) := by
  refine ⟨fun d hd => ?_, hp.tightenings, hp.buys⟩
  rcases List.mem_append.mp hd with hd | hd
  · exact hp.calls d hd
  · rw [List.mem_singleton.mp hd]
    exact hc

theorem Priced.addFill {f : PaperFill} (hp : Priced a) (hf : f.side = .buy → 0 < f.price) :
    Priced (a.addFill f) := by
  refine ⟨hp.calls, hp.tightenings, fun g hg => ?_⟩
  rcases List.mem_append.mp hg with hg | hg
  · exact hp.buys g hg
  · rw [List.mem_singleton.mp hg]
    exact hf

theorem DeskWrite.priced (hw : DeskWrite cfg op h a b) (hp : Priced a) : Priced b := by
  cases hw with
  | call c hc => exact hp.addCall hc.invalidation
  | extension old t i last spy bench _ _ _ _ _ _ _ _ hi _ => exact hp.addCall hi
  | tighten call new last _ _ _ _ _ hnew _ =>
    refine ⟨hp.calls, fun t ht => ?_, hp.buys⟩
    rcases List.mem_append.mp ht with ht | ht
    · exact hp.tightenings t ht
    · rw [List.mem_singleton.mp ht]
      exact hnew
  | buy p ask stop _ _ hok => exact hp.addFill fun _ => hok.positive
  | sell p e price reason _ _ _ => exact hp.addFill fun hc => by cases hc
  | proposal | exitRequest | posted | dropped | filled | mark | exitDone | resolve =>
    exact hp.of_same rfl rfl rfl

theorem World.priced (hw : World a b) (hp : Priced a) : Priced b := by
  obtain ⟨_, _, _, _, _, rfl⟩ := hw
  exact hp.of_same rfl rfl rfl

theorem Fresh.priced (hf : Fresh s) : Priced s := by
  refine ⟨?_, ?_, ?_⟩
  · rw [hf.calls]
    exact fun c hc => by cases hc
  · rw [hf.tightenings]
    exact fun c hc => by cases hc
  · rw [hf.fills]
    exact fun c hc => by cases hc

theorem Run.priced (hrun : Run cfg Adm init log s) (hf : Fresh init) : Priced s :=
  hrun.keeps hf.sound hf.priced (fun _ _ _ _ _ _ hp hw => hw.priced hp) fun _ _ hp hw =>
    hw.priced hp

/-- The level in effect is positive. -/
theorem Priced.effective (hp : Priced s) {c : Call} (hc : c ∈ s.calls) : 0 < s.effective c := by
  unfold Store.effective
  split
  · exact hp.calls c hc
  next t ht =>
    exact hp.tightenings t (List.mem_filter.mp (List.mem_of_getLast? ht)).1

/-! ## Prices that come from quotes -/

theorem ReadQuotes.nonneg {quotes : Quotes} {symbol : String} {q : Quote}
    (hr : ReadQuotes h quotes) (ht : Told NonNegQuotes h) (hq : quotes.get? symbol = some q) :
    0 ≤ q.last ∧ 0 ≤ q.bid ∧ 0 ≤ q.ask := by
  obtain ⟨symbols, hmem⟩ := hr
  exact nonNeg_get? (ht (.quotes symbols) (.ok quotes) hmem) hq

/-- A chase below an ask by no more than all of it. -/
def ChaseOk (rules : Rules) : Prop :=
  ∀ chase, rules.get .strategy "max_entry_chase_pct" = .ok chase → -100 ≤ chase

theorem LimitFrom.nonneg {price : ℚ} (hl : LimitFrom cfg h price) (ht : Told NonNegQuotes h)
    (hc : ChaseOk cfg.rules) : 0 ≤ price := by
  rcases hl with hpos | ⟨quotes, symbol, q, chase, hread, hq, hchase, rfl⟩
  · exact le_of_lt hpos
  · have hask := (hread.nonneg ht hq).2.2
    have hch := hc chase hchase
    exact cents_nonneg (mul_nonneg hask (by linarith))

theorem SaleAt.nonneg {x : PaperPosition} {price : ℚ} (hs : SaleAt h a x price)
    (ht : Told NonNegQuotes h) (hp : Priced a) : 0 ≤ price := by
  rcases hs with ⟨quotes, t, hread, hq, rfl⟩ | ⟨call, hcall, rfl⟩
  · exact (hread.nonneg ht hq).2.1
  · exact le_trans (le_of_lt (ceilCents_pos (hp.effective hcall))) (le_max_right _ _)

/-- No limit is negative. -/
def Limits (s : Store) : Prop := ∀ p ∈ s.proposals, 0 ≤ p.maxEntryPrice

theorem DeskWrite.limits (hw : DeskWrite cfg op h a b) (hl : Limits a) (ht : Told NonNegQuotes h)
    (hc : ChaseOk cfg.rules) : Limits b := by
  cases hw with
  | @proposal now cin h a c plan _ _ hplan =>
    intro p hp
    rcases mem_addProposal.mp hp with hp | rfl
    · exact hl p hp
    · exact hplan.limit.nonneg ht hc
  | posted p veto mid _ _ _ _ =>
    intro q hq
    obtain ⟨r, hr, rfl⟩ := List.mem_map.mp hq
    exact le_of_le_of_eq (hl r hr) (stamp_same (·.maxEntryPrice) (fun _ _ _ _ => rfl) r).symm
  | call | extension | tighten | exitRequest | dropped | buy | filled | mark | sell | exitDone |
    resolve => exact hl

end TradeDesk.Desk
