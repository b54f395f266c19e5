import TradeDesk.Desk.Bars
import TradeDesk.Desk.FirstTouch

/-!
# The table of bars

What `upsert_bars` leaves of the `bars` table. The table stays in
primary-key order (`RowsOrdered.upsertBar`), so a symbol's series has one
bar a date, in order (`RowsOrdered.dated`); a date once stored stays
stored, with whatever bar came last (`stored_upsertBars`).

`refresh_bars` is a loop of such upserts, and `always_fetchBars` is its
rule: an invariant of the symbols still to fetch, with one obligation for
each thing the broker can answer.
-/

namespace TradeDesk

/-- The primary key is the symbol and the date. -/
def RowBefore (a b : String × DailyBar) : Prop := a.1 < b.1 ∨ a.1 = b.1 ∧ a.2.date < b.2.date

theorem RowBefore.trans {a b c : String × DailyBar} (h : RowBefore a b) (h' : RowBefore b c) :
    RowBefore a c := by
  rcases h with h | ⟨hsym, hdate⟩
  · rcases h' with h' | ⟨hsym', _⟩
    · exact .inl (String.lt_trans h h')
    · exact .inl (hsym' ▸ h)
  · rcases h' with h' | ⟨hsym', hdate'⟩
    · exact .inl (hsym ▸ h')
    · exact .inr ⟨hsym.trans hsym', lt_trans hdate hdate'⟩

/-- In primary-key order. -/
def RowsOrdered (rows : List (String × DailyBar)) : Prop := rows.Pairwise RowBefore

/-- The table has a bar of the symbol on the date. -/
def Stored (rows : List (String × DailyBar)) (symbol : String) (d : Date) : Prop :=
  ∃ b, (symbol, b) ∈ rows ∧ b.date = d

theorem stored_iff {rows : List (String × DailyBar)} {symbol : String} {d : Date} :
    (rows.any fun row => row.1 == symbol && row.2.date == d) = true ↔ Stored rows symbol d := by
  unfold Stored
  simp only [List.any_eq_true, Bool.and_eq_true, beq_iff_eq]
  constructor
  · rintro ⟨row, hrow, rfl, hdate⟩
    exact ⟨row.2, hrow, hdate⟩
  · rintro ⟨b, hb, hdate⟩
    exact ⟨(symbol, b), hb, rfl, hdate⟩

instance (rows : List (String × DailyBar)) (symbol : String) (d : Date) :
    Decidable (Stored rows symbol d) := decidable_of_iff _ stored_iff

namespace Store

/-! ## One row -/

section

variable {symbol : String} {bar : DailyBar} {rows : List (String × DailyBar)}

theorem mem_upsertBar {row : String × DailyBar} (h : row ∈ upsertBar symbol bar rows) :
    row = (symbol, bar) ∨ row ∈ rows := by
  induction rows with
  | nil => exact .inl (List.mem_singleton.mp h)
  | cons r rows ih =>
    unfold upsertBar at h
    split at h
    · rcases List.mem_cons.mp h with rfl | h
      · exact .inl rfl
      · exact .inr (List.mem_cons_of_mem r h)
    · split at h
      · rcases List.mem_cons.mp h with rfl | h
        · exact .inr List.mem_cons_self
        · exact (ih h).imp_right (List.mem_cons_of_mem r)
      · rcases List.mem_cons.mp h with rfl | h
        · exact .inl rfl
        · exact .inr h

theorem upsertBar_mem : (symbol, bar) ∈ upsertBar symbol bar rows := by
  induction rows with
  | nil => exact List.mem_singleton.mpr rfl
  | cons r rows ih =>
    unfold upsertBar
    split
    · exact List.mem_cons_self
    · split
      · exact List.mem_cons_of_mem r ih
      · exact List.mem_cons_self

/-- A row is kept unless it is the one replaced. -/
theorem upsertBar_kept {row : String × DailyBar} (h : row ∈ rows) :
    row ∈ upsertBar symbol bar rows ∨ row.1 = symbol ∧ row.2.date = bar.date := by
  induction rows with
  | nil => cases h
  | cons r rows ih =>
    unfold upsertBar
    split
    next hkey =>
      rcases List.mem_cons.mp h with rfl | h
      · exact .inr hkey
      · exact .inl (List.mem_cons_of_mem _ h)
    · split
      · rcases List.mem_cons.mp h with rfl | h
        · exact .inl List.mem_cons_self
        · exact (ih h).imp_left (List.mem_cons_of_mem r)
      · exact .inl (List.mem_cons_of_mem _ h)

/-- The dates stored are those stored before, and the bar's. -/
theorem stored_upsertBar {x : String} {d : Date} : Stored (upsertBar symbol bar rows) x d ↔
    Stored rows x d ∨ x = symbol ∧ bar.date = d := by
  constructor
  · rintro ⟨b, hb, hdate⟩
    rcases mem_upsertBar hb with heq | hb
    · obtain ⟨rfl, rfl⟩ := Prod.mk.inj heq
      exact .inr ⟨rfl, hdate⟩
    · exact .inl ⟨b, hb, hdate⟩
  · rintro (⟨b, hb, hdate⟩ | ⟨rfl, hdate⟩)
    · rcases @upsertBar_kept symbol bar _ _ hb with hb | ⟨hsym, hkey⟩
      · exact ⟨b, hb, hdate⟩
      · obtain rfl : x = symbol := hsym
        exact ⟨bar, upsertBar_mem, hkey.symm.trans hdate⟩
    · exact ⟨bar, upsertBar_mem, hdate⟩

end

end Store

namespace RowsOrdered

section

variable {symbol : String} {bar : DailyBar} {rows : List (String × DailyBar)}

/-- What is neither the row nor before it is after it. -/
theorem before_of_not {row : String × DailyBar} (hkey : ¬(row.1 = symbol ∧ row.2.date = bar.date))
    (hbefore : ¬(row.1 < symbol ∨ row.1 = symbol ∧ row.2.date < bar.date)) :
    RowBefore (symbol, bar) row := by
  push Not at hbefore
  by_cases hsym : symbol = row.1
  · refine .inr ⟨hsym, lt_of_le_of_ne (hbefore.2 hsym.symm) fun hdate => hkey ⟨hsym.symm, hdate.symm⟩⟩
  · refine .inl (String.not_le.mp fun hle => hsym ?_)
    exact String.le_antisymm hbefore.1 hle

/-- **The table stays in order.** -/
theorem upsertBar (h : RowsOrdered rows) : RowsOrdered (Store.upsertBar symbol bar rows) := by
  induction rows with
  | nil => exact List.pairwise_singleton _ _
  | cons r rows ih =>
    obtain ⟨hr, hrows⟩ := List.pairwise_cons.mp h
    unfold Store.upsertBar
    split
    next hkey =>
      refine List.pairwise_cons.mpr ⟨fun x hx => ?_, hrows⟩
      -- the new row has the key of the one it replaces
      rcases hr x hx with hlt | ⟨hsym, hdate⟩
      · exact .inl (hkey.1 ▸ hlt)
      · exact .inr ⟨hkey.1.symm.trans hsym, hkey.2 ▸ hdate⟩
    next hkey =>
      split
      next hbefore =>
        refine List.pairwise_cons.mpr ⟨fun x hx => ?_, ih hrows⟩
        rcases Store.mem_upsertBar hx with rfl | hx
        · exact hbefore
        · exact hr x hx
      next hbefore =>
        have hfirst : RowBefore (symbol, bar) r := before_of_not hkey hbefore
        refine List.pairwise_cons.mpr ⟨fun x hx => ?_, h⟩
        rcases List.mem_cons.mp hx with rfl | hx
        · exact hfirst
        · exact hfirst.trans (hr x hx)

/-- A symbol's bars are one a date, in order. -/
theorem dated {s : Store} (h : RowsOrdered s.bars) (symbol : String) (since : Option Date) :
    Desk.Dated (s.barsFor symbol since none) := by
  constructor
  unfold Store.barsFor
  dsimp only
  rw [List.map_map, List.pairwise_map]
  refine List.Pairwise.imp_of_mem (fun {a b} ha hb hab => ?_) (List.Pairwise.filter _ h)
  obtain ⟨-, ha⟩ := List.mem_filter.mp ha
  obtain ⟨-, hb⟩ := List.mem_filter.mp hb
  rw [Bool.and_eq_true, beq_iff_eq] at ha hb
  rcases hab with hlt | ⟨-, hdate⟩
  · rw [ha.1, hb.1] at hlt
    exact absurd hlt (String.lt_irrefl _)
  · exact hdate

end

end RowsOrdered

namespace Store

/-! ## A symbol's bars -/

section

variable {s : Store} {symbol : String} {bars : List DailyBar}

/-- What `upsert_bars` has of the table. -/
theorem mem_upsertBars {row : String × DailyBar} (h : row ∈ (s.upsertBars symbol bars).bars) :
    (∃ b ∈ bars, row = (symbol, b)) ∨ row ∈ s.bars := by
  unfold upsertBars at h
  dsimp only at h
  generalize s.bars = rows at h
  induction bars generalizing rows with
  | nil => exact .inr h
  | cons b bars ih =>
    rcases ih _ h with ⟨b', hb', hrow⟩ | hmem
    · exact .inl ⟨b', List.mem_cons_of_mem b hb', hrow⟩
    · rcases mem_upsertBar hmem with hrow | hmem
      · exact .inl ⟨b, List.mem_cons_self, hrow⟩
      · exact .inr hmem

theorem stored_upsertBars {x : String} {d : Date} : Stored (s.upsertBars symbol bars).bars x d ↔
    Stored s.bars x d ∨ x = symbol ∧ ∃ b ∈ bars, b.date = d := by
  unfold upsertBars
  dsimp only
  generalize s.bars = rows
  induction bars generalizing rows with
  | nil => simp
  | cons b bars ih =>
    rw [List.foldl_cons, ih, stored_upsertBar, or_assoc, List.exists_mem_cons_iff, and_or_left]

theorem upsertBars_ordered (h : RowsOrdered s.bars) :
    RowsOrdered (s.upsertBars symbol bars).bars := by
  unfold upsertBars
  dsimp only
  generalize s.bars = rows at h ⊢
  induction bars generalizing rows with
  | nil => exact h
  | cons b bars ih => exact ih _ h.upsertBar

end

/-- A date is stored exactly if the series has a bar of it. -/
theorem hasBar_barsFor {s : Store} {symbol : String} {since d : Date} (hd : since ≤ d) :
    Desk.HasBar (s.barsFor symbol (some since) none) d ↔ Stored s.bars symbol d := by
  constructor
  · rintro ⟨b, hb, hdate⟩
    exact ⟨b, (mem_barsFor.mp hb).1, hdate⟩
  · rintro ⟨b, hb, hdate⟩
    exact ⟨b, mem_barsFor.mpr ⟨hb, hdate ▸ hd⟩, hdate⟩

end Store

namespace Desk

open TradeDesk.Async

/-! ## The evening's fetch -/

section

variable {Adm : ∀ q, Answer q → Prop} {G : History → Store → Store → Prop} {h : History} {s : Store}
  {feed : Feed} {days : String → ℕ}

/-- Where one turn of the fetch leads, by what the broker answered. -/
def FetchTurn (G : History → Store → Store → Prop) (I : List String → BarsReport → Store → Prop)
    (R : Except Exc BarsReport → Store → Prop) (sym : String) (rest : List String)
    (rep : BarsReport) (s : Store) : Except BrokerFault (List DailyBar) → Prop
  | .error .unauthorized => R (.ok { rep with blind := true }) s
  | .error .error => I rest { rep with failed := rep.failed ++ [sym] } s
  | .error .crashed => R (.error .crashed) s
  | .ok bars => (∀ h, G h s (s.upsertBars sym bars)) ∧
    I rest { rep with fetched := rep.fetched + 1 } (s.upsertBars sym bars)

/-- **The fetch**, as a rule: an invariant of the symbols still to fetch,
kept by each turn. -/
theorem always_fetchBars {I : List String → BarsReport → Store → Prop}
    {R : Except Exc BarsReport → Store → Prop}
    (hturn : ∀ sym rest rep s, I (sym :: rest) rep s →
      FetchTurn G I R sym rest rep s (feed sym (days sym)))
    (hdone : ∀ rep s, I [] rep s → R (.ok rep) s) (syms : List String) (rep : BarsReport)
    (hI : I syms rep s) :
    Always Adm G (fun r _ s' => R r s') (fetchBars feed days syms rep) h s := by
  induction syms generalizing rep h s with
  | nil => exact hdone rep s hI
  | cons sym rest ih =>
    have hnext := hturn sym rest rep s hI
    unfold fetchBars
    cases hfeed : feed sym (days sym) with
    | error fault =>
      rw [hfeed] at hnext
      cases fault with
      | unauthorized => exact hnext
      | error => exact ih _ hnext
      | crashed => exact hnext
    | ok bars =>
      rw [hfeed] at hnext
      exact always_update_bind (hnext.1 h) (ih _ hnext.2)

end

end Desk

end TradeDesk
