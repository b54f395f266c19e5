import TradeDesk.Research.Escalations

/-!
# The ledger by symbol

The reader takes a symbol and then sees only the rows filed under it. For
that to be the part of the whole that is the symbol's, the scores of a raise
must be filed where the raise is, and a score is filed under the text before
the last four dashes of its id. The engine's own ids have the symbol there,
and so have the ones of the desk it was migrated from (`ownerOf_shape`); but
the importer takes any text for an id.

A score row says nothing but an outcome, so an entry is its raise's with the
last outcome the reader saw (`told`), and the two views of one raise differ
exactly where the whole has seen an outcome that the symbol has not.
-/

namespace TradeDesk.Research

open TradeDesk.Async TradeDesk.Lists

variable {rows : Escalations} {row r : EscalationRow} {f : Option String}

/-! ## What the view is to be -/

/-- The entries of the whole ledger whose raises are filed under a symbol. -/
def filedUnder (rows : Escalations) (symbol : String) : List Record :=
  ((entries rows none).items.filter fun e =>
    (raisesOf rows (some symbol)).any (·.id == e.1)).map (·.2)

/-- The view of a symbol is that part of the whole. -/
def Filtered (rows : Escalations) (symbol : String) : Prop :=
  escalations rows (some symbol) = filedUnder rows symbol

/-- The id names the symbol its raise is filed under. -/
def OwnId (row : EscalationRow) : Prop := row.kind = .raise → ownerOf row.id = row.symbol

/-! ## What the reader has of one raise -/

/-- The entry of a raise with the outcomes the reader sees: all of the id's,
or none. -/
def told (rows : Escalations) (f : Option String) (r : EscalationRow) : Record :=
  if f.all (· == ownerOf r.id) then match (existingScores rows r.id).getLast? with
    | none => entryOf r
    | some outcome => (entryOf r).set "latest_outcome" outcome
  else entryOf r

/-- The reader has what it was told. -/
def Told (rows : Escalations) : Prop :=
  ∀ f, ∀ r ∈ raisesOf rows f, (entries rows f).get? r.id = some (told rows f r)

/-- A row of another id, and a raise, change nothing of what is told. -/
theorem told_append (h : row.kind = .raise ∨ row.id ≠ r.id) :
    told (rows ++ [row]) f r = told rows f r := by
  have hsame : existingScores (rows ++ [row]) r.id = existingScores rows r.id := by
    rw [existingScores_append, if_neg]
    intro hscore
    rcases h with h | h
    · rw [h] at hscore
      cases hscore.1
    · exact h hscore.2
  unfold told
  rw [hsame]

/-- A score is told where its symbol is read. -/
theorem told_score (hk : row.kind = .score) (hid : row.id = r.id) :
    told (rows ++ [row]) f r = if f.all (· == ownerOf r.id) then
      (told rows f r).set "latest_outcome" ((row.record.get? "outcome").getD .null)
    else told rows f r := by
  have hmore : existingScores (rows ++ [row]) r.id =
      existingScores rows r.id ++ [(row.record.get? "outcome").getD .null] := by
    rw [existingScores_append, if_pos ⟨hk, hid⟩]
  unfold told
  rw [hmore, List.getLast?_append]
  by_cases hf : f.all (· == ownerOf r.id) = true
  · rw [if_pos hf, if_pos hf, if_pos hf]
    cases (existingScores rows r.id).getLast? with
    | none => rfl
    | some outcome => exact (Dict.set_set _).symm
  · rw [if_neg hf, if_neg hf, if_neg hf]

/-- A new raise has no outcome to tell. -/
theorem told_new (hl : Ledger rows) (hnew : raiseExists rows r.id = false) :
    told rows f r = entryOf r := by
  unfold told
  rw [hl.noScores hnew]
  split
  · rfl
  · rfl

/-- One row more: what the reader has is still what it was told. -/
theorem Told.add (hl : Ledger rows) (htold : Told rows) (hadds : Adds rows row) :
    Told (rows ++ [row]) := by
  intro f r hr
  cases hadds with
  | raise hk hnew =>
    rw [entries_raise_get? hk, told_append (.inl hk)]
    rw [raisesOf_append] at hr
    have hold : r ∈ raisesOf rows f → r.id ≠ row.id := by
      intro hr hid
      obtain ⟨hr, -, hraise⟩ := mem_raisesOf.mp hr
      rw [raiseExists_iff.mpr ⟨r, hr, hraise, hid⟩] at hnew
      cases hnew
    split at hr
    next hread =>
      rcases List.mem_append.mp hr with hr | hr
      · rw [if_neg fun h => hold hr h.2]
        exact htold f r hr
      · rw [List.mem_singleton.mp hr, if_pos ⟨hread.1, rfl⟩, told_new hl hnew]
    next =>
      rw [if_neg fun h => hold hr h.2]
      exact htold f r hr
  | score o hk hexists howner hout hrecord =>
    have hmem : r ∈ raisesOf rows f := by
      rw [raisesOf_append, if_neg (by rw [hk]; rintro ⟨-, h⟩; cases h)] at hr
      exact hr
    rw [entries_score_get? hk]
    by_cases hid : r.id = row.id
    · rw [told_score hk hid.symm, htold f r hmem, howner, hid]
      by_cases hf : f.all (· == ownerOf row.id) = true
      · rw [if_pos ⟨hf, rfl⟩, if_pos hf]
        rfl
      · rw [if_neg fun h => hf h.1, if_neg hf]
    · rw [told_append (.inr (Ne.symm hid)), if_neg fun h => hid h.2]
      exact htold f r hmem

/-! ## Every ledger -/

/-- What any rows keep. -/
structure Heard (rows : Escalations) : Prop where
  ledger : Ledger rows
  keyed : ∀ f, Keyed rows f
  told : Told rows

theorem Filed.heard {ok : Escalations → EscalationRow → Prop} (h : Filed ok rows) :
    Heard rows := by
  induction h with
  | start =>
    refine ⟨⟨List.nodup_nil, fun _ h => ?_⟩, fun _ => rfl, fun _ _ h => ?_⟩
    · cases h
    · cases h
  | file _ haccepts _ ih =>
    have hadds := accepts_cases haccepts
    exact ⟨ih.ledger.add hadds, fun f => (ih.keyed f).add hadds, ih.told.add ih.ledger hadds⟩

/-- The reader has the raises in order, each with what was told of it. -/
theorem items_told (h : Heard rows) (f : Option String) :
    (entries rows f).items = (raisesOf rows f).map fun r => (r.id, told rows f r) :=
  Dict.items_eq_map (h.keyed f) (h.told f)

theorem escalations_told (h : Heard rows) (f : Option String) :
    escalations rows f = (raisesOf rows f).map (told rows f) := by
  show (entries rows f).items.map (·.2) = _
  rw [items_told h, List.map_map]
  rfl

/-- The raises of a symbol are those of all whose ids a raise of it bears. -/
theorem raisesOf_some (h : Heard rows) (s : String) :
    ((raisesOf rows none).filter fun r => (raisesOf rows (some s)).any (·.id == r.id)) =
      raisesOf rows (some s) := by
  have hsymbol : raisesOf rows (some s) = (raisesOf rows none).filter (s == ·.symbol) := by
    unfold raisesOf rowsOf
    rw [List.filter_filter, List.filter_filter, List.filter_filter]
    refine List.filter_congr fun r _ => ?_
    simp [Bool.and_comm]
  refine Eq.trans (List.filter_congr fun r hr => ?_) hsymbol.symm
  obtain ⟨hmem, -, hraise⟩ := mem_raisesOf.mp hr
  rw [Bool.eq_iff_iff, List.any_eq_true]
  constructor
  · rintro ⟨r', hr', hid⟩
    obtain ⟨hmem', hs, hraise'⟩ := mem_raisesOf.mp hr'
    rw [h.ledger.raise_unique hmem hraise hmem' hraise' (by simpa using hid)] at hs
    simpa using hs
  · intro hs
    exact ⟨r, mem_raisesOf.mpr ⟨hmem, by simpa using hs, hraise⟩, by simp⟩

theorem filedUnder_told (h : Heard rows) (s : String) :
    filedUnder rows s = (raisesOf rows (some s)).map (told rows none) := by
  unfold filedUnder
  rw [items_told h, List.filter_map, List.map_map]
  exact congrArg (List.map (told rows none)) (raisesOf_some h s)

/-- A raise is told alike to its symbol and to all exactly if its id names
the symbol, it has no score, or its record says already what the last one
says. -/
theorem told_eq_iff {s : String} : told rows (some s) r = told rows none r ↔
    (existingScores rows r.id ≠ [] → ownerOf r.id = s ∨
      (r.record.get? "latest_outcome").getD .null = lastOutcome rows r.id) := by
  have hall : told rows none r = match (existingScores rows r.id).getLast? with
    | none => entryOf r
    | some outcome => (entryOf r).set "latest_outcome" outcome := rfl
  by_cases howner : ownerOf r.id = s
  · have hsame : told rows (some s) r = told rows none r := by
      rw [hall]
      unfold told
      rw [if_pos (by simpa using howner.symm)]
    exact ⟨fun _ _ => .inl howner, fun _ => hsame⟩
  · have hsome : told rows (some s) r = entryOf r := by
      unfold told
      rw [if_neg (by simpa using Ne.symm howner)]
    rw [hsome, hall]
    cases hlast : (existingScores rows r.id).getLast? with
    | none =>
      rw [List.getLast?_eq_none_iff] at hlast
      exact ⟨fun _ h => absurd hlast h, fun _ => rfl⟩
    | some outcome =>
      have hne : existingScores rows r.id ≠ [] := by
        intro hnil
        rw [hnil] at hlast
        cases hlast
      have hout : lastOutcome rows r.id = outcome := by
        unfold lastOutcome
        rw [hlast]
        rfl
      have hget : (entryOf r).get? "latest_outcome" =
          some ((r.record.get? "latest_outcome").getD .null) := by
        rw [entryOf_get?]
        cases r.record.get? "latest_outcome" with
        | none => rfl
        | some v => rfl
      rw [eq_comm, Dict.set_eq_self_iff, hget, hout, Option.some_inj]
      exact ⟨fun h _ => .inr h, fun h => (h hne).resolve_left howner⟩

/-- **One ledger's views**: the one of a symbol is the symbol's part of the
whole exactly if every raise of the symbol with a score has an id that names
it, or the last outcome in its own record. -/
theorem filtered_iff (h : Heard rows) (s : String) : Filtered rows s ↔
    ∀ r ∈ raisesOf rows (some s), existingScores rows r.id ≠ [] → ownerOf r.id = s ∨
      (r.record.get? "latest_outcome").getD .null = lastOutcome rows r.id := by
  unfold Filtered
  rw [escalations_told h, filedUnder_told h, List.map_inj_left]
  exact forall₂_congr fun r _ => told_eq_iff

/-- In a run whose raises' ids name their symbols, all of them do. -/
theorem Filed.ownIds (h : Filed (fun _ row => OwnId row) rows) : ∀ r ∈ rows, OwnId r := by
  induction h with
  | start =>
    intro r hr
    cases hr
  | file _ _ hown ih =>
    intro r hr
    rcases List.mem_append.mp hr with hr | hr
    · exact ih r hr
    · rw [List.mem_singleton.mp hr]
      exact hown

/-- A tool's raise has such an id. -/
theorem escalationRaise_ownId {symbol eid : String} {d : IsoDate} {record : Record}
    (h : escalationRaise rows symbol d record = .ok (eid, rows ++ [row])) : OwnId row := by
  intro _
  unfold escalationRaise at h
  obtain ⟨sym, -, h⟩ := except_bind_ok h
  obtain ⟨_, -, h⟩ := except_bind_ok h
  dsimp only at h
  split at h
  · cases h
  next =>
    have hrows := (Prod.mk.inj (Except.ok.inj h)).2
    rw [← List.singleton_inj.mp (List.append_cancel_left hrows)]
    exact ownerOf_escalationId sym d record

/-- **The view of a symbol is the filtered whole** wherever ids name their
symbols: in every ledger whose raises' ids do, for every symbol; and in any
ledger its writers reach, exactly where each scored raise of the symbol has
such an id, or a record that holds the last outcome already. -/
theorem escalations_filtered (rows : Escalations) (s : String) :
    (Filed (fun _ row => OwnId row) rows → Filtered rows s) ∧
    (Filed (fun _ _ => True) rows → (Filtered rows s ↔
      ∀ r ∈ raisesOf rows (some s), existingScores rows r.id ≠ [] → ownerOf r.id = s ∨
        (r.record.get? "latest_outcome").getD .null = lastOutcome rows r.id)) := by
  refine ⟨fun h => (filtered_iff h.heard s).mpr fun r hr _ => .inl ?_,
    fun h => filtered_iff h.heard s⟩
  obtain ⟨hmem, hs, hraise⟩ := mem_raisesOf.mp hr
  have hown := h.ownIds r hmem hraise
  have hsymbol : s = r.symbol := by simpa using hs
  rw [hown, hsymbol]

/-! ## A claim that was carried over -/

private def monday : IsoDate := ⟨"2026-09-28", by decide +kernel⟩

private def claim : Record := .ofPairs
  [("claim", .str "orders are slipping"), ("direction", .str "down"),
    ("event_date", .str "2026-10-20"),
    ("source_types", .arr [.str "employee", .str "counterparty"])]

/-- A claim raised by the tool and scored. -/
private def raised : EscalationRow :=
  ⟨escalationId "BRK-B" monday claim, .raise, "BRK-B", "2026-09-28", claim⟩

private theorem raised_accepts : escalationRaise [] "BRK-B" monday claim =
    .ok (escalationId "BRK-B" monday claim, [] ++ [raised]) := rfl

/-- Its score. -/
private def right : EscalationRow :=
  ⟨raised.id, .score, ownerOf raised.id, "2026-09-28", scoreRecord "right"⟩

private theorem right_accepts : escalationScore [raised] raised.id (.str "right") monday =
    .ok ([raised] ++ [right]) := by
  have hexists : raiseExists [raised] raised.id = true :=
    raiseExists_iff.mpr ⟨raised, List.mem_cons_self, rfl, rfl⟩
  unfold escalationScore
  rw [hexists]
  rfl

/-- It is reported to its symbol as it is to all. -/
theorem escalations_filtered_raised : Filtered [raised, right] "BRK-B" :=
  (escalations_filtered _ "BRK-B").1 (.file (.file .start (.raised _ _ _ _ raised_accepts)
    (escalationRaise_ownId raised_accepts)) (.scored _ _ _ right_accepts) (fun h => by cases h))

/-- A line of the file carried over, with an id of its own. -/
private def carried : Record := .ofPairs
  [("kind", .str "raise"), ("id", .str "BRK-B-17"), ("symbol", .str "BRK-B"),
    ("raised", .str "2026-09-28"), ("claim", .str "orders are slipping"),
    ("direction", .str "down"), ("event_date", .str "2026-10-20"),
    ("source_types", .arr [.str "employee", .str "counterparty"])]

private def carriedRow : EscalationRow := ⟨"BRK-B-17", .raise, "BRK-B", "2026-09-28", claim⟩

private def scoreRow : EscalationRow :=
  ⟨"BRK-B-17", .score, "BRK", "2026-09-28", scoreRecord "wrong"⟩

private theorem scoreRow_filed : Filed (fun _ _ => True) [carriedRow, scoreRow] :=
  .file (.file .start (.imported (fun _ => []) .empty .empty carried rfl) trivial)
    (.scored "BRK-B-17" (.str "wrong") monday rfl) trivial

/-- Its score is filed under `BRK`, and the view of `BRK-B` has no result. -/
theorem escalations_unfiltered : ¬ ∀ rows, Filed (fun _ _ => True) rows → ∀ s, Filtered rows s := by
  intro h
  have hfiltered := (filtered_iff scoreRow_filed.heard "BRK-B").mp (h _ scoreRow_filed "BRK-B")
  have hmem : carriedRow ∈ raisesOf [carriedRow, scoreRow] (some "BRK-B") :=
    mem_raisesOf.mpr ⟨List.mem_cons_self, rfl, rfl⟩
  rcases hfiltered carriedRow hmem (by decide) with howner | hout
  · revert howner
    decide
  · cases hout

end TradeDesk.Research
