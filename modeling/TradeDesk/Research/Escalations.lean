import TradeDesk.Async.Prog
import TradeDesk.Research.Ledgers

/-!
# A prediction and its result

The reader of the escalation ledger is to report each raise as the engine
filed it, without a result until a score of its id exists and with the last
one's from then on. It lays the model's own record over what the engine
wrote, and it folds in only the scores it reads under the symbol asked for.
So a raise must not carry the reader's own keys (`Clean`), which the list of
reserved keys does not say, and a score must be filed under the symbol of
its raise, which is cut out of the id.

Every writer adds one row (`accepts_cases`). `Reported.add` and its converse
are one such row, and `Filed` any number of them.
-/

namespace TradeDesk.Research

open TradeDesk.Async TradeDesk.Lists

variable {rows : Escalations} {row r : EscalationRow} {f : Option String}

/-! ## What the reader is to say -/

/-- The raises of a symbol, in order. -/
def raisesOf (rows : Escalations) (symbol : Option String) : Escalations :=
  (rowsOf rows symbol).filter fun r => r.kind == .raise

/-- The outcome of the last score filed for an id. -/
def lastOutcome (rows : Escalations) (eid : String) : Json :=
  (existingScores rows eid).getLast?.getD .null

/-- An entry says what its raise was filed under, and what it came to. -/
structure Says (rows : Escalations) (r : EscalationRow) (entry : Record) : Prop where
  id : entry.get? "id" = some (.str r.id)
  symbol : entry.get? "symbol" = some (.str r.symbol)
  raised : entry.get? "raised" = some (.str r.at_)
  outcome : entry.get? "latest_outcome" = some (lastOutcome rows r.id)

/-- The reader reports every raise, for every symbol and for all. -/
def Reported (rows : Escalations) : Prop :=
  ∀ f, List.Forall₂ (Says rows) (raisesOf rows f) (escalations rows f)

/-! ## What the writers add -/

/-- A row that one of the writers takes: the two tools, or a line of an
escalations file read in when so many scores are filed. -/
inductive Accepts (rows : Escalations) (row : EscalationRow) : Prop
  | raised (symbol : String) (d : IsoDate) (record : Record) (eid : String) :
      escalationRaise rows symbol d record = .ok (eid, rows ++ [row]) → Accepts rows row
  | scored (eid : String) (outcome : Json) (d : IsoDate) :
      escalationScore rows eid outcome d = .ok (rows ++ [row]) → Accepts rows row
  | imported (prior : String → List Json) (filed filed' : FiledScores) (record : Record) :
      importEscalation prior filed rows record = some (.wrote (rows ++ [row]), filed') →
      Accepts rows row

/-- A new raise, or a score of one. -/
inductive Adds (rows : Escalations) (row : EscalationRow) : Prop
  | raise : row.kind = .raise → raiseExists rows row.id = false → Adds rows row
  | score (outcome : String) : row.kind = .score → raiseExists rows row.id = true →
      row.symbol = ownerOf row.id → outcome ∈ outcomes → row.record = scoreRecord outcome →
      Adds rows row

theorem escalationScore_adds {eid : String} {outcome : Json} {d : IsoDate} {rows' : Escalations}
    (h : escalationScore rows eid outcome d = .ok rows') :
    ∃ row, rows' = rows ++ [row] ∧ Adds rows row := by
  unfold escalationScore at h
  obtain ⟨o, ho, h⟩ := except_bind_ok h
  split at h
  next hexists =>
    cases h
    refine ⟨_, rfl, .score o rfl hexists rfl ?_ rfl⟩
    unfold outcomeOf at ho
    split at ho
    next heq =>
      split at ho
      next hmem =>
        cases ho
        exact hmem
      · cases ho
    · cases ho
  · cases h

theorem escalationRaise_adds {symbol eid : String} {d : IsoDate} {record : Record}
    {rows' : Escalations} (h : escalationRaise rows symbol d record = .ok (eid, rows')) :
    ∃ row, rows' = rows ++ [row] ∧ Adds rows row := by
  unfold escalationRaise at h
  obtain ⟨sym, -, h⟩ := except_bind_ok h
  obtain ⟨_, -, h⟩ := except_bind_ok h
  dsimp only at h
  split at h
  · cases h
  next hnew =>
    cases h
    exact ⟨_, rfl, .raise rfl (Bool.eq_false_iff.mpr hnew)⟩

theorem importEscalation_adds {prior : String → List Json} {filed filed' : FiledScores}
    {record : Record} {rows' : Escalations}
    (h : importEscalation prior filed rows record = some (.wrote rows', filed')) :
    ∃ row, rows' = rows ++ [row] ∧ Adds rows row := by
  unfold importEscalation at h
  split at h
  · obtain ⟨hraise, -⟩ := Prod.mk.inj (Option.some.inj h)
    unfold importRaise at hraise
    dsimp only at hraise
    split at hraise
    · cases hraise
    · split at hraise
      · cases hraise
      next hnew =>
        cases hraise
        exact ⟨_, rfl, .raise rfl (Bool.eq_false_iff.mpr hnew)⟩
  · split at h
    · have hscore := Option.some.inj h
      unfold importScore at hscore
      dsimp only at hscore
      split at hscore
      · cases hscore
      · split at hscore
        · cases hscore
        · split at hscore
          · cases hscore
          · split at hscore
            · cases hscore
            next hok =>
              cases hscore
              exact escalationScore_adds hok
    · cases h

/-- **Every writer** adds a raise of a new id, or a score of an old one. -/
theorem accepts_cases (h : Accepts rows row) : Adds rows row := by
  have hlast : ∀ {row' : EscalationRow}, rows ++ [row] = rows ++ [row'] → row = row' := by
    intro row' heq
    exact List.singleton_inj.mp (List.append_cancel_left heq)
  cases h with
  | raised symbol d record eid h =>
    obtain ⟨row', heq, hadds⟩ := escalationRaise_adds h
    exact hlast heq ▸ hadds
  | scored eid outcome d h =>
    obtain ⟨row', heq, hadds⟩ := escalationScore_adds h
    exact hlast heq ▸ hadds
  | imported prior filed filed' record h =>
    obtain ⟨row', heq, hadds⟩ := importEscalation_adds h
    exact hlast heq ▸ hadds

/-! ## The reader, a row at a time -/

theorem rowsOf_append : rowsOf (rows ++ [row]) f =
    if f.all (· == row.symbol) then rowsOf rows f ++ [row] else rowsOf rows f := by
  unfold rowsOf
  rw [List.filter_append]
  by_cases h : f.all (· == row.symbol) = true
  · rw [if_pos h, List.filter_singleton, h]
    rfl
  · rw [if_neg h, List.filter_singleton, Bool.eq_false_iff.mpr h]
    exact List.append_nil _

theorem raisesOf_append : raisesOf (rows ++ [row]) f =
    if f.all (· == row.symbol) ∧ row.kind = .raise then raisesOf rows f ++ [row]
    else raisesOf rows f := by
  unfold raisesOf
  rw [rowsOf_append]
  by_cases h : f.all (· == row.symbol) = true
  · rw [if_pos h, List.filter_append]
    by_cases hk : row.kind = .raise
    · rw [if_pos ⟨h, hk⟩, List.filter_cons_of_pos (by simp [hk])]
      rfl
    · rw [if_neg fun h => hk h.2, List.filter_cons_of_neg (by simp [hk])]
      simp
  · rw [if_neg h, if_neg fun hh => h hh.1]

theorem mem_raisesOf : r ∈ raisesOf rows f ↔
    r ∈ rows ∧ f.all (· == r.symbol) = true ∧ r.kind = .raise := by
  unfold raisesOf rowsOf
  rw [List.mem_filter, List.mem_filter, beq_iff_eq, and_assoc]

/-- What the reader has under each id. -/
def entries (rows : Escalations) (f : Option String) : Dict String Record :=
  (rowsOf rows f).foldl readRow .empty

theorem entries_append : entries (rows ++ [row]) f =
    if f.all (· == row.symbol) then readRow (entries rows f) row else entries rows f := by
  unfold entries
  rw [rowsOf_append]
  by_cases h : f.all (· == row.symbol) = true
  · rw [if_pos h, if_pos h, List.foldl_append]
    rfl
  · rw [if_neg h, if_neg h]

theorem existingScores_append {eid : String} : existingScores (rows ++ [row]) eid =
    if row.kind = .score ∧ row.id = eid then
      existingScores rows eid ++ [(row.record.get? "outcome").getD .null]
    else existingScores rows eid := by
  unfold existingScores
  rw [List.filter_append, List.map_append]
  by_cases h : row.kind = .score ∧ row.id = eid
  · rw [if_pos h, List.filter_cons_of_pos (by simp [h])]
    rfl
  · rw [if_neg h, List.filter_cons_of_neg (by simpa using h)]
    simp

/-- A raise changes no outcome. -/
theorem lastOutcome_raise {eid : String} (hk : row.kind = .raise) :
    lastOutcome (rows ++ [row]) eid = lastOutcome rows eid := by
  unfold lastOutcome
  rw [existingScores_append, if_neg]
  rw [hk]
  rintro ⟨h, -⟩
  cases h

/-- A score's is the last of its id. -/
theorem lastOutcome_score {eid : String} (hk : row.kind = .score) :
    lastOutcome (rows ++ [row]) eid =
      if row.id = eid then (row.record.get? "outcome").getD .null else lastOutcome rows eid := by
  unfold lastOutcome
  rw [existingScores_append]
  by_cases h : row.id = eid
  · rw [if_pos ⟨hk, h⟩, if_pos h, List.getLast?_append]
    rfl
  · rw [if_neg fun hh => h hh.2, if_neg h]

/-- What an entry starts as. -/
theorem entryOf_get? (key : String) : (entryOf r).get? key = (r.record.get? key).or
    (if key = "latest_outcome" then some .null else if key = "raised" then some (.str r.at_)
      else if key = "symbol" then some (.str r.symbol) else if key = "id" then some (.str r.id)
      else none) := by
  unfold entryOf Dict.ofPairs
  rw [Dict.get?_update]
  simp only [List.foldl_cons, List.foldl_nil, Dict.get?_set, Dict.get?_empty]

/-! ## What a ledger keeps -/

/-- The ids of the raises are distinct, and a score has one. -/
structure Ledger (rows : Escalations) : Prop where
  ids : ((rows.filter fun r => r.kind == .raise).map (·.id)).Nodup
  scored : ∀ s ∈ rows, s.kind = .score → raiseExists rows s.id = true ∧ s.symbol = ownerOf s.id

theorem raiseExists_iff {eid : String} :
    raiseExists rows eid = true ↔ ∃ r ∈ rows, r.kind = .raise ∧ r.id = eid := by
  unfold raiseExists
  simp [and_comm]

theorem raiseExists_append {eid : String} (h : raiseExists rows eid = true) :
    raiseExists (rows ++ [row]) eid = true := by
  obtain ⟨r, hr, hspec⟩ := raiseExists_iff.mp h
  exact raiseExists_iff.mpr ⟨r, List.mem_append_left _ hr, hspec⟩

theorem Ledger.add (hl : Ledger rows) (hadds : Adds rows row) : Ledger (rows ++ [row]) := by
  refine ⟨?_, fun s hs hkind => ?_⟩
  · rw [List.filter_append, List.map_append]
    cases hadds with
    | raise hk hnew =>
      rw [List.filter_cons_of_pos (by simp [hk])]
      refine List.Nodup.append hl.ids (List.nodup_singleton _) ?_
      intro eid hmem hlast
      obtain ⟨r, hr, rfl⟩ := List.mem_map.mp hmem
      obtain ⟨hr, hraise⟩ := List.mem_filter.mp hr
      have heq : r.id = row.id := by simpa using hlast
      rw [raiseExists_iff.mpr ⟨r, hr, by simpa using hraise, heq⟩] at hnew
      cases hnew
    | score o hk =>
      rw [List.filter_cons_of_neg (by simp [hk])]
      simpa using hl.ids
  · rcases List.mem_append.mp hs with hs | hs
    · obtain ⟨hexists, howner⟩ := hl.scored s hs hkind
      exact ⟨raiseExists_append hexists, howner⟩
    · obtain rfl := List.mem_singleton.mp hs
      cases hadds with
      | raise hk =>
        rw [hk] at hkind
        cases hkind
      | score o _ hexists howner => exact ⟨raiseExists_append hexists, howner⟩

/-- A new id has no scores. -/
theorem Ledger.noScores (hl : Ledger rows) {eid : String} (hnew : raiseExists rows eid = false) :
    existingScores rows eid = [] := by
  unfold existingScores
  rw [List.map_eq_nil_iff, List.filter_eq_nil_iff]
  intro s hs hspec
  obtain ⟨hk, rfl⟩ : s.kind = .score ∧ s.id = eid := by simpa using hspec
  rw [(hl.scored s hs hk).1] at hnew
  cases hnew

theorem Ledger.unscored (hl : Ledger rows) {eid : String} (hnew : raiseExists rows eid = false) :
    lastOutcome rows eid = .null := by
  unfold lastOutcome
  rw [hl.noScores hnew]
  rfl

/-- Two raises of one id are one. -/
theorem Ledger.raise_unique (hl : Ledger rows) {r' : EscalationRow} (hr : r ∈ rows)
    (hk : r.kind = .raise) (hr' : r' ∈ rows) (hk' : r'.kind = .raise) (hid : r'.id = r.id) :
    r' = r :=
  List.inj_on_of_nodup_map hl.ids (List.mem_filter.mpr ⟨hr', by simp [hk']⟩)
    (List.mem_filter.mpr ⟨hr, by simp [hk]⟩) hid

/-- The reader has the raises of the symbol, under their ids and in order. -/
def Keyed (rows : Escalations) (f : Option String) : Prop :=
  (entries rows f).keys = (raisesOf rows f).map (·.id)

theorem Keyed.add (hkeys : Keyed rows f) (hadds : Adds rows row) : Keyed (rows ++ [row]) f := by
  unfold Keyed at hkeys ⊢
  rw [entries_append, raisesOf_append]
  by_cases hf : f.all (· == row.symbol) = true
  · rw [if_pos hf]
    cases hadds with
    | raise hk hnew =>
      have hfresh : row.id ∉ (entries rows f).keys := by
        rw [hkeys]
        intro hmem
        obtain ⟨r, hr, hid⟩ := List.mem_map.mp hmem
        obtain ⟨hr, -, hraise⟩ := mem_raisesOf.mp hr
        rw [raiseExists_iff.mpr ⟨r, hr, hraise, hid⟩] at hnew
        cases hnew
      rw [if_pos ⟨hf, hk⟩, List.map_append, ← hkeys]
      unfold readRow Dict.keys
      rw [hk]
      dsimp only
      rw [Dict.set_new hfresh, List.map_append]
      rfl
    | score o hk =>
      have hnot : ¬(f.all (· == row.symbol) = true ∧ row.kind = .raise) := by
        rw [hk]
        rintro ⟨-, h⟩
        cases h
      rw [if_neg hnot, ← hkeys]
      unfold readRow
      rw [hk]
      dsimp only
      cases hentry : (entries rows f).get? row.id with
      | none => rfl
      | some entry =>
        have hmem : row.id ∈ (entries rows f).keys :=
          Dict.mem_keys_iff.mpr (by rw [hentry]; rfl)
        exact (Dict.setItems_keys _ _ _).trans (if_pos hmem)
  · rw [if_neg hf, if_neg fun h => hf h.1]
    exact hkeys

/-! ## One row -/

/-- A raise's record holds none of the reader's keys, or what the reader
would say. -/
structure Clean (row : EscalationRow) : Prop where
  id : ∀ v, row.record.get? "id" = some v → v = .str row.id
  symbol : ∀ v, row.record.get? "symbol" = some v → v = .str row.symbol
  raised : ∀ v, row.record.get? "raised" = some v → v = .str row.at_
  outcome : ∀ v, row.record.get? "latest_outcome" = some v → v = .null

/-- A raise is clean, and a score is filed under the symbol of its raise. -/
def Fair (rows : Escalations) (row : EscalationRow) : Prop :=
  match row.kind with
  | .raise => Clean row
  | .score => ∀ r ∈ rows, r.kind = .raise → r.id = row.id → r.symbol = row.symbol

private theorem or_some {α : Type} {o : Option α} {a : α} :
    o.or (some a) = some a ↔ ∀ v, o = some v → v = a := by
  cases o with
  | none => simp
  | some v => simp

/-- An entry starts out true exactly if its record is clean. -/
theorem says_entryOf {rows : Escalations} (hnone : lastOutcome rows row.id = .null) :
    Says rows row (entryOf row) ↔ Clean row := by
  constructor
  · rintro ⟨hid, hsymbol, hraised, houtcome⟩
    rw [entryOf_get?] at hid hsymbol hraised houtcome
    rw [hnone] at houtcome
    exact ⟨or_some.mp hid, or_some.mp hsymbol, or_some.mp hraised, or_some.mp houtcome⟩
  · rintro ⟨hid, hsymbol, hraised, houtcome⟩
    refine ⟨?_, ?_, ?_, ?_⟩
    · rw [entryOf_get?]
      exact or_some.mpr hid
    · rw [entryOf_get?]
      exact or_some.mpr hsymbol
    · rw [entryOf_get?]
      exact or_some.mpr hraised
    · rw [entryOf_get?, hnone]
      exact or_some.mpr houtcome

theorem Keyed.reported_iff (hkeys : ∀ f, Keyed rows f) : Reported rows ↔
    ∀ f, ∀ r ∈ raisesOf rows f, ∃ e, (entries rows f).get? r.id = some e ∧ Says rows r e :=
  forall_congr' fun f => Dict.forall₂_values (hkeys f)

/-- What the reader has after a row it reads or passes over. -/
theorem entries_raise_get? (hk : row.kind = .raise) (eid : String) :
    (entries (rows ++ [row]) f).get? eid =
      if f.all (· == row.symbol) ∧ eid = row.id then some (entryOf row)
      else (entries rows f).get? eid := by
  rw [entries_append]
  by_cases hf : f.all (· == row.symbol) = true
  · rw [if_pos hf]
    unfold readRow
    rw [hk]
    dsimp only
    rw [Dict.get?_set]
    exact if_congr (by simp [hf]) rfl rfl
  · rw [if_neg hf, if_neg fun h => hf h.1]

theorem entries_score_get? (hk : row.kind = .score) (eid : String) :
    (entries (rows ++ [row]) f).get? eid =
      if f.all (· == row.symbol) ∧ eid = row.id then ((entries rows f).get? eid).map fun e =>
        e.set "latest_outcome" ((row.record.get? "outcome").getD .null)
      else (entries rows f).get? eid := by
  rw [entries_append]
  by_cases hf : f.all (· == row.symbol) = true
  · rw [if_pos hf]
    unfold readRow
    rw [hk]
    dsimp only
    by_cases heq : eid = row.id
    · subst heq
      rw [if_pos ⟨hf, rfl⟩]
      cases hentry : (entries rows f).get? row.id with
      | none => exact hentry
      | some entry => rw [Dict.get?_set, if_pos rfl, Option.map_some]
    · rw [if_neg fun h => heq h.2]
      cases (entries rows f).get? row.id with
      | none => rfl
      | some entry => rw [Dict.get?_set, if_neg heq]
  · rw [if_neg hf, if_neg fun h => hf h.1]

/-- Setting the outcome leaves the other keys. -/
theorem Says.score {entry : Record} {rows' : Escalations} (h : Says rows r entry) {outcome : Json}
    (hlast : lastOutcome rows' r.id = outcome) :
    Says rows' r (entry.set "latest_outcome" outcome) := by
  refine ⟨?_, ?_, ?_, ?_⟩
  · rw [Dict.get?_set, if_neg (by decide)]
    exact h.id
  · rw [Dict.get?_set, if_neg (by decide)]
    exact h.symbol
  · rw [Dict.get?_set, if_neg (by decide)]
    exact h.raised
  · rw [Dict.get?_set, if_pos rfl, hlast]

/-- What an entry says holds as long as the last score does. -/
theorem Says.of_last {entry : Record} {rows' : Escalations} (h : Says rows r entry)
    (hlast : lastOutcome rows' r.id = lastOutcome rows r.id) : Says rows' r entry :=
  ⟨h.id, h.symbol, h.raised, h.outcome.trans (by rw [hlast])⟩

/-- **A raise** is reported as filed exactly if its record is clean. -/
theorem reported_raise_iff (hl : Ledger rows) (hkeys : ∀ f, Keyed rows f) (hrep : Reported rows)
    (hk : row.kind = .raise) (hnew : raiseExists rows row.id = false) :
    Reported (rows ++ [row]) ↔ Clean row := by
  have hadds : Adds rows row := .raise hk hnew
  have hlast : lastOutcome (rows ++ [row]) row.id = .null :=
    (lastOutcome_raise hk).trans (hl.unscored hnew)
  rw [Keyed.reported_iff fun f => (hkeys f).add hadds, ← says_entryOf hlast]
  rw [Keyed.reported_iff hkeys] at hrep
  constructor
  · intro h
    obtain ⟨e, he, hsays⟩ := h none row (mem_raisesOf.mpr
      ⟨List.mem_append_right _ List.mem_cons_self, rfl, hk⟩)
    rw [entries_raise_get? hk, if_pos ⟨rfl, rfl⟩] at he
    cases he
    exact hsays
  · intro hsays f r hr
    rw [entries_raise_get? hk]
    rw [raisesOf_append] at hr
    by_cases heq : f.all (· == row.symbol) = true ∧ r.id = row.id
    · rw [if_pos heq]
      refine ⟨_, rfl, ?_⟩
      -- an old raise does not have the new id
      split at hr
      next h =>
        rcases List.mem_append.mp hr with hr | hr
        · obtain ⟨hr, -, hraise⟩ := mem_raisesOf.mp hr
          rw [raiseExists_iff.mpr ⟨r, hr, hraise, heq.2⟩] at hnew
          cases hnew
        · rw [List.mem_singleton.mp hr]
          exact hsays
      next h => exact absurd ⟨heq.1, hk⟩ h
    · rw [if_neg heq]
      have hold : r ∈ raisesOf rows f := by
        split at hr
        next h =>
          rcases List.mem_append.mp hr with hr | hr
          · exact hr
          · rw [List.mem_singleton.mp hr] at heq
            exact absurd ⟨h.1, rfl⟩ heq
        · exact hr
      obtain ⟨e, he, hsays⟩ := hrep f r hold
      exact ⟨e, he, hsays.of_last (lastOutcome_raise hk)⟩

/-- **A score** is folded into its raise if it is filed under its symbol. -/
theorem reported_score (hkeys : ∀ f, Keyed rows f) (hrep : Reported rows) (hk : row.kind = .score)
    (hexists : raiseExists rows row.id = true) (howner : row.symbol = ownerOf row.id)
    {outcome : String} (hout : outcome ∈ outcomes) (hrecord : row.record = scoreRecord outcome)
    (hfair : ∀ r ∈ rows, r.kind = .raise → r.id = row.id → r.symbol = row.symbol) :
    Reported (rows ++ [row]) := by
  have hadds : Adds rows row := .score outcome hk hexists howner hout hrecord
  rw [Keyed.reported_iff fun f => (hkeys f).add hadds]
  rw [Keyed.reported_iff hkeys] at hrep
  intro f r hr
  rw [raisesOf_append, if_neg (by rw [hk]; rintro ⟨-, h⟩; cases h)] at hr
  obtain ⟨e, he, hsays⟩ := hrep f r hr
  obtain ⟨hmem, hf, hraise⟩ := mem_raisesOf.mp hr
  rw [entries_score_get? hk, he]
  by_cases hid : r.id = row.id
  · rw [hfair r hmem hraise hid] at hf
    rw [if_pos ⟨hf, hid⟩]
    refine ⟨_, rfl, hsays.score ?_⟩
    rw [lastOutcome_score hk, if_pos hid.symm]
  · rw [if_neg fun h => hid h.2]
    refine ⟨e, rfl, hsays.of_last ?_⟩
    rw [lastOutcome_score hk, if_neg fun h => hid h.symm]

/-- And if it is not, the reader asked for its raise's symbol has no
outcome. -/
theorem fair_of_reported_score (hl : Ledger rows) (hkeys : ∀ f, Keyed rows f)
    (hrep : Reported rows) (hk : row.kind = .score)
    (hexists : raiseExists rows row.id = true) (howner : row.symbol = ownerOf row.id)
    {outcome : String} (hout : outcome ∈ outcomes) (hrecord : row.record = scoreRecord outcome)
    (hfair : ∀ s ∈ rows, s.kind = .score → ∀ r ∈ rows, r.kind = .raise → r.id = s.id →
      r.symbol = s.symbol)
    (h : Reported (rows ++ [row])) :
    ∀ r ∈ rows, r.kind = .raise → r.id = row.id → r.symbol = row.symbol := by
  intro r hr hraise hid
  by_contra hne
  have hadds : Adds rows row := .score outcome hk hexists howner hout hrecord
  rw [Keyed.reported_iff fun f => (hkeys f).add hadds] at h
  rw [Keyed.reported_iff hkeys] at hrep
  have hmem : r ∈ raisesOf rows (some r.symbol) := mem_raisesOf.mpr ⟨hr, by simp, hraise⟩
  obtain ⟨e, he, hsays⟩ := h (some r.symbol) r (by
    rw [raisesOf_append, if_neg (by rw [hk]; rintro ⟨-, h⟩; cases h)]
    exact hmem)
  obtain ⟨e', he', hsays'⟩ := hrep (some r.symbol) r hmem
  rw [entries_score_get? hk, if_neg (by rintro ⟨h, -⟩; exact hne (by simpa using h)), he'] at he
  cases he
  -- an earlier score of the id would be filed under the same symbol
  have hnone : existingScores rows r.id = [] := by
    unfold existingScores
    rw [List.map_eq_nil_iff, List.filter_eq_nil_iff]
    intro s hs hspec
    obtain ⟨hks, hids⟩ : s.kind = .score ∧ s.id = r.id := by simpa using hspec
    refine hne ((hfair s hs hks r hr hraise hids.symm).trans ?_)
    rw [(hl.scored s hs hks).2, howner, hids, hid]
  have hbefore : lastOutcome rows r.id = .null := by
    unfold lastOutcome
    rw [hnone]
    rfl
  have hafter : lastOutcome (rows ++ [row]) r.id = .str outcome := by
    rw [lastOutcome_score hk, if_pos hid.symm, hrecord]
    rfl
  have hsame := hsays.outcome.symm.trans hsays'.outcome
  rw [hbefore, hafter] at hsame
  cases hsame

/-! ## Every run -/

/-- The ledger after any number of rows its writers take, each of which is
to meet a condition. -/
inductive Filed (ok : Escalations → EscalationRow → Prop) : Escalations → Prop where
  | start : Filed ok []
  | file {rows : Escalations} {row : EscalationRow} : Filed ok rows → Accepts rows row →
      ok rows row → Filed ok (rows ++ [row])

/-- What fair rows keep. -/
structure Kept (rows : Escalations) : Prop where
  ledger : Ledger rows
  keyed : ∀ f, Keyed rows f
  reported : Reported rows
  scored : ∀ s ∈ rows, s.kind = .score → ∀ r ∈ rows, r.kind = .raise → r.id = s.id →
    r.symbol = s.symbol

theorem Kept.nil : Kept [] where
  ledger := ⟨List.nodup_nil, fun _ h => by cases h⟩
  keyed _ := rfl
  reported _ := .nil
  scored _ h := by cases h

/-- One more row is reported exactly if it is fair. -/
theorem Kept.reported_iff (hkept : Kept rows) (hadds : Adds rows row) :
    Reported (rows ++ [row]) ↔ Fair rows row := by
  unfold Fair
  cases hadds with
  | raise hk hnew =>
    rw [hk]
    exact reported_raise_iff hkept.ledger hkept.keyed hkept.reported hk hnew
  | score o hk hexists howner hout hrecord =>
    rw [hk]
    exact ⟨fair_of_reported_score hkept.ledger hkept.keyed hkept.reported hk hexists howner hout
        hrecord hkept.scored,
      reported_score hkept.keyed hkept.reported hk hexists howner hout hrecord⟩

theorem Kept.add (hkept : Kept rows) (hadds : Adds rows row) (hfair : Fair rows row) :
    Kept (rows ++ [row]) where
  ledger := hkept.ledger.add hadds
  keyed f := (hkept.keyed f).add hadds
  reported := (hkept.reported_iff hadds).mpr hfair
  scored s hs hks r hr hraise hid := by
    rcases List.mem_append.mp hs with hold | hs
    · rcases List.mem_append.mp hr with hr | hr
      · exact hkept.scored s hold hks r hr hraise hid
      · -- the raise is the new row: its id has no score
        obtain rfl := List.mem_singleton.mp hr
        have hexists := (hkept.ledger.scored s hold hks).1
        cases hadds with
        | raise _ hnew =>
          rw [hid, hexists] at hnew
          cases hnew
        | score _ hk =>
          rw [hk] at hraise
          cases hraise
    · obtain rfl := List.mem_singleton.mp hs
      rcases List.mem_append.mp hr with hr | hr
      · unfold Fair at hfair
        rw [hks] at hfair
        exact hfair r hr hraise hid
      · rw [List.mem_singleton.mp hr]

theorem Filed.kept (h : Filed Fair rows) : Kept rows := by
  induction h with
  | start => exact .nil
  | file _ haccepts hfair ih => exact ih.add (accepts_cases haccepts) hfair

/-- **A prediction is reported without its own result** as long as the rows
filed are fair: after any number of fair ones the reader says of each raise
what it was filed under and what its last score was, for every symbol and for
all; and it goes on saying so after one more exactly if that is fair too. -/
theorem escalations_reported (rows : Escalations) (h : Filed Fair rows) :
    Reported rows ∧ ∀ row, Accepts rows row → (Reported (rows ++ [row]) ↔ Fair rows row) :=
  ⟨h.kept.reported, fun _ haccepts => h.kept.reported_iff (accepts_cases haccepts)⟩

/-! ## The ids the engine mints -/

private theorem dropFields_field {n : ℕ} {cs rest : List Char} (h : ∀ c ∈ cs, c ≠ '-') :
    dropFields (n + 1) (cs ++ '-' :: rest) = dropFields n rest := by
  have hdrop : (cs ++ '-' :: rest).dropWhile (· != '-') = '-' :: rest := by
    rw [List.dropWhile_append_of_pos fun c hc => by simpa using h c hc]
    rfl
  rw [dropFields, hdrop]

private theorem digit_ne_dash {c : Char} (h : c.isDigit = true) : c ≠ '-' := by
  rintro rfl
  revert h
  decide

/-- A date's text is three fields of digits. -/
theorem IsoDate.fields (d : IsoDate) : ∃ y m day : List Char,
    d.text.toList = y ++ '-' :: (m ++ '-' :: day) ∧ (∀ c ∈ y, c ≠ '-') ∧ (∀ c ∈ m, c ≠ '-') ∧
      ∀ c ∈ day, c ≠ '-' := by
  have hreal := d.real
  unfold realDate at hreal
  split at hreal
  next y3 y2 y1 y0 m1 m0 d1 d0 hchars =>
    rw [Bool.and_eq_true, List.all_eq_true] at hreal
    have hdigit := fun c hc => digit_ne_dash (hreal.1 c hc)
    refine ⟨[y3, y2, y1, y0], [m1, m0], [d1, d0], by rw [hchars]; rfl, ?_, ?_, ?_⟩
    · exact fun c hc => hdigit c (by simp at hc ⊢; tauto)
    · exact fun c hc => hdigit c (by simp at hc ⊢; tauto)
    · exact fun c hc => hdigit c (by simp at hc ⊢; tauto)
  · cases hreal

/-- **An id of a symbol, a date and a checksum names the symbol**, dashes
and all. -/
theorem ownerOf_shape (symbol : String) (d : IsoDate) (crc : String)
    (hcrc : ∀ c ∈ crc.toList, c ≠ '-') :
    ownerOf (symbol ++ "-" ++ d.text ++ "-" ++ crc) = symbol := by
  obtain ⟨y, m, day, htext, hy, hm, hday⟩ := d.fields
  have hall : ∀ cs : List Char, (∀ c ∈ cs, c ≠ '-') → ∀ c ∈ cs.reverse, c ≠ '-' :=
    fun cs h c hc => h c (List.mem_reverse.mp hc)
  have hrev : (symbol ++ "-" ++ d.text ++ "-" ++ crc).toList.reverse =
      crc.toList.reverse ++ '-' :: (day.reverse ++ '-' ::
        (m.reverse ++ '-' :: (y.reverse ++ '-' :: symbol.toList.reverse))) := by
    simp [htext]
  unfold ownerOf
  rw [hrev, dropFields_field (hall _ hcrc), dropFields_field (hall day hday),
    dropFields_field (hall m hm), dropFields_field (hall y hy), dropFields]
  simp

/-- So a tool's raise does: a score of it is always fair. -/
theorem ownerOf_escalationId (symbol : String) (d : IsoDate) (record : Record) :
    ownerOf (escalationId symbol d record) = symbol := by
  refine ownerOf_shape symbol d _ fun c hc => digit_ne_dash ?_
  have hmem : c ∈ (Nat.repr (crc32 (record.dumps compact))).toList := hc
  rw [Nat.toList_repr] at hmem
  exact Nat.isDigit_of_mem_toDigits (by decide) (by decide) hmem

/-! ## A raise with its own outcome -/

private def friday : IsoDate := ⟨"2026-09-25", by decide +kernel⟩

/-- A claim that clears the bar, with what else the model put into it. -/
private def claimWith (more : List (String × Json)) : Record := .ofPairs
  ([("claim", .str "orders are slipping"), ("direction", .str "down"),
    ("event_date", .str "2026-10-20"),
    ("source_types", .arr [.str "employee", .str "counterparty"])] ++ more)

private theorem claimWith_raised (record : Record)
    (h : validateRaise record = .ok ()) :
    Accepts [] ⟨escalationId "MU" friday record, .raise, "MU", "2026-09-25", record⟩ := by
  refine .raised "MU" friday record (escalationId "MU" friday record) ?_
  unfold escalationRaise
  rw [h]
  rfl

/-- A raise that says it was right is reported as right before it is
scored. -/
theorem escalations_selfScored : ¬ ∀ rows, Filed (fun _ _ => True) rows → Reported rows := by
  intro h
  have haccepts := claimWith_raised (claimWith [("latest_outcome", .str "right")]) rfl
  have hclean := (reported_raise_iff Kept.nil.ledger Kept.nil.keyed Kept.nil.reported rfl rfl).mp
    (h _ (.file .start haccepts trivial))
  cases hclean.outcome (.str "right") rfl

/-- One that does not is reported without a result. -/
theorem escalations_unscored : Reported
    [⟨escalationId "MU" friday (claimWith []), .raise, "MU", "2026-09-25", claimWith []⟩] := by
  refine (escalations_reported _ (.file .start (claimWith_raised (claimWith []) rfl) ?_)).1
  refine ⟨fun v h => ?_, fun v h => ?_, fun v h => ?_, fun v h => ?_⟩
  all_goals cases h

end TradeDesk.Research
