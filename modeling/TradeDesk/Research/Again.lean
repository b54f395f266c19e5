import TradeDesk.Research.Entries
import TradeDesk.Research.Recovery

/-!
# The import, run again

The import is meant to be run again: a second run over the same source finds
what the first one wrote. Of the ledgers, the events and the evidence that
is so for every source and every store. A document is found again unless it
has a carriage return, which the file it is written to does not give back;
and the sectors' tags are found again unless two lines of the file tag one
symbol differently, as the first of them is then not what the table has.

Each is read off one turn: an entry that was written is settled, and what is
written after it leaves it so (`Took.settled`).
-/

namespace TradeDesk.Research

open TradeDesk.Async TradeDesk.Lists

variable {py : Python} {src : SourceTree}

/-- Where each entry that is written is settled and stays so, the second
reading writes nothing. -/
theorem reads_again {σ α π κ ε : Type} {f : Part σ π κ ε} {step : σ → α → Turn σ κ ε}
    {xs : List (π × α)} {s s' : σ} {t : Tally π κ ε} (h : Reads f step xs)
    (halready : ∀ s, ∀ x ∈ xs, ∀ s₁, step s x.2 = .already s₁ → s₁ = s)
    (hwrote : ∀ s, ∀ x ∈ xs, ∀ s₁ k, step s x.2 = .wrote s₁ k → Settled step s₁ x.2)
    (hkeep : ∀ s, ∀ x ∈ xs, ∀ y ∈ xs, ∀ s₁ k, Settled step s x.2 → step s y.2 = .wrote s₁ k →
      Settled step s₁ x.2)
    (hf : f s = some (s', t)) : ∃ u, f s' = some (s', u) ∧ u.wrote = [] := by
  obtain ⟨u, htook, -⟩ := h.took hf
  obtain ⟨skipped, hagain⟩ := took_of_settled (htook.settled halready hwrote hkeep)
  obtain ⟨t', hf', hlike⟩ := h.of_took hagain
  exact ⟨t', hf', hlike.wrote⟩

/-- And where it writes nothing, what it reads was settled. -/
theorem reads_settled {σ α π κ ε : Type} {f : Part σ π κ ε} {step : σ → α → Turn σ κ ε}
    {xs : List (π × α)} {s s' : σ} {t : Tally π κ ε} (h : Reads f step xs)
    (halready : ∀ s a s₁, step s a = .already s₁ → s₁ = s) (hf : f s = some (s', t))
    (ht : t.wrote = []) : s' = s ∧ ∀ x ∈ xs, Settled step s x.2 := by
  obtain ⟨u, htook, hlike⟩ := h.took hf
  exact htook.settled_of_nothing (hlike.wrote ▸ ht) halready

/-! ## Lines of a file -/

/-- A line's turn is settled with that of its row. -/
theorem lineTurn_settled {σ β κ ε α : Type} {read : α → Read β ε} {row : σ → β → Turn σ κ ε}
    {s s' : σ} {a : α} (h : Settled (lineTurn read row) s a)
    (hrow : ∀ b, Settled row s b → Settled row s' b) : Settled (lineTurn read row) s' a := by
  unfold Settled lineTurn at *
  cases hread : read a with
  | blank => exact Or.inl rfl
  | bad e => exact Or.inr ⟨e, rfl⟩
  | row b =>
    rw [hread] at h
    exact hrow b h
  | raised =>
    rw [hread] at h
    rcases h with h | ⟨e, h⟩ <;> cases h

theorem lineTurn_wrote {σ β κ ε α : Type} {read : α → Read β ε} {row : σ → β → Turn σ κ ε}
    {s s₁ : σ} {a : α} {k : κ} (h : lineTurn read row s a = .wrote s₁ k) :
    ∃ b, read a = .row b ∧ row s b = .wrote s₁ k := by
  unfold lineTurn at h
  cases hread : read a with
  | blank =>
    rw [hread] at h
    cases h
  | bad e =>
    rw [hread] at h
    cases h
  | row b =>
    rw [hread] at h
    exact ⟨b, rfl, h⟩
  | raised =>
    rw [hread] at h
    cases h

theorem lineTurn_already {σ β κ ε α : Type} {read : α → Read β ε} {row : σ → β → Turn σ κ ε}
    (hrow : ∀ s b s₁, row s b = .already s₁ → s₁ = s) {s s₁ : σ} {a : α}
    (h : lineTurn read row s a = .already s₁) : s₁ = s := by
  unfold lineTurn at h
  cases hread : read a with
  | blank =>
    rw [hread] at h
    cases h
    rfl
  | bad e =>
    rw [hread] at h
    cases h
  | row b =>
    rw [hread] at h
    exact hrow s b s₁ h
  | raised =>
    rw [hread] at h
    cases h

/-! ## The ledgers -/

/-- Rows were only added. -/
def Grown (tables tables' : Tables) : Prop := ∀ l, tables l <+: tables' l

theorem canonicalRows_grown {rows rows' : List LedgerRow} (h : rows <+: rows') {d : IsoDate}
    {c : String} (hc : c ∈ canonicalRows rows d) : c ∈ canonicalRows rows' d := by
  obtain ⟨r, hr, hrow⟩ := mem_canonicalRows.mp hc
  exact mem_canonicalRows.mpr ⟨r, h.subset hr, hrow⟩

theorem oiSymbolSeen_grown {tables tables' : Tables} (h : Grown tables tables') {d : IsoDate}
    {symbol : String} (hseen : oiSymbolSeen tables d symbol = true) :
    oiSymbolSeen tables' d symbol = true := by
  unfold oiSymbolSeen at *
  obtain ⟨r, hr, hrow⟩ := List.any_eq_true.mp hseen
  exact List.any_eq_true.mpr ⟨r, (h .oi).subset hr, hrow⟩

/-- What a table would not take, a longer one would not take either, unless
it has it. -/
theorem ledgerAppend_grown {tables tables' : Tables} (hgrown : Grown tables tables')
    {l : LedgerName} {d : IsoDate} {record : Record}
    (h : (∃ e, ledgerAppend py tables l d record = .refused e) ∨
      ledgerAppend py tables l d record = .snapshotted) :
    (∃ e, ledgerAppend py tables' l d record = .refused e) ∨
      ledgerAppend py tables' l d record = .snapshotted := by
  have hrow : ∀ {tables : Tables} {symbol : Option Json},
      ¬ ((∃ e, appendRow py tables l d symbol record = .refused e) ∨
        appendRow py tables l d symbol record = .snapshotted) := by
    intro tables symbol h
    unfold appendRow at h
    split at h <;> rcases h with ⟨e, h⟩ | h <;> cases h
  unfold ledgerAppend at *
  dsimp only at *
  cases hcheck : checkRow l d record with
  | error e => exact Or.inl ⟨e, rfl⟩
  | ok u =>
    rw [hcheck] at h
    dsimp only at *
    split at h
    next hoi =>
      rw [if_pos hoi]
      cases hsym : symbolOf (record.get? "symbol") with
      | error e => exact Or.inl ⟨e, rfl⟩
      | ok sym =>
        rw [hsym] at h
        dsimp only at *
        split at h
        next hseen =>
          rw [if_pos (oiSymbolSeen_grown hgrown hseen)]
          exact Or.inr rfl
        next => exact absurd h hrow
    next => exact absurd h hrow

theorem ledgerRecord_settled {l : LedgerName} {d : Option IsoDate} {tables tables' : Tables}
    {record : Record} (hgrown : Grown tables tables')
    (h : Settled (ledgerRecord py l d) tables record) :
    Settled (ledgerRecord py l d) tables' record := by
  unfold Settled ledgerRecord at *
  cases hdate : rowDate d record with
  | error e => exact Or.inr ⟨_, rfl⟩
  | ok day? =>
    cases day? with
    | none =>
      rw [hdate] at h
      rcases h with h | ⟨e, h⟩ <;> cases h
    | some day =>
      rw [hdate] at h
      dsimp only at *
      by_cases hmem' : canonical record ∈ canonicalRows (tables' l) day
      · rw [if_pos hmem']
        exact Or.inl rfl
      · have hmem : canonical record ∉ canonicalRows (tables l) day :=
          fun hmem => hmem' (canonicalRows_grown (hgrown l) hmem)
        rw [if_neg hmem] at h
        rw [if_neg hmem']
        have hnot : (∃ e, ledgerAppend py tables l day record = .refused e) ∨
            ledgerAppend py tables l day record = .snapshotted := by
          cases happend : ledgerAppend py tables l day record with
          | appended tables₁ =>
            rw [happend] at h
            rcases h with h | ⟨e, h⟩ <;> cases h
          | snapshotted => exact Or.inr rfl
          | refused e => exact Or.inl ⟨e, rfl⟩
          | raised =>
            rw [happend] at h
            rcases h with h | ⟨e, h⟩ <;> cases h
        rcases ledgerAppend_grown hgrown hnot with ⟨e, he⟩ | he
        · rw [he]
          exact Or.inr ⟨_, rfl⟩
        · rw [he]
          exact Or.inr ⟨_, rfl⟩

/-- What a written row leaves. -/
theorem ledgerRecord_wrote {l : LedgerName} {d : Option IsoDate} {tables tables₁ : Tables}
    {record : Record} {k : Counter} (h : ledgerRecord py l d tables record = .wrote tables₁ k) :
    Grown tables tables₁ ∧ Settled (ledgerRecord py l d) tables₁ record := by
  unfold ledgerRecord at h
  cases hdate : rowDate d record with
  | error e =>
    rw [hdate] at h
    cases h
  | ok day? =>
    cases day? with
    | none =>
      rw [hdate] at h
      cases h
    | some day =>
      rw [hdate] at h
      dsimp only at h
      split at h
      · cases h
      · cases happend : ledgerAppend py tables l day record with
        | refused e =>
          rw [happend] at h
          cases h
        | snapshotted =>
          rw [happend] at h
          cases h
        | raised =>
          rw [happend] at h
          cases h
        | appended tables' =>
          rw [happend] at h
          cases h
          obtain ⟨symbol, rfl⟩ := ledgerAppend_appended happend
          constructor
          · intro l'
            by_cases hl : l' = l
            · rw [hl, Function.update_self]
              exact List.prefix_append _ _
            · rw [Function.update_of_ne hl]
          · unfold Settled ledgerRecord
            rw [hdate]
            dsimp only
            rw [Function.update_self, if_pos (mem_canonicalRows_append.mpr (Or.inr ⟨rfl, rfl⟩))]
            exact Or.inl rfl

theorem ledgerRecord_already {l : LedgerName} {d : Option IsoDate} (tables : Tables)
    (record : Record) (tables₁ : Tables)
    (h : ledgerRecord py l d tables record = .already tables₁) : tables₁ = tables := by
  unfold ledgerRecord at h
  cases hdate : rowDate d record with
  | error e =>
    rw [hdate] at h
    cases h
  | ok day? =>
    cases day? with
    | none =>
      rw [hdate] at h
      cases h
    | some day =>
      rw [hdate] at h
      dsimp only at h
      split at h
      · cases h
        rfl
      · split at h <;> cases h

theorem ledgerTurn_settled {tables tables' : Tables} {e : LedgerEntry}
    (hgrown : Grown tables tables') (h : Settled (ledgerTurn py) tables e) :
    Settled (ledgerTurn py) tables' e := by
  cases e with
  | misnamed => exact Or.inr ⟨_, rfl⟩
  | raised => rcases h with h | ⟨e, h⟩ <;> cases h
  | line l d raw => exact lineTurn_settled h fun b hb => ledgerRecord_settled hgrown hb

theorem ledgerTurn_wrote {tables tables₁ : Tables} {e : LedgerEntry} {k : Counter}
    (h : ledgerTurn py tables e = .wrote tables₁ k) :
    Grown tables tables₁ ∧ Settled (ledgerTurn py) tables₁ e := by
  cases e with
  | misnamed => cases h
  | raised => cases h
  | line l d raw =>
    obtain ⟨record, hread, hrow⟩ := lineTurn_wrote h
    obtain ⟨hgrown, hsettled⟩ := ledgerRecord_wrote hrow
    refine ⟨hgrown, ?_⟩
    show Settled (lineTurn (readLine py) (ledgerRecord py l d)) tables₁ raw
    unfold Settled lineTurn
    rw [hread]
    exact hsettled

theorem ledgerTurn_already (tables : Tables) (e : LedgerEntry) (tables₁ : Tables)
    (h : ledgerTurn py tables e = .already tables₁) : tables₁ = tables := by
  cases e with
  | misnamed => cases h
  | raised => cases h
  | line l d raw => exact lineTurn_already ledgerRecord_already h

/-- The ledgers and the events are found again. -/
theorem ledgers_again {tables tables' : Tables} {t : Report}
    (h : ((importDatedLedgers py src).andThen (importEvents py src)) tables = some (tables', t)) :
    ∃ u, ((importDatedLedgers py src).andThen (importEvents py src)) tables' = some (tables', u) ∧
      u.wrote = [] :=
  reads_again reads_ledgers (fun s x _ s₁ => ledgerTurn_already s x.2 s₁)
    (fun _ _ _ _ _ heq => (ledgerTurn_wrote heq).2)
    (fun _ _ _ _ _ _ _ hsettled heq => ledgerTurn_settled (ledgerTurn_wrote heq).1 hsettled) h

/-! ## The evidence -/

/-- What `evidence_append` answers to a row is the same of any table. -/
private theorem evidenceAppend_other (py : Python) (rows rows' : List EvidenceRow)
    (symbol : String) (d : IsoDate) (record : Record) :
    (∀ e, evidenceAppend py rows symbol d record = .refused e →
      evidenceAppend py rows' symbol d record = .refused e) ∧
    evidenceAppend py rows symbol d record ≠ .snapshotted := by
  unfold evidenceAppend
  cases evidenceOf symbol d record with
  | error e =>
    refine ⟨fun e' h => ?_, fun h => ?_⟩
    · cases h
      rfl
    · cases h
  | ok row =>
    dsimp only
    refine ⟨fun e' h => ?_, fun h => ?_⟩ <;> split at h <;> cases h

private theorem evidenceRecord_settled {symbol : String} {rows rows' : List EvidenceRow}
    {record : Record} (hgrown : rows <+: rows')
    (h : Settled (evidenceRecord py symbol) rows record) :
    Settled (evidenceRecord py symbol) rows' record := by
  unfold Settled evidenceRecord at *
  cases hobserved : dateStr (record.get? "observed") "observed" with
  | error e => exact Or.inr ⟨_, rfl⟩
  | ok observed =>
    rw [hobserved] at h
    dsimp only at *
    by_cases hmem' : canonical record ∈ evidenceKeys rows' symbol
    · rw [if_pos hmem']
      exact Or.inl rfl
    · have hmem : canonical record ∉ evidenceKeys rows symbol := by
        intro hmem
        obtain ⟨row, hrow, hkey⟩ := List.mem_map.mp hmem
        refine hmem' (List.mem_map.mpr ⟨row, ?_, hkey⟩)
        exact (hgrown.filter _).subset hrow
      rw [if_neg hmem] at h
      rw [if_neg hmem']
      cases hd : fromisoformat observed with
      | none =>
        rw [hd] at h
        rcases h with h | ⟨e, h⟩ <;> cases h
      | some d =>
        rw [hd] at h
        dsimp only at *
        have hother := evidenceAppend_other py rows rows' symbol d record
        cases happend : evidenceAppend py rows symbol d record with
        | appended rows₁ =>
          rw [happend] at h
          rcases h with h | ⟨e, h⟩ <;> cases h
        | snapshotted => exact absurd happend hother.2
        | refused e =>
          rw [hother.1 e happend]
          exact Or.inr ⟨_, rfl⟩
        | raised =>
          rw [happend] at h
          rcases h with h | ⟨e, h⟩ <;> cases h

private theorem evidenceRecord_wrote {symbol : String} {rows rows₁ : List EvidenceRow}
    {record : Record} {k : Counter} (h : evidenceRecord py symbol rows record = .wrote rows₁ k) :
    rows <+: rows₁ ∧ Settled (evidenceRecord py symbol) rows₁ record := by
  unfold evidenceRecord at h
  cases hobserved : dateStr (record.get? "observed") "observed" with
  | error e =>
    rw [hobserved] at h
    cases h
  | ok observed =>
    rw [hobserved] at h
    dsimp only at h
    split at h
    · cases h
    · cases hd : fromisoformat observed with
      | none =>
        rw [hd] at h
        cases h
      | some d =>
        rw [hd] at h
        dsimp only at h
        split at h
        · cases h
        · cases h
        · cases h
        next rows' happend =>
          cases h
          obtain ⟨row, hrow, rfl⟩ := evidenceAppend_appended happend
          obtain ⟨hsymbol, hkey⟩ := evidenceOf_ok hrow
          refine ⟨List.prefix_append _ _, ?_⟩
          unfold Settled evidenceRecord
          rw [hobserved]
          dsimp only
          rw [if_pos (evidenceKeys_append.mpr (Or.inr ⟨hsymbol, hkey⟩))]
          exact Or.inl rfl

private theorem evidenceRecord_already {symbol : String} {rows rows₁ : List EvidenceRow}
    {record : Record} (h : evidenceRecord py symbol rows record = .already rows₁) :
    rows₁ = rows := by
  unfold evidenceRecord at h
  split at h
  · cases h
  · split at h
    · cases h
      rfl
    · split at h
      · cases h
      · split at h <;> cases h

private theorem evidenceTurn_settled {rows rows' : List EvidenceRow} {e : EvidenceEntry}
    (hgrown : rows <+: rows') (h : Settled (evidenceTurn py) rows e) :
    Settled (evidenceTurn py) rows' e := by
  refine lineTurn_settled (s := rows) h fun record hrow => ?_
  unfold Settled at *
  dsimp only at *
  split
  next henc =>
    rw [if_pos henc] at hrow
    exact evidenceRecord_settled hgrown hrow
  next henc =>
    rw [if_neg henc] at hrow
    rcases hrow with hrow | ⟨e, hrow⟩ <;> cases hrow

private theorem evidenceTurn_wrote {rows rows₁ : List EvidenceRow} {e : EvidenceEntry} {k : Counter}
    (h : evidenceTurn py rows e = .wrote rows₁ k) :
    rows <+: rows₁ ∧ Settled (evidenceTurn py) rows₁ e := by
  obtain ⟨record, hread, hrow⟩ := lineTurn_wrote h
  split at hrow
  next henc =>
    obtain ⟨hgrown, hsettled⟩ := evidenceRecord_wrote hrow
    refine ⟨hgrown, ?_⟩
    unfold Settled evidenceTurn lineTurn
    rw [hread]
    dsimp only
    rw [if_pos henc]
    exact hsettled
  · cases hrow

private theorem evidenceTurn_already {rows rows₁ : List EvidenceRow} {e : EvidenceEntry}
    (h : evidenceTurn py rows e = .already rows₁) : rows₁ = rows := by
  refine lineTurn_already (fun rows record rows₁ hrow => ?_) h
  split at hrow
  · exact evidenceRecord_already hrow
  · cases hrow

/-- The evidence is found again. -/
theorem evidence_again {rows rows' : List EvidenceRow} {t : Report}
    (h : importEvidence py src rows = some (rows', t)) :
    ∃ u, importEvidence py src rows' = some (rows', u) ∧ u.wrote = [] :=
  reads_again reads_evidence (fun _ _ _ _ => evidenceTurn_already)
    (fun _ _ _ _ _ heq => (evidenceTurn_wrote heq).2)
    (fun _ _ _ _ _ _ _ hsettled heq => evidenceTurn_settled (evidenceTurn_wrote heq).1 hsettled) h

/-! ## The documents -/

/-- No carriage return is read. -/
theorem cr_notMem_universalNewlines (cs : List Char) : '\r' ∉ universalNewlines cs := by
  induction cs using crlfInduction with
  | nil => exact List.not_mem_nil
  | crlf cs ih =>
    show '\r' ∉ '\n' :: universalNewlines cs
    rw [List.mem_cons, not_or]
    exact ⟨by decide, ih⟩
  | cons c cs h ih =>
    rw [universalNewlines_cons h, List.mem_cons, not_or]
    refine ⟨?_, ih⟩
    split
    · decide
    next hc => exact Ne.symm hc

/-- A text without one is read as it is. -/
theorem universalNewlines_eq_self {cs : List Char} (h : '\r' ∉ cs) : universalNewlines cs = cs := by
  induction cs with
  | nil => rfl
  | cons c cs ih =>
    rw [List.mem_cons, not_or] at h
    obtain ⟨hc, hcs⟩ := h
    have hne : ¬ IsCrlf c cs := fun hcrlf => hc hcrlf.1.symm
    rw [universalNewlines_cons hne, ih hcs, if_neg (Ne.symm hc)]

theorem cr_mem_written {body : List Char} : '\r' ∈ written body ↔ '\r' ∈ body := by
  unfold written
  split
  · rfl
  · simp

/-- The text a document's file is to have. -/
def HasText (docs : DocStore) (path : String) (body : List Char) : Prop :=
  (docs.files path).isSome = true ∧ docs.text path = written body

instance (docs : DocStore) (path : String) (body : List Char) :
    Decidable (HasText docs path body) := inferInstanceAs (Decidable (_ ∧ _))

/-- A document's turn: it is there, or it is checked and written. -/
theorem docTurn_eq {docs : DocStore} {f : DocFile} {body : List Char} {path : String}
    (hbody : f.content = .ok body) (hpath : pathFor f.kind (f.date.map (·.text)) = .ok path) :
    docTurn docs f = if HasText docs path body then .already docs
      else match validate f.kind body (f.date.map (·.text)) with
        | .error message => .skipped (.document message)
        | .ok () => .wrote { docs.swap path (written body) with
            artifacts := (docs.swap path (written body)).artifacts ++
              [⟨f.kind, f.date.map (·.text), path, (splitlines (written body)).length⟩] }
            .documents := by
  have hread : docs.read f.kind (f.date.map (·.text)) = .ok ⟨f.kind, path,
      (docs.files path).isSome, String.ofList (docs.text path), lastPass (docs.text path),
      verifiedAsOf (docs.text path)⟩ := by
    unfold DocStore.read
    rw [hpath]
    rfl
  have hexpected : Expected docs path none := fun e h => by cases h
  unfold docTurn
  rw [hbody]
  dsimp only
  rw [hread]
  dsimp only
  by_cases htext : HasText docs path body
  · rw [if_pos htext, if_pos]
    rw [htext.1, htext.2]
    simp
  · rw [if_neg htext, if_neg]
    · unfold DocStore.replace
      rw [hpath]
      cases validate f.kind body (f.date.map (·.text)) with
      | error message => rfl
      | ok u =>
        dsimp only
        rw [if_pos hexpected]
        rfl
    · intro h
      rw [Bool.and_eq_true, beq_iff_eq, String.ofList_inj] at h
      exact htext h

/-- A document the store takes. -/
def Accepted (f : DocFile) (body : List Char) : Prop :=
  f.content = .ok body ∧ validate f.kind body (f.date.map (·.text)) = .ok ()

theorem docTurn_settled {docs : DocStore} {f : DocFile} {path : String}
    (hpath : pathFor f.kind (f.date.map (·.text)) = .ok path) :
    Settled docTurn docs f ↔ ∀ body, Accepted f body → HasText docs path body := by
  cases hcontent : f.content with
  | error reason =>
    constructor
    · intro _ body haccepted
      cases haccepted.1.symm.trans hcontent
    · intro _
      refine Or.inr ⟨reason, ?_⟩
      unfold docTurn
      rw [hcontent]
  | ok body =>
    unfold Settled
    rw [docTurn_eq hcontent hpath]
    constructor
    · rintro h body' ⟨hbody, hvalid⟩
      cases hcontent.symm.trans hbody
      by_contra htext
      rw [if_neg htext, hvalid] at h
      rcases h with h | ⟨e, h⟩ <;> cases h
    · intro h
      by_cases htext : HasText docs path body
      · rw [if_pos htext]
        exact Or.inl rfl
      · rw [if_neg htext]
        cases hvalid : validate f.kind body (f.date.map (·.text)) with
        | error message => exact Or.inr ⟨_, rfl⟩
        | ok u => exact absurd (h body ⟨hcontent, hvalid⟩) htext

/-- What a written document leaves: its own text, as it is read back, and
the other files but for the one beside it. -/
theorem docTurn_wrote {docs docs₁ : DocStore} {f : DocFile} {path : String} {k : Counter}
    (hpath : pathFor f.kind (f.date.map (·.text)) = .ok path)
    (h : docTurn docs f = .wrote docs₁ k) :
    (∃ body, f.content = .ok body ∧ docs₁.files path = some (written body)) ∧
      ∀ p, p ≠ path → p ≠ path ++ ".prev" → docs₁.files p = docs.files p := by
  cases hcontent : f.content with
  | error reason =>
    unfold docTurn at h
    rw [hcontent] at h
    cases h
  | ok body =>
    rw [docTurn_eq hcontent hpath] at h
    split at h
    · cases h
    · split at h
      · cases h
      · cases h
        constructor
        · refine ⟨body, rfl, ?_⟩
          unfold DocStore.swap DocStore.write
          simp
        · intro p hp hprev
          unfold DocStore.swap DocStore.write
          dsimp only
          rw [if_neg hp]
          split
          · exact if_neg hprev
          · rfl

theorem docTurn_already {docs docs₁ : DocStore} {f : DocFile}
    (h : docTurn docs f = .already docs₁) : docs₁ = docs := by
  unfold docTurn at h
  dsimp only at h
  split at h
  · cases h
  · split at h
    · cases h
    · split at h
      · cases h
        rfl
      · split at h <;> cases h

theorem HasText.frame {docs docs₁ : DocStore} {path : String} {body : List Char}
    (hfile : docs₁.files path = docs.files path) :
    HasText docs₁ path body ↔ HasText docs path body := by
  unfold HasText DocStore.text
  rw [hfile]

/-! ## Where the documents come from -/

/-- The file a document is read from. -/
def sourceOf (kind : DocKind) (d : Option IsoDate) : String :=
  match d with
  | some d => "research/preopen/" ++ (d.text ++ ".md")
  | none => "research/" ++ (spec kind).filename ""

/-- A document as the source has it. -/
structure FromSource (src : SourceTree) (f : DocFile) : Prop where
  content : f.content = src.readText (sourceOf f.kind f.date)
  dated : f.date.isSome = (spec f.kind).dated

/-- The stem of a dated name and its ending make the name. -/
theorem eq_stem_append {name : String} (hname : ".md".toList <:+ name.toList)
    (hdate : matchesDate (stem name) = true) : name = stem name ++ ".md" := by
  obtain ⟨base, hbase⟩ := hname
  have hrev : name.toList.reverse = 'd' :: 'm' :: '.' :: base.reverse := by
    rw [← hbase, List.reverse_append]
    rfl
  have hstem : stem name = if base.isEmpty then name else String.ofList base := by
    unfold stem
    rw [hrev]
    simp
  cases base with
  | nil =>
    rw [hstem] at hdate
    have hempty : name = ".md" := by
      rw [← String.toList_inj, ← hbase]
      rfl
    rw [hempty] at hdate
    exact absurd hdate (by decide +kernel)
  | cons c base =>
    rw [hstem, ← String.toList_inj, String.toList_append, ← hbase]
    simp

private theorem docEntries_fromSource {path : String} {kind : DocKind} {d : Option IsoDate}
    (hpath : path = sourceOf kind d) (hdated : d.isSome = (spec kind).dated)
    {x : Place × DocEntry} (hx : x ∈ docEntries src path kind d) {f : DocFile}
    (hf : x.2 = .file f) : FromSource src f := by
  unfold docEntries at hx
  split at hx
  · rw [List.mem_singleton.mp hx] at hf
    cases hf
    exact ⟨by rw [hpath], hdated⟩
  · cases hx

/-- Every document of the source is read from the file of its kind and date. -/
theorem documentEntries_fromSource {x : Place × DocEntry} (hx : x ∈ documentEntries src)
    {f : DocFile} (hf : x.2 = .file f) : FromSource src f := by
  unfold documentEntries at hx
  rcases List.mem_append.mp hx with hx | hx
  · obtain ⟨doc, hdoc, hx⟩ := List.mem_flatMap.mp hx
    have hflat : ∀ doc ∈ flatDocs, doc.2 = (spec doc.1).filename "" ∧
        (spec doc.1).dated = false := by
      unfold flatDocs spec
      simp
    obtain ⟨hname, hdated⟩ := hflat doc hdoc
    refine docEntries_fromSource (d := none) ?_ hdated.symm hx hf
    rw [hname]
    rfl
  · unfold preopenEntries at hx
    split at hx
    · obtain ⟨name, hname, hx⟩ := List.mem_flatMap.mp hx
      unfold datedEntries at hx
      split at hx
      · rw [List.mem_singleton.mp hx] at hf
        cases hf
      next hmatch =>
        have hmatch : matchesDate (stem name) = true := by simpa using hmatch
        split at hx
        · rw [List.mem_singleton.mp hx] at hf
          cases hf
        next d hd =>
          refine docEntries_fromSource ?_ rfl hx hf
          show "research/preopen/" ++ name = "research/preopen/" ++ (d.text ++ ".md")
          rw [fromisoformat_text hd, ← eq_stem_append (mem_glob hname).2 hmatch]
    · cases hx

/-- The file a document is written to. -/
def targetOf (kind : DocKind) (d : Option IsoDate) : String :=
  (spec kind).filename ((d.map (·.text)).getD "")

theorem FromSource.path {f : DocFile} (h : FromSource src f) :
    pathFor f.kind (f.date.map (·.text)) = .ok (targetOf f.kind f.date) := by
  have hdated := h.dated
  unfold pathFor targetOf
  cases hdate : f.date with
  | none =>
    rw [hdate] at hdated
    rw [← hdated]
    rfl
  | some d =>
    rw [hdate] at hdated
    rw [← hdated]
    rfl

/-- No two documents are written to one file. -/
theorem targetOf_inj {kind kind' : DocKind} {d d' : Option IsoDate}
    (hd : d.isSome = (spec kind).dated) (hd' : d'.isSome = (spec kind').dated)
    (h : targetOf kind d = targetOf kind' d') : kind = kind' ∧ d = d' := by
  have hchars := congrArg String.toList h
  unfold targetOf at hchars
  have hkind : kind = kind' := by
    cases kind <;> cases kind' <;> first | rfl | simp [spec] at hchars
  subst hkind
  refine ⟨rfl, ?_⟩
  cases d with
  | none =>
    cases d' with
    | none => rfl
    | some d' => cases hd.trans hd'.symm
  | some d =>
    cases d' with
    | none => cases hd.trans hd'.symm
    | some d' =>
      cases kind with
      | preopen =>
        have htext : d.text = d'.text := by
          rw [← String.toList_inj]
          simpa [spec] using hchars
        obtain ⟨_, _⟩ := d
        obtain ⟨_, _⟩ := d'
        cases htext
        rfl
      | _ => cases hd

/-- Nor to the file kept beside another. -/
theorem targetOf_ne_prev (kind kind' : DocKind) (d d' : Option IsoDate) :
    targetOf kind d ≠ targetOf kind' d' ++ ".prev" := by
  intro h
  have hlast := congrArg (fun s : String => s.toList.getLast?) h
  have hmd : (targetOf kind d).toList.getLast? = some 'd' := by
    unfold targetOf
    cases kind <;> simp [spec, List.getLast?_cons]
  rw [hmd] at hlast
  simp at hlast

/-- One source, one document. -/
theorem FromSource.eq_of_target {f g : DocFile} (hf : FromSource src f) (hg : FromSource src g)
    (h : targetOf f.kind f.date = targetOf g.kind g.date) : f = g := by
  obtain ⟨hkind, hdate⟩ := targetOf_inj hf.dated hg.dated h
  have hcontent := hf.content
  have hcontent' := hg.content
  obtain ⟨kind, date, content⟩ := f
  obtain ⟨kind', date', content'⟩ := g
  dsimp only at hkind hdate hcontent hcontent'
  rw [hkind, hdate, hcontent, hcontent', hkind, hdate]

/-! ## The documents, found again -/

theorem documentTurn_settled {docs : DocStore} {x : Place × DocEntry} {f : DocFile}
    (hf : x.2 = .file f) (hsource : FromSource src f) : Settled documentTurn docs x.2 ↔
      ∀ body, Accepted f body → HasText docs (targetOf f.kind f.date) body := by
  rw [hf]
  exact docTurn_settled hsource.path

theorem documentTurn_already {docs docs₁ : DocStore} {e : DocEntry}
    (h : documentTurn docs e = .already docs₁) : docs₁ = docs := by
  cases e with
  | misnamed => cases h
  | raised => cases h
  | file f => exact docTurn_already h

/-- No document that the store takes has a carriage return. -/
def NoCarriageReturn (src : SourceTree) : Prop :=
  ∀ x ∈ documentEntries src, ∀ f body, x.2 = .file f → Accepted f body → '\r' ∉ body

/-- Without carriage returns, the documents are found again. -/
theorem documents_again {docs docs' : DocStore} {t : Report} (hcr : NoCarriageReturn src)
    (h : importDocuments src docs = some (docs', t)) :
    ∃ u, importDocuments src docs' = some (docs', u) ∧ u.wrote = [] := by
  refine reads_again reads_documents (fun _ _ _ _ => documentTurn_already) ?_ ?_ h
  · intro docs x hx docs₁ k heq
    obtain ⟨p, e⟩ := x
    cases e with
    | misnamed => cases heq
    | raised => cases heq
    | file f =>
      have hsource := documentEntries_fromSource hx rfl
      refine (documentTurn_settled rfl hsource).mpr fun body haccepted => ?_
      obtain ⟨⟨body', hbody, hfile⟩, -⟩ := docTurn_wrote hsource.path heq
      cases haccepted.1.symm.trans hbody
      refine ⟨by rw [hfile]; rfl, ?_⟩
      have hnone := cr_mem_written.not.mpr (hcr _ hx f body rfl haccepted)
      show ((docs₁.files _).map universalNewlines).getD [] = _
      rw [hfile]
      exact universalNewlines_eq_self hnone
  · intro docs x hx y hy docs₁ k hsettled heq
    obtain ⟨p, e⟩ := x
    obtain ⟨q, e'⟩ := y
    cases e' with
    | misnamed => cases heq
    | raised => cases heq
    | file g =>
      cases e with
      | misnamed => exact Or.inr ⟨_, rfl⟩
      | raised => rcases hsettled with h | ⟨e, h⟩ <;> cases h
      | file f =>
        have hf := documentEntries_fromSource hx rfl
        have hg := documentEntries_fromSource hy rfl
        by_cases hsame : targetOf f.kind f.date = targetOf g.kind g.date
        · -- the one file has one source, whose document was settled
          cases hf.eq_of_target hg hsame
          rcases hsettled with h | ⟨e, h⟩ <;> cases h.symm.trans heq
        · obtain ⟨-, hframe⟩ := docTurn_wrote hg.path heq
          refine (documentTurn_settled rfl hf).mpr fun body haccepted => ?_
          have hkept := hframe _ hsame (targetOf_ne_prev _ _ _ _)
          exact (HasText.frame hkept).mpr ((documentTurn_settled rfl hf).mp hsettled body haccepted)

/-- With one, they are not: it is not read back. -/
theorem documents_settled {docs docs' : DocStore} {t : Report}
    (h : importDocuments src docs = some (docs', t)) (ht : t.wrote = []) :
    docs' = docs ∧ NoCarriageReturn src := by
  obtain ⟨hsame, hall⟩ := reads_settled reads_documents (fun _ _ _ => documentTurn_already) h ht
  refine ⟨hsame, fun x hx f body hf haccepted hcr => ?_⟩
  have hsource := documentEntries_fromSource hx hf
  have htext := (documentTurn_settled hf hsource).mp (hall x hx) body haccepted
  have hread : '\r' ∈ docs.text (targetOf f.kind f.date) := by
    rw [htext.2]
    exact cr_mem_written.mpr hcr
  unfold DocStore.text at hread
  cases hfile : docs.files (targetOf f.kind f.date) with
  | none =>
    rw [hfile] at hread
    cases hread
  | some text =>
    rw [hfile] at hread
    exact cr_notMem_universalNewlines text hread

/-! ## The sectors -/

/-- The line gives the symbol this tag. -/
structure Tagging (line : List Char) (symbol : String) (tag : String × IsoDate) : Prop where
  read : isComment line = false
  fields : sectorFields line = [symbol, tag.1, tag.2.text]
  symbol : matchesSymbol symbol = true
  sector : tag.1 ∈ sectorNames
  stamp : sectorStampOf tag.2.text = .ok (some tag.2)

theorem Tagging.unique {line : List Char} {symbol symbol' : String} {tag tag' : String × IsoDate}
    (h : Tagging line symbol tag) (h' : Tagging line symbol' tag') :
    symbol = symbol' ∧ tag = tag' := by
  have hfields := h.fields.symm.trans h'.fields
  simp only [List.cons.injEq, and_true] at hfields
  obtain ⟨hsymbol, hsector, hstamp⟩ := hfields
  refine ⟨hsymbol, Prod.ext hsector ?_⟩
  obtain ⟨_, _⟩ := tag
  obtain ⟨_, ⟨_, _⟩⟩ := tag'
  have hd := h.stamp
  have hd' := h'.stamp
  rw [hstamp, hd'] at hd
  exact (Option.some.inj (Except.ok.inj hd)).symm

private theorem tag_eq_iff {tag? : Option (String × IsoDate)} {sector : String} {d : IsoDate} :
    tag?.map (fun tag => (tag.1, tag.2.text)) = some (sector, d.text) ↔
      tag? = some (sector, d) := by
  constructor
  · intro h
    obtain ⟨⟨sector', d'⟩, rfl, htag⟩ := Option.map_eq_some_iff.mp h
    obtain ⟨_, _⟩ := d
    obtain ⟨_, _⟩ := d'
    cases htag
    rfl
  · rintro rfl
    rfl

/-- The body of a line of three fields. -/
private theorem sectorRecord_fields (table : Sectors) {line : List Char}
    {symbol sector stamp : String} (hread : isComment line = false)
    (hfields : sectorFields line = [symbol, sector, stamp]) : sectorRecord table line =
      if (table.get? symbol).map (fun tag => (tag.1, tag.2.text)) = some (sector, stamp) then
        .already table
      else match sectorStampOf stamp with
        | .error e => .skipped (.ledger e)
        | .ok none => .raised
        | .ok (some d) => match sectorWrite table [(symbol, sector)] d with
          | .error e => .skipped (.ledger e)
          | .ok table' => .wrote table' .sectors := by
  unfold sectorRecord
  rw [if_neg (by rw [hread]; decide)]
  generalize sectorFields line = fields at hfields
  subst hfields
  rfl

/-- A line tags a symbol, which is written unless the table has it so; or it
is never written. -/
theorem sectorRecord_cases (line : List Char) :
    (∃ symbol tag, Tagging line symbol tag ∧ ∀ table, sectorRecord table line =
      if table.get? symbol = some tag then .already table
      else .wrote (table.set symbol tag) .sectors) ∨
    ((∀ symbol tag, ¬ Tagging line symbol tag) ∧
      ((∀ table, Settled sectorRecord table line) ∨
        ∀ table, sectorRecord table line = .raised)) := by
  cases hread : isComment line with
  | true =>
    refine Or.inr ⟨fun symbol tag h => ?_, Or.inl fun table => Or.inl ?_⟩
    · cases hread.symm.trans h.read
    · unfold sectorRecord
      rw [if_pos hread]
  | false =>
    by_cases hthree : ∃ symbol sector stamp, sectorFields line = [symbol, sector, stamp]
    · obtain ⟨symbol, sector, stamp, hfields⟩ := hthree
      have hline := fun table => sectorRecord_fields table hread hfields
      -- what a line of these fields would have to tag
      have htag : ∀ {symbol' tag}, Tagging line symbol' tag →
          symbol = symbol' ∧ sector = tag.1 ∧ stamp = tag.2.text := by
        intro symbol' tag h
        simpa using hfields.symm.trans h.fields
      cases hstamp : sectorStampOf stamp with
      | error e =>
        refine Or.inr ⟨fun symbol' tag h => ?_, Or.inl fun table => ?_⟩
        · cases hstamp.symm.trans ((htag h).2.2 ▸ h.stamp)
        · unfold Settled
          rw [hline, hstamp]
          split
          · exact Or.inl rfl
          · exact Or.inr ⟨_, rfl⟩
      | ok d? =>
        cases d? with
        | none =>
          refine Or.inr ⟨fun symbol' tag h => ?_, Or.inr fun table => ?_⟩
          · cases hstamp.symm.trans ((htag h).2.2 ▸ h.stamp)
          · rw [hline, hstamp, if_neg]
            intro htable
            -- a day the table has is one of the calendar
            obtain ⟨⟨sector', d⟩, -, htext⟩ := Option.map_eq_some_iff.mp htable
            have hreal : realDate stamp = true := by
              rw [← (Prod.mk.inj htext).2]
              exact d.real
            unfold sectorStampOf fromisoformat at hstamp
            rw [dif_pos hreal] at hstamp
            split at hstamp <;> cases hstamp
        | some d =>
          have hd : d.text = stamp := sectorStampOf_text hstamp
          subst hd
          by_cases hwritten : matchesSymbol symbol = true ∧ sector ∈ sectorNames
          · obtain ⟨hsymbol, hsector⟩ := hwritten
            refine Or.inl ⟨symbol, (sector, d), ⟨hread, hfields, hsymbol, hsector, hstamp⟩, ?_⟩
            intro table
            have hwrite : sectorWrite table [(symbol, sector)] d =
                .ok (table.set symbol (sector, d)) := by
              rw [sectorWrite_one, hsymbol, if_neg (by decide), if_pos hsector]
            rw [hline, hstamp]
            dsimp only
            rw [hwrite]
            exact if_congr tag_eq_iff rfl rfl
          · refine Or.inr ⟨fun symbol' tag h => hwritten ?_, Or.inl fun table => ?_⟩
            · rw [(htag h).1, (htag h).2.1]
              exact ⟨h.symbol, h.sector⟩
            · have hrefused : ∃ e, sectorWrite table [(symbol, sector)] d = .error e := by
                rw [sectorWrite_one]
                split
                · exact ⟨_, rfl⟩
                next hsymbol =>
                  rw [if_neg fun hsector => hwritten ⟨by simpa using hsymbol, hsector⟩]
                  exact ⟨_, rfl⟩
              obtain ⟨e, he⟩ := hrefused
              unfold Settled
              rw [hline, hstamp]
              dsimp only
              rw [he]
              split
              · exact Or.inl rfl
              · exact Or.inr ⟨_, rfl⟩
    · refine Or.inr ⟨fun symbol tag h => hthree ⟨_, _, _, h.fields⟩, Or.inl fun table => ?_⟩
      refine Or.inr ⟨.columns 3 (sectorFields line).length, ?_⟩
      unfold sectorRecord
      rw [if_neg (by rw [hread]; decide)]
      split
      next hfields => exact absurd ⟨_, _, _, hfields⟩ hthree
      · rfl

/-- The tag an entry of the file gives a symbol. -/
def SectorEntry.Tags : SectorEntry → String → String × IsoDate → Prop
  | .refused _, _, _ => False
  | .line cs, symbol, tag => Tagging cs symbol tag

theorem sectorTurn_already {table table₁ : Sectors} {e : SectorEntry}
    (h : sectorTurn table e = .already table₁) : table₁ = table := by
  cases e with
  | refused reason => cases h
  | line cs =>
    change sectorRecord table cs = .already table₁ at h
    rcases sectorRecord_cases cs with ⟨symbol, tag, -, hline⟩ | ⟨-, hnever | hraised⟩
    · rw [hline] at h
      split at h <;> cases h
      rfl
    · rcases hnever table with hsame | ⟨e, hsame⟩ <;> cases hsame.symm.trans h
      rfl
    · cases (hraised table).symm.trans h

/-- A line that tags a symbol is settled where the table has the tag. -/
theorem sectorTurn_settled {table : Sectors} {e : SectorEntry} {symbol : String}
    {tag : String × IsoDate} (htags : e.Tags symbol tag) :
    Settled sectorTurn table e ↔ table.get? symbol = some tag := by
  cases e with
  | refused reason => cases htags
  | line cs =>
    change Settled sectorRecord table cs ↔ _
    rcases sectorRecord_cases cs with ⟨symbol', tag', htags', hline⟩ | ⟨hnone, -⟩
    · obtain ⟨rfl, rfl⟩ := htags'.unique htags
      unfold Settled
      rw [hline]
      by_cases hget : table.get? symbol' = some tag' <;> simp [hget]
    · exact absurd htags (hnone symbol tag)

theorem sectorTurn_wrote {table table₁ : Sectors} {e : SectorEntry} {k : Counter}
    (h : sectorTurn table e = .wrote table₁ k) :
    k = .sectors ∧ ∃ symbol tag, e.Tags symbol tag ∧ table₁ = table.set symbol tag := by
  cases e with
  | refused reason => cases h
  | line cs =>
    change sectorRecord table cs = .wrote table₁ k at h
    rcases sectorRecord_cases cs with ⟨symbol, tag, htags, hline⟩ | ⟨-, hnever | hraised⟩
    · rw [hline] at h
      split at h <;> cases h
      exact ⟨rfl, symbol, tag, htags, rfl⟩
    · rcases hnever table with hsame | ⟨e, hsame⟩ <;> cases hsame.symm.trans h
    · cases (hraised table).symm.trans h

/-- No two lines of the file tag a symbol differently. -/
def OneTag (src : SourceTree) : Prop :=
  ∀ x ∈ sectorEntries src, ∀ y ∈ sectorEntries src, ∀ symbol tag tag',
    x.2.Tags symbol tag → y.2.Tags symbol tag' → tag = tag'

/-- With one tag for every symbol, the tags are found again. -/
theorem sectors_again {table table' : Sectors} {t : Report} (hone : OneTag src)
    (h : importSectors src table = some (table', t)) :
    ∃ u, importSectors src table' = some (table', u) ∧ u.wrote = [] := by
  refine reads_again reads_sectors (fun _ _ _ _ => sectorTurn_already) ?_ ?_ h
  · intro table x hx table₁ k heq
    obtain ⟨-, symbol, tag, htags, rfl⟩ := sectorTurn_wrote heq
    refine (sectorTurn_settled htags).mpr ?_
    rw [Dict.get?_set, if_pos rfl]
  · intro table x hx y hy table₁ k hset heq
    obtain ⟨-, symbol, tag, htags, rfl⟩ := sectorTurn_wrote heq
    by_cases htagged : ∃ symbol' tag', x.2.Tags symbol' tag'
    · obtain ⟨symbol', tag', hxtags⟩ := htagged
      refine (sectorTurn_settled hxtags).mpr ?_
      rw [Dict.get?_set]
      split
      next hsame =>
        subst hsame
        rw [hone x hx y hy _ _ _ hxtags htags]
      · exact (sectorTurn_settled hxtags).mp hset
    · -- a line that tags nothing is settled in every table or in none
      obtain ⟨p, e⟩ := x
      cases e with
      | refused reason => exact Or.inr ⟨_, rfl⟩
      | line cs =>
        rcases sectorRecord_cases cs with ⟨symbol', tag', hxtags, -⟩ | ⟨-, hnever | hraised⟩
        · exact absurd ⟨symbol', tag', hxtags⟩ htagged
        · exact hnever _
        · change Settled sectorRecord table cs at hset
          rcases hset with hset | ⟨e, hset⟩ <;> cases (hraised table).symm.trans hset

/-- With two, they are not: the table has the last of them. -/
theorem sectors_settled {table table' : Sectors} {t : Report}
    (h : importSectors src table = some (table', t)) (ht : t.wrote = []) :
    table' = table ∧ OneTag src := by
  obtain ⟨hsame, hall⟩ := reads_settled reads_sectors (fun _ _ _ => sectorTurn_already) h ht
  refine ⟨hsame, fun x hx y hy symbol tag tag' hxtag hytag => ?_⟩
  have hget := (sectorTurn_settled hxtag).mp (hall x hx)
  have hget' := (sectorTurn_settled hytag).mp (hall y hy)
  exact Option.some.inj (hget.symm.trans hget')

/-! ## The whole import -/

/-- What a part writes is of the kinds its turns write. -/
theorem reads_kinds {σ α π κ ε : Type} {f : Part σ π κ ε} {step : σ → α → Turn σ κ ε}
    {xs : List (π × α)} {s s' : σ} {t : Tally π κ ε} {P : κ → Prop} (h : Reads f step xs)
    (hstep : ∀ s a s₁ k, step s a = .wrote s₁ k → P k) (hf : f s = some (s', t)) :
    ∀ k ∈ t.wrote, P k := by
  obtain ⟨u, htook, hlike⟩ := h.took hf
  rw [hlike.wrote]
  clear hlike hf h
  induction htook with
  | done => exact fun k hk => by cases hk
  | already _ _ ih => exact ih
  | wrote heq _ ih =>
    intro k hk
    rcases List.mem_cons.mp hk with rfl | hk
    · exact hstep _ _ _ _ heq
    · exact ih k hk
  | skipped _ _ ih => exact ih

theorem documents_kinds {docs docs' : DocStore} {t : Report}
    (h : importDocuments src docs = some (docs', t)) : ∀ k ∈ t.wrote, k = .documents := by
  refine reads_kinds reads_documents (fun docs e docs₁ k heq => ?_) h
  cases e with
  | misnamed => cases heq
  | raised => cases heq
  | file f =>
    change docTurn docs f = .wrote docs₁ k at heq
    unfold docTurn at heq
    dsimp only at heq
    split at heq
    · cases heq
    · split at heq
      · cases heq
      · split at heq
        · cases heq
        · split at heq <;> cases heq
          rfl

theorem ledgers_kinds {tables tables' : Tables} {t : Report}
    (h : ((importDatedLedgers py src).andThen (importEvents py src)) tables = some (tables', t)) :
    ∀ k ∈ t.wrote, ∃ l, k = .ledger l := by
  refine reads_kinds reads_ledgers (fun tables e tables₁ k heq => ?_) h
  cases e with
  | misnamed => cases heq
  | raised => cases heq
  | line l d raw =>
    obtain ⟨record, -, hrow⟩ := lineTurn_wrote heq
    refine ⟨l, ?_⟩
    unfold ledgerRecord at hrow
    split at hrow
    · cases hrow
    · cases hrow
    · split at hrow
      · cases hrow
      · split at hrow <;> cases hrow
        rfl

theorem evidence_kinds {rows rows' : List EvidenceRow} {t : Report}
    (h : importEvidence py src rows = some (rows', t)) : ∀ k ∈ t.wrote, k = .evidence := by
  refine reads_kinds reads_evidence (fun rows e rows₁ k heq => ?_) h
  obtain ⟨record, -, hrow⟩ := lineTurn_wrote heq
  split at hrow
  · unfold evidenceRecord at hrow
    split at hrow
    · cases hrow
    · split at hrow
      · cases hrow
      · split at hrow
        · cases hrow
        · split at hrow <;> cases hrow
          rfl
  · cases hrow

theorem escalations_kinds {rows rows' : Escalations} {t : Report}
    (h : importEscalations py src rows = some (rows', t)) : ∀ k ∈ t.wrote, k = .escalations := by
  unfold importEscalations at h
  split at h
  · obtain ⟨⟨c, t'⟩, hread, hsame⟩ := Option.map_eq_some_iff.mp h
    cases hsame
    have hreads : Reads (src.readJsonl py "research/escalations.jsonl" fun rs c =>
        turns (escalationRow py (existingScores rows)) c rs)
        (lineTurn (readLine py) (escalationRow py (existingScores rows)))
        (src.lines "research/escalations.jsonl") :=
      reads_wholeFile fun _ => reads_turns
    refine reads_kinds hreads (fun c a c₁ k heq => ?_) hread
    obtain ⟨record, -, hrow⟩ := lineTurn_wrote heq
    unfold escalationRow at hrow
    split at hrow
    · cases hrow
    · split at hrow <;> cases hrow
    · cases hrow
    · cases hrow
    · split at hrow <;> cases hrow
    · split at hrow <;> cases hrow
      rfl
  · cases h
    exact fun k hk => by cases hk

theorem sectors_kinds {table table' : Sectors} {t : Report}
    (h : importSectors src table = some (table', t)) : ∀ k ∈ t.wrote, k = .sectors :=
  reads_kinds reads_sectors (fun _ _ _ _ heq => (sectorTurn_wrote heq).1) h

theorem universe_kinds {table table' : List SweepEntry} {t : Report}
    (h : importUniverse src table = some (table', t)) : ∀ k ∈ t.wrote, k = .universe_ := by
  unfold importUniverse importSweep at h
  split at h
  · cases h
    exact fun k hk => by cases hk
  · cases h
    exact fun k hk => by cases hk
  · cases h
  · obtain ⟨r, -, h⟩ := Option.bind_eq_some_iff.mp h
    obtain ⟨r', -, hsame⟩ := Option.map_eq_some_iff.mp h
    cases hsame
    exact fun k hk => List.eq_of_mem_replicate hk

/-- What each part of an import reports. -/
structure PartReports where
  documents : Report
  ledgers : Report
  evidence : Report
  escalations : Report
  tags : Report
  sweep : Report

/-- The parts of an import that gave a report. -/
structure Parts (py : Python) (src : SourceTree) (s s' : ResearchStore) (r : Report)
    (t : PartReports) : Prop where
  documents : importDocuments src s.docs = some (s'.docs, t.documents)
  ledgers : ((importDatedLedgers py src).andThen (importEvents py src)) s.ledgers =
    some (s'.ledgers, t.ledgers)
  evidence : importEvidence py src s.evidence = some (s'.evidence, t.evidence)
  escalations : importEscalations py src s.escalations = some (s'.escalations, t.escalations)
  tags : importSectors src s.sectors = some (s'.sectors, t.tags)
  sweep : importUniverse src s.universe_ = some (s'.universe_, t.sweep)
  wrote : r.wrote = t.documents.wrote ++ (t.ledgers.wrote ++ (t.evidence.wrote ++
    (t.escalations.wrote ++ (t.tags.wrote ++ t.sweep.wrote))))

theorem importResearch_parts {s s' : ResearchStore} {r : Report}
    (h : importResearch py src s = some (s', r)) : ∃ t, Parts py src s s' r t := by
  unfold importResearch at h
  obtain ⟨⟨docs, documents⟩, hdocs, h⟩ := Option.bind_eq_some_iff.mp h
  obtain ⟨⟨tables, dated⟩, hdated, h⟩ := Option.bind_eq_some_iff.mp h
  obtain ⟨⟨tables', events⟩, hevents, h⟩ := Option.bind_eq_some_iff.mp h
  obtain ⟨⟨evidence, observations⟩, hevidence, h⟩ := Option.bind_eq_some_iff.mp h
  obtain ⟨⟨escalations, predictions⟩, hescalations, h⟩ := Option.bind_eq_some_iff.mp h
  obtain ⟨⟨sectors, tags⟩, hsectors, h⟩ := Option.bind_eq_some_iff.mp h
  obtain ⟨⟨sweeps, sweep⟩, hsweeps, h⟩ := Option.bind_eq_some_iff.mp h
  cases h
  refine ⟨⟨documents, dated.add events, observations, predictions, tags, sweep⟩, hdocs, ?_,
    hevidence, hescalations, hsectors, hsweeps, ?_⟩
  · unfold Part.andThen
    rw [hdated, Option.bind_some, hevents]
    rfl
  · simp only [Tally.add, List.append_assoc]

/-- The part that writes a kind. -/
def PartReports.of (t : PartReports) : Counter → Report
  | .documents => t.documents
  | .ledger _ => t.ledgers
  | .evidence => t.evidence
  | .escalations => t.escalations
  | .sectors => t.tags
  | .universe_ => t.sweep

theorem Parts.mem_wrote {s s' : ResearchStore} {r : Report} {t : PartReports}
    (h : Parts py src s s' r t) {k : Counter} (hk : k ∈ r.wrote) : k ∈ (t.of k).wrote := by
  rw [h.wrote] at hk
  simp only [List.mem_append] at hk
  rcases hk with hk | hk | hk | hk | hk | hk
  · cases documents_kinds h.documents k hk
    exact hk
  · obtain ⟨l, rfl⟩ := ledgers_kinds h.ledgers k hk
    exact hk
  · cases evidence_kinds h.evidence k hk
    exact hk
  · cases escalations_kinds h.escalations k hk
    exact hk
  · cases sectors_kinds h.tags k hk
    exact hk
  · cases universe_kinds h.sweep k hk
    exact hk

/-- What a part does not write is not counted. -/
theorem Parts.count_eq_zero {s s' : ResearchStore} {r : Report} {t : PartReports}
    (h : Parts py src s s' r t) {k : Counter} (hnone : (t.of k).wrote = []) : r.count k = 0 := by
  refine List.count_eq_zero.mpr fun hk => ?_
  have hmem := h.mem_wrote hk
  rw [hnone] at hmem
  cases hmem

/-- And where it is not counted, a part of that kind wrote nothing. -/
private theorem wrote_eq_nil {r part : Report} {k : Counter} (hcount : r.count k = 0)
    (hpart : ∀ k' ∈ part.wrote, k' = k) (hof : part.wrote ⊆ r.wrote) : part.wrote = [] := by
  refine List.eq_nil_iff_forall_not_mem.mpr fun k' hk => ?_
  exact List.count_eq_zero.mp hcount (hpart k' hk ▸ hof hk)

private def screenLine : String := "\x7b\"symbol\": \"ABC\", \"t\": \"a\", \"src\": \"b\"\x7d"

private def rosterText : String :=
  "# Options-viable roster\r\nnever a source for order parameters\r\nTTL 14\r\n\r\n\r\n\r\nABC\r\n"

private def sectorsText : String := "ABC\tother\t2026-08-27\nABC\tsemis-hardware\t2026-08-28\n"

/-- A tree with a screen, a document of carriage returns and a symbol in two
sectors. -/
private def olderTree : SourceTree where
  node path :=
    if path = "research/screen" then some .directory
    else if path = "research/screen/2026-08-28.jsonl" then
      some (.file screenLine.toUTF8.data.toList)
    else if path = "research/options-roster.md" then some (.file rosterText.toUTF8.data.toList)
    else if path = "research/sectors.tsv" then some (.file sectorsText.toUTF8.data.toList)
    else none
  names dir := if dir = "research/screen" then ["2026-08-28.jsonl"] else []
  nodup dir := by split <;> simp

private def screenLoads : Python where
  loads text := if text = screenLine.toList then
      .value (.obj [("symbol", .str "ABC"), ("t", .str "a"), ("src", .str "b")])
    else .notJson
  encodable _ := true
  symbols _ _ := rfl

private def newStore : ResearchStore :=
  ⟨⟨fun _ => none, []⟩, fun _ => [], [], [], .empty, []⟩

private def twice : Option (ResearchStore × Report) :=
  (importResearch screenLoads olderTree newStore).bind fun r =>
    importResearch screenLoads olderTree r.1

/-- **Run again, the import finds every row of the ledgers and of the
evidence**, whatever became of them the first time. -/
theorem import_findsRows {s s₁ s₂ : ResearchStore} {r₁ r₂ : Report}
    (h₁ : importResearch py src s = some (s₁, r₁)) (h₂ : importResearch py src s₁ = some (s₂, r₂)) :
    s₂.ledgers = s₁.ledgers ∧ s₂.evidence = s₁.evidence ∧ (∀ l, r₂.count (.ledger l) = 0) ∧
      r₂.count .evidence = 0 := by
  obtain ⟨_, hfirst⟩ := importResearch_parts h₁
  obtain ⟨t, hsecond⟩ := importResearch_parts h₂
  obtain ⟨u, hagain, hu⟩ := ledgers_again hfirst.ledgers
  obtain ⟨v, hagain', hv⟩ := evidence_again hfirst.evidence
  obtain ⟨hledgers, hsame⟩ := Prod.mk.inj (Option.some.inj (hagain.symm.trans hsecond.ledgers))
  obtain ⟨hevidence, hsame'⟩ := Prod.mk.inj (Option.some.inj (hagain'.symm.trans hsecond.evidence))
  rw [hsame] at hu
  rw [hsame'] at hv
  exact ⟨hledgers.symm, hevidence.symm, fun l => hsecond.count_eq_zero hu, hsecond.count_eq_zero hv⟩

private theorem olderTree_twice : ∃ s₁ r₁ s₂ r₂,
    importResearch screenLoads olderTree newStore = some (s₁, r₁) ∧
      importResearch screenLoads olderTree s₁ = some (s₂, r₂) := by
  have hsome : twice.isSome = true := by decide +kernel
  obtain ⟨⟨s₂, r₂⟩, hsecond⟩ := Option.isSome_iff_exists.mp hsome
  obtain ⟨⟨s₁, r₁⟩, hfirst, hagain⟩ := Option.bind_eq_some_iff.mp hsecond
  exact ⟨s₁, r₁, s₂, r₂, hfirst, hagain⟩

theorem import_findsRows_screen : ∃ s₁ r₁ s₂ r₂,
    importResearch screenLoads olderTree newStore = some (s₁, r₁) ∧
      importResearch screenLoads olderTree s₁ = some (s₂, r₂) ∧
      s₂.ledgers = s₁.ledgers ∧ s₂.evidence = s₁.evidence ∧
      (∀ l, r₂.count (.ledger l) = 0) ∧ r₂.count .evidence = 0 := by
  obtain ⟨s₁, r₁, s₂, r₂, h₁, h₂⟩ := olderTree_twice
  exact ⟨s₁, r₁, s₂, r₂, h₁, h₂, import_findsRows h₁ h₂⟩

/-- **Run again, the import finds every document it took, unless one of them
has a carriage return.** -/
theorem import_findsDocuments {s s₁ s₂ : ResearchStore} {r₁ r₂ : Report}
    (h₁ : importResearch py src s = some (s₁, r₁)) (h₂ : importResearch py src s₁ = some (s₂, r₂)) :
    (r₂.count .documents = 0 ↔ NoCarriageReturn src) ∧
      (r₂.count .documents = 0 → s₂.docs = s₁.docs) := by
  obtain ⟨_, hfirst⟩ := importResearch_parts h₁
  obtain ⟨t, hsecond⟩ := importResearch_parts h₂
  have hnone : r₂.count .documents = 0 → s₂.docs = s₁.docs ∧ NoCarriageReturn src := by
    intro hcount
    refine documents_settled hsecond.documents ?_
    refine wrote_eq_nil hcount (documents_kinds hsecond.documents) ?_
    rw [hsecond.wrote]
    exact List.subset_append_left _ _
  refine ⟨⟨fun hcount => (hnone hcount).2, fun hcr => ?_⟩, fun hcount => (hnone hcount).1⟩
  obtain ⟨u, hagain, hu⟩ := documents_again hcr hfirst.documents
  obtain ⟨-, hsame⟩ := Prod.mk.inj (Option.some.inj (hagain.symm.trans hsecond.documents))
  rw [hsame] at hu
  exact hsecond.count_eq_zero hu

theorem import_findsDocuments_roster : ∃ s₁ r₁ s₂ r₂,
    importResearch screenLoads olderTree newStore = some (s₁, r₁) ∧
      importResearch screenLoads olderTree s₁ = some (s₂, r₂) ∧
      (r₂.count .documents = 0 ↔ NoCarriageReturn olderTree) ∧
      (r₂.count .documents = 0 → s₂.docs = s₁.docs) := by
  obtain ⟨s₁, r₁, s₂, r₂, h₁, h₂⟩ := olderTree_twice
  exact ⟨s₁, r₁, s₂, r₂, h₁, h₂, import_findsDocuments h₁ h₂⟩

/-- **Run again, the import finds every sector's tag, unless the file tags a
symbol in two ways.** -/
theorem import_findsSectors {s s₁ s₂ : ResearchStore} {r₁ r₂ : Report}
    (h₁ : importResearch py src s = some (s₁, r₁)) (h₂ : importResearch py src s₁ = some (s₂, r₂)) :
    (r₂.count .sectors = 0 ↔ OneTag src) ∧ (r₂.count .sectors = 0 → s₂.sectors = s₁.sectors) := by
  obtain ⟨_, hfirst⟩ := importResearch_parts h₁
  obtain ⟨t, hsecond⟩ := importResearch_parts h₂
  have hnone : r₂.count .sectors = 0 → s₂.sectors = s₁.sectors ∧ OneTag src := by
    intro hcount
    refine sectors_settled hsecond.tags ?_
    refine wrote_eq_nil hcount (sectors_kinds hsecond.tags) fun k hk => ?_
    rw [hsecond.wrote]
    simp [hk]
  refine ⟨⟨fun hcount => (hnone hcount).2, fun hone => ?_⟩, fun hcount => (hnone hcount).1⟩
  obtain ⟨u, hagain, hu⟩ := sectors_again hone hfirst.tags
  obtain ⟨-, hsame⟩ := Prod.mk.inj (Option.some.inj (hagain.symm.trans hsecond.tags))
  rw [hsame] at hu
  exact hsecond.count_eq_zero hu

theorem import_findsSectors_two : ∃ s₁ r₁ s₂ r₂,
    importResearch screenLoads olderTree newStore = some (s₁, r₁) ∧
      importResearch screenLoads olderTree s₁ = some (s₂, r₂) ∧
      (r₂.count .sectors = 0 ↔ OneTag olderTree) ∧
      (r₂.count .sectors = 0 → s₂.sectors = s₁.sectors) := by
  obtain ⟨s₁, r₁, s₂, r₂, h₁, h₂⟩ := olderTree_twice
  exact ⟨s₁, r₁, s₂, r₂, h₁, h₂, import_findsSectors h₁ h₂⟩

end TradeDesk.Research
