import TradeDesk.Async.Mutex
import TradeDesk.Loops.Book
import Mathlib.Data.List.MinMax

/-!
# Account snapshots in the store

`Store.record_account` and `Store.latest_account` over their two tables and
the one connection. A writer holds `Store._lock` over its whole transaction
(`_transaction`); a reader takes it once for each of its two queries, and
anybody may write between them. The connection has one transaction for
everybody: what it has open is what every statement on it sees, so only the
lock keeps a reader from the rows of a writer that has not committed.

Any statement may raise: a writer then rolls back (`except Exception`) and
raises, a reader raises. A task that is cancelled is followed by `close()`,
which rolls back what is open (`Engine.stop`): that is the reset here.

Each operation is one step of a task, named by where the task stands. The
columns are kept as values: every `Decimal` and every `datetime` is written
as a text that reads back equal. `records` is kept to speak of the past: the
snapshots committed so far, in order, each with the id its row was given.
-/

namespace TradeDesk.Loops.Snapshots

open TradeDesk.Async

/-! ## The tables -/

/-- A row of `account_snapshots`. -/
structure AccountRow where
  id : ℕ
  accountHash : String
  readAt : Instant
  liquidationValue : ℚ
  cashAvailableForTrading : ℚ
  unsettledCash : ℚ
  cashBalance : ℚ
  cashCall : ℚ
  isClosingOnlyRestricted : ℤ
deriving DecidableEq, Repr

/-- A row of `position_snapshots`. -/
structure PositionRow where
  snapshotId : ℕ
  symbol : String
  assetType : String
  quantity : ℤ
  averagePrice : Option ℚ
  marketValue : ℚ
  dayPl : ℚ
  settledQuantity : ℤ
deriving DecidableEq, Repr

/-- Both tables, each in the order of its rowids. -/
structure Tables where
  accounts : List AccountRow
  positions : List PositionRow
deriving DecidableEq, Repr

/-- `int(s.is_closing_only_restricted)`. -/
def intOfBool (b : Bool) : ℤ := if b then 1 else 0

/-- The row of the first INSERT. -/
def accountRow (sid : ℕ) (s : AccountSnapshot) : AccountRow :=
  { id := sid, accountHash := s.accountHash, readAt := s.readAt,
    liquidationValue := s.liquidationValue,
    cashAvailableForTrading := s.cashAvailableForTrading, unsettledCash := s.unsettledCash,
    cashBalance := s.cashBalance, cashCall := s.cashCall,
    isClosingOnlyRestricted := intOfBool s.isClosingOnlyRestricted }

/-- A row of the second. -/
def positionRow (sid : ℕ) (p : Position) : PositionRow :=
  { snapshotId := sid, symbol := p.symbol, assetType := p.assetType, quantity := p.quantity,
    averagePrice := p.averagePrice, marketValue := p.marketValue, dayPl := p.dayPl,
    settledQuantity := p.settledQuantity }

/-- The id an `INTEGER PRIMARY KEY` gives the next row: one past the largest. -/
def Tables.nextId (t : Tables) : ℕ := (t.accounts.map (·.id)).foldr max 0 + 1

def Tables.insertAccount (t : Tables) (s : AccountSnapshot) : Tables :=
  { t with accounts := t.accounts ++ [accountRow t.nextId s] }

def Tables.insertPositions (t : Tables) (sid : ℕ) (ps : List Position) : Tables :=
  { t with positions := t.positions ++ ps.map (positionRow sid) }

/-- `ORDER BY id DESC LIMIT 1`. -/
def Tables.lastAccount (t : Tables) : Option AccountRow := t.accounts.argmax (·.id)

/-- `WHERE snapshot_id=?`. -/
def Tables.positionsOf (t : Tables) (sid : ℕ) : List PositionRow :=
  t.positions.filter (·.snapshotId == sid)

/-- What `latest_account` makes of a row and its positions. -/
def snapshotOf (row : AccountRow) (positions : List PositionRow) : AccountSnapshot :=
  { accountHash := row.accountHash, readAt := row.readAt,
    liquidationValue := row.liquidationValue,
    cashAvailableForTrading := row.cashAvailableForTrading, unsettledCash := row.unsettledCash,
    cashBalance := row.cashBalance, cashCall := row.cashCall,
    isClosingOnlyRestricted := row.isClosingOnlyRestricted != 0,
    positions := positions.map fun p =>
      { symbol := p.symbol, assetType := p.assetType, quantity := p.quantity,
        averagePrice := p.averagePrice, marketValue := p.marketValue, dayPl := p.dayPl,
        settledQuantity := p.settledQuantity } }

/-- Reading back what was written: a snapshot from its own rows. -/
@[simp] theorem snapshotOf_rows (sid sid' : ℕ) (s : AccountSnapshot) :
    snapshotOf (accountRow sid s) (s.positions.map (positionRow sid')) = s := by
  have hflag : (intOfBool s.isClosingOnlyRestricted != 0) = s.isClosingOnlyRestricted := by
    cases s.isClosingOnlyRestricted <;> rfl
  have hpos : ((s.positions.map (positionRow sid')).map fun p : PositionRow =>
      (⟨p.symbol, p.assetType, p.quantity, p.averagePrice, p.marketValue, p.dayPl,
        p.settledQuantity⟩ : Position)) = s.positions := by
    rw [List.map_map]
    exact List.map_id' s.positions
  show AccountSnapshot.mk _ _ _ _ _ _ _ _ _ = s
  rw [hpos]
  simp only [accountRow]
  rw [hflag]

/-! ## The connection -/

/-- What is committed, and what the open transaction has made of it. -/
structure Connection where
  tables : Tables
  work : Option Tables
deriving DecidableEq, Repr

namespace Connection

/-- What a statement on the connection sees. -/
def sees (c : Connection) : Tables := c.work.getD c.tables

/-- A statement that writes: inside the transaction, or committed by itself. -/
def write (c : Connection) (t : Tables) : Connection :=
  match c.work with
  | some _ => { c with work := some t }
  | none => { c with tables := t }

/-- `BEGIN`, an error inside a transaction. -/
def begin (c : Connection) : Option Connection :=
  match c.work with
  | some _ => none
  | none => some { c with work := some c.tables }

def commit (c : Connection) : Connection := ⟨c.sees, none⟩

def rollback (c : Connection) : Connection := { c with work := none }

end Connection

/-! ## The tasks -/

/-- A snapshot that was committed, and the id of its row. -/
structure Record where
  sid : ℕ
  snapshot : AccountSnapshot
deriving DecidableEq, Repr

/-- Where a call of `record_account` stands: what it does next. -/
inductive WriterStage where
  /-- `async with self._lock` -/
  | queued
  /-- `BEGIN` -/
  | begins
  /-- the INSERT of the account -/
  | insertsAccount
  /-- the INSERTs of the positions, after `asyncio.sleep(0)` -/
  | insertsPositions (sid : ℕ)
  /-- `COMMIT` -/
  | commits (sid : ℕ)
  /-- `ROLLBACK`, and the exception goes on -/
  | rollsBack
  /-- out of the lock, with the id or an exception -/
  | leaves (result : Option ℕ)
  | returned (sid : ℕ)
  | raised
deriving DecidableEq, Repr

/-- Where a call of `latest_account` stands. From its first query on, `seen`
are the snapshots committed when that was made. -/
inductive ReaderStage where
  | queued
  /-- the query for the account -/
  | selectsAccount
  /-- out of the lock, with the row or an exception -/
  | leavesAccount (result : Option (Option AccountRow)) (seen : List Record)
  | between (row : AccountRow) (seen : List Record)
  /-- the query for its positions -/
  | selectsPositions (row : AccountRow) (seen : List Record)
  | leavesPositions (result : Option AccountSnapshot) (seen : List Record)
  | returned (answer : Option AccountSnapshot) (seen : List Record)
  | raised
deriving DecidableEq, Repr

inductive Task where
  | recordAccount (s : AccountSnapshot) (stage : WriterStage)
  | latestAccount (stage : ReaderStage)
deriving DecidableEq, Repr

/-- The connection, the lock, and what was committed. -/
structure Shared where
  conn : Connection
  locked : Bool
  records : List Record
deriving DecidableEq, Repr

/-- How a statement goes: well, or it raises, an `executemany` perhaps with
some of its rows in already. -/
inductive Outcome where
  | ok
  | raises (rows : ℕ)
deriving DecidableEq, Repr

/-- The next operation of a `record_account(s)`. -/
def writerNext (s : AccountSnapshot) (o : Outcome) (w : Shared) :
    WriterStage → Option (WriterStage × Shared)
  | .queued => if w.locked then none else some (.begins, { w with locked := true })
  | .begins =>
    match o, w.conn.begin with
    | .ok, some c => some (.insertsAccount, { w with conn := c })
    -- outside the `try`: nothing to roll back
    | _, _ => some (.leaves none, w)
  | .insertsAccount =>
    match o with
    | .ok => some (.insertsPositions w.conn.sees.nextId,
        { w with conn := w.conn.write (w.conn.sees.insertAccount s) })
    | .raises _ => some (.rollsBack, w)
  | .insertsPositions sid =>
    match o with
    | .ok => some (.commits sid,
        { w with conn := w.conn.write (w.conn.sees.insertPositions sid s.positions) })
    | .raises rows =>
      let part := w.conn.sees.insertPositions sid (s.positions.take rows)
      some (.rollsBack, { w with conn := w.conn.write part })
  | .commits sid =>
    match o with
    | .ok => some (.leaves (some sid),
        { w with conn := w.conn.commit, records := w.records ++ [⟨sid, s⟩] })
    | .raises _ => some (.rollsBack, w)
  | .rollsBack => some (.leaves none, { w with conn := w.conn.rollback })
  | .leaves (some sid) => some (.returned sid, { w with locked := false })
  | .leaves none => some (.raised, { w with locked := false })
  | .returned _ | .raised => none

/-- The next operation of a `latest_account()`. -/
def readerNext (o : Outcome) (w : Shared) : ReaderStage → Option (ReaderStage × Shared)
  | .queued => if w.locked then none else some (.selectsAccount, { w with locked := true })
  | .selectsAccount =>
    match o with
    | .ok => some (.leavesAccount (some w.conn.sees.lastAccount) w.records, w)
    | .raises _ => some (.leavesAccount none w.records, w)
  | .leavesAccount (some (some row)) seen => some (.between row seen, { w with locked := false })
  | .leavesAccount (some none) seen => some (.returned none seen, { w with locked := false })
  | .leavesAccount none _ => some (.raised, { w with locked := false })
  | .between row seen =>
    if w.locked then none else some (.selectsPositions row seen, { w with locked := true })
  | .selectsPositions row seen =>
    match o with
    | .ok =>
      some (.leavesPositions (some (snapshotOf row (w.conn.sees.positionsOf row.id))) seen, w)
    | .raises _ => some (.leavesPositions none seen, w)
  | .leavesPositions (some a) seen => some (.returned (some a) seen, { w with locked := false })
  | .leavesPositions none _ => some (.raised, { w with locked := false })
  | .returned _ _ | .raised => none

def Task.next (o : Outcome) (t : Task) (w : Shared) : Option (Task × Shared) :=
  match t with
  | .recordAccount s stage =>
    (writerNext s o w stage).map fun x => (.recordAccount s x.1, x.2)
  | .latestAccount stage => (readerNext o w stage).map fun x => (.latestAccount x.1, x.2)

/-- Inside `async with self._lock`. -/
def Task.holds : Task → Bool
  | .recordAccount _ .queued | .recordAccount _ (.returned _) | .recordAccount _ .raised => false
  | .recordAccount _ _ => true
  | .latestAccount .queued | .latestAccount (.between _ _) | .latestAccount (.returned _ _)
  | .latestAccount .raised => false
  | .latestAccount _ => true

inductive Call where
  | recordAccount (s : AccountSnapshot)
  | latestAccount
deriving DecidableEq, Repr

def Call.task : Call → Task
  | .recordAccount s => .recordAccount s .queued
  | .latestAccount => .latestAccount .queued

/-- One `Store`: the tasks on it, and `close()` with the `open()` after it. -/
def store : Mutex Call Outcome Shared Task where
  start := Call.task
  next := Task.next
  holds := Task.holds
  locked := (·.locked)
  reset w := { w with conn := w.conn.rollback, locked := false }

/-- A new database. -/
def Shared.empty : Shared := ⟨⟨⟨[], []⟩, none⟩, false, []⟩

/-- The store after these calls and operations, in this order. -/
def after (turns : List (Turn Call Outcome)) : Option (Crowd Shared Task) :=
  store.run ⟨Shared.empty, []⟩ turns

/-! ## What the tables hold -/

/-- The tables hold these snapshots, one after another, and nothing else. -/
structure Holds (t : Tables) (rs : List Record) : Prop where
  accounts : t.accounts = rs.map fun r => accountRow r.sid r.snapshot
  positions : t.positions = rs.flatMap fun r => r.snapshot.positions.map (positionRow r.sid)
  sorted : rs.Pairwise fun a b => a.sid < b.sid

section

variable {t : Tables} {rs : List Record} {r : Record}

theorem holds_empty : Holds ⟨[], []⟩ [] := ⟨rfl, rfl, List.Pairwise.nil⟩

private theorem le_foldr_max {n : ℕ} {l : List ℕ} (h : n ∈ l) : n ≤ l.foldr max 0 := by
  induction l with
  | nil => cases h
  | cons m l ih =>
    rw [List.foldr_cons]
    rcases List.mem_cons.mp h with rfl | h
    · exact le_max_left _ _
    · exact le_max_of_le_right (ih h)

theorem Holds.lt_nextId (h : Holds t rs) (hr : r ∈ rs) : r.sid < t.nextId := by
  have hmem : r.sid ∈ t.accounts.map (·.id) := by
    rw [h.accounts, List.map_map]
    exact List.mem_map.mpr ⟨r, hr, rfl⟩
  exact Nat.lt_succ_of_le (le_foldr_max hmem)

/-- What a whole transaction of a writer adds. -/
theorem Holds.record (h : Holds t rs) (s : AccountSnapshot) :
    Holds ((t.insertAccount s).insertPositions t.nextId s.positions)
      (rs ++ [⟨t.nextId, s⟩]) := by
  refine ⟨?_, ?_, ?_⟩
  · show t.accounts ++ [accountRow t.nextId s] = _
    rw [h.accounts, List.map_append]
    rfl
  · show t.positions ++ s.positions.map (positionRow t.nextId) = _
    rw [h.positions, List.flatMap_append]
    simp
  · refine List.pairwise_append.mpr ⟨h.sorted, List.pairwise_singleton _ _, ?_⟩
    intro r hr r' hr'
    obtain rfl := List.mem_singleton.mp hr'
    exact h.lt_nextId hr

/-- The row with the largest id is that of the snapshot committed last. -/
theorem Holds.lastAccount (h : Holds t rs) :
    t.lastAccount = rs.getLast?.map fun r => accountRow r.sid r.snapshot := by
  unfold Tables.lastAccount
  rw [h.accounts]
  rcases List.eq_nil_or_concat rs with rfl | ⟨front, r, rfl⟩
  · rfl
  · have hsorted := h.sorted
    rw [List.concat_eq_append] at hsorted ⊢
    rw [List.map_append, List.map_singleton, List.argmax_concat, List.getLast?_concat]
    cases hm : (front.map fun r => accountRow r.sid r.snapshot).argmax (·.id) with
    | none => rfl
    | some row =>
      obtain ⟨a, ha, rfl⟩ := List.mem_map.mp (List.argmax_mem hm)
      have hlt : a.sid < r.sid :=
        (List.pairwise_append.mp hsorted).2.2 a ha r (List.mem_singleton.mpr rfl)
      exact if_pos hlt

private theorem filter_rows_ne {sid : ℕ} (h : r.sid ≠ sid) :
    (r.snapshot.positions.map (positionRow r.sid)).filter (·.snapshotId == sid) = [] := by
  refine List.filter_eq_nil_iff.mpr fun p hp => ?_
  obtain ⟨x, _, rfl⟩ := List.mem_map.mp hp
  simpa [positionRow] using h

private theorem filter_rows_self :
    (r.snapshot.positions.map (positionRow r.sid)).filter (·.snapshotId == r.sid) =
      r.snapshot.positions.map (positionRow r.sid) := by
  refine List.filter_eq_self.mpr fun p hp => ?_
  obtain ⟨x, _, rfl⟩ := List.mem_map.mp hp
  simp [positionRow]

/-- The positions stored under a snapshot's id are its own, in its order. -/
theorem Holds.positionsOf (h : Holds t rs) (hr : r ∈ rs) :
    t.positionsOf r.sid = r.snapshot.positions.map (positionRow r.sid) := by
  have hrows : ∀ l : List Record, (∀ a ∈ l, a.sid ≠ r.sid) →
      (l.flatMap fun r => r.snapshot.positions.map (positionRow r.sid)).filter
        (·.snapshotId == r.sid) = [] := by
    intro l hl
    rw [List.filter_flatMap, List.flatMap_eq_nil_iff]
    exact fun a ha => filter_rows_ne (hl a ha)
  obtain ⟨front, back, rfl⟩ := List.append_of_mem hr
  have hs := List.pairwise_append.mp h.sorted
  unfold Tables.positionsOf
  rw [h.positions, List.flatMap_append, List.flatMap_cons, List.filter_append,
    List.filter_append, filter_rows_self]
  rw [hrows front fun a ha => Nat.ne_of_lt (hs.2.2 a ha r List.mem_cons_self)]
  rw [hrows back fun a ha => Nat.ne_of_gt (List.rel_of_pairwise_cons hs.2.1 ha)]
  simp

end

/-! ## What each task knows -/

/-- The row is that of the snapshot last committed among those seen. -/
def Saw (w : Shared) (row : AccountRow) (seen : List Record) : Prop :=
  seen <+: w.records ∧ ∃ r, seen.getLast? = some r ∧ row = accountRow r.sid r.snapshot

/-- The answer is the snapshot last committed among those seen. -/
def Answers (w : Shared) (answer : Option AccountSnapshot) (seen : List Record) : Prop :=
  seen <+: w.records ∧ answer = seen.getLast?.map (·.snapshot)

def writerKnows (s : AccountSnapshot) (w : Shared) : WriterStage → Prop
  | .queued | .raised | .rollsBack => True
  | .begins | .leaves none => w.conn.work = none
  | .insertsAccount => w.conn.work = some w.conn.tables
  | .insertsPositions sid =>
    sid = w.conn.tables.nextId ∧ w.conn.work = some (w.conn.tables.insertAccount s)
  | .commits sid =>
    sid = w.conn.tables.nextId ∧
      w.conn.work = some ((w.conn.tables.insertAccount s).insertPositions sid s.positions)
  | .leaves (some sid) => w.conn.work = none ∧ ⟨sid, s⟩ ∈ w.records
  | .returned sid => ⟨sid, s⟩ ∈ w.records

def readerKnows (w : Shared) : ReaderStage → Prop
  | .queued | .raised => True
  | .selectsAccount | .leavesAccount none _ | .leavesPositions none _ => w.conn.work = none
  | .leavesAccount (some none) seen => w.conn.work = none ∧ Answers w none seen
  | .leavesAccount (some (some row)) seen | .selectsPositions row seen =>
    w.conn.work = none ∧ Saw w row seen
  | .between row seen => Saw w row seen
  | .leavesPositions (some a) seen => w.conn.work = none ∧ Answers w (some a) seen
  | .returned a seen => Answers w a seen

def Task.Knows (t : Task) (w : Shared) : Prop :=
  match t with
  | .recordAccount s stage => writerKnows s w stage
  | .latestAccount stage => readerKnows w stage

/-- What is committed is the snapshots in `records`. -/
def Shared.Stored (w : Shared) : Prop := Holds w.conn.tables w.records

/-- No transaction is open. -/
def Shared.Idle (w : Shared) : Prop := w.conn.work = none

/-- Nothing committed is lost or changed. -/
def Shared.Grows (w w' : Shared) : Prop := w.records <+: w'.records

/-! ## One operation -/

section

variable {o : Outcome} {w w' : Shared} {t t' : Task} {s : AccountSnapshot}

/-- A writer keeps the tables as they are until it commits, and then adds its
snapshot whole. -/
private theorem writer_step {stage stage' : WriterStage}
    (h : writerNext s o w stage = some (stage', w')) (hI : w.Stored) (hK : writerKnows s w stage)
    (hF : (Task.recordAccount s stage).holds = false → w.Idle)
    (hL : (Task.recordAccount s stage).holds = true → w.locked = true) :
    w'.Stored ∧ writerKnows s w' stage' ∧ w.Grows w' ∧
      ((Task.recordAccount s stage').holds = true → w'.locked = true) ∧
      ((Task.recordAccount s stage').holds = false → w'.Idle) := by
  cases stage with
  | queued =>
    simp only [writerNext] at h
    split at h
    · cases h
    · cases h
      exact ⟨hI, hF rfl, List.prefix_rfl, fun _ => rfl, fun hh => by cases hh⟩
  | begins =>
    have hwork : w.conn.work = none := hK
    simp only [writerNext, Connection.begin, hwork] at h
    cases o with
    | ok =>
      cases h
      exact ⟨hI, rfl, List.prefix_rfl, hL, fun hh => by cases hh⟩
    | raises k =>
      cases h
      exact ⟨hI, hwork, List.prefix_rfl, hL, fun hh => by cases hh⟩
  | insertsAccount =>
    have hwork : w.conn.work = some w.conn.tables := hK
    simp only [writerNext, Connection.write, Connection.sees, hwork, Option.getD_some] at h
    cases o with
    | ok =>
      cases h
      exact ⟨hI, ⟨rfl, rfl⟩, List.prefix_rfl, hL, fun hh => by cases hh⟩
    | raises k =>
      cases h
      exact ⟨hI, trivial, List.prefix_rfl, hL, fun hh => by cases hh⟩
  | insertsPositions sid =>
    obtain ⟨rfl, hwork⟩ := hK
    simp only [writerNext, Connection.write, Connection.sees, hwork, Option.getD_some] at h
    cases o with
    | ok =>
      cases h
      exact ⟨hI, ⟨rfl, rfl⟩, List.prefix_rfl, hL, fun hh => by cases hh⟩
    | raises k =>
      cases h
      exact ⟨hI, trivial, List.prefix_rfl, hL, fun hh => by cases hh⟩
  | commits sid =>
    obtain ⟨rfl, hwork⟩ := hK
    simp only [writerNext, Connection.commit, Connection.sees, hwork, Option.getD_some] at h
    cases o with
    | ok =>
      cases h
      exact ⟨Holds.record hI s, ⟨rfl, List.mem_append_right _ List.mem_cons_self⟩,
        List.prefix_append _ _, hL, fun hh => by cases hh⟩
    | raises k =>
      cases h
      exact ⟨hI, trivial, List.prefix_rfl, hL, fun hh => by cases hh⟩
  | rollsBack =>
    cases h
    exact ⟨hI, rfl, List.prefix_rfl, hL, fun hh => by cases hh⟩
  | leaves r =>
    cases r with
    | some sid =>
      obtain ⟨hwork, hmem⟩ := hK
      cases h
      exact ⟨hI, hmem, List.prefix_rfl, (fun hh => by cases hh), fun _ => hwork⟩
    | none =>
      cases h
      exact ⟨hI, trivial, List.prefix_rfl, (fun hh => by cases hh), fun _ => hK⟩
  | returned sid => cases h
  | raised => cases h

/-- The query for the account answers with the snapshot committed last. -/
private theorem saw_lastAccount (hI : w.Stored) (hwork : w.conn.work = none) :
    readerKnows w (.leavesAccount (some w.conn.sees.lastAccount) w.records) := by
  have hsees : w.conn.sees = w.conn.tables := by
    simp only [Connection.sees, hwork, Option.getD_none]
  rw [hsees, Holds.lastAccount hI]
  cases hlast : w.records.getLast? with
  | none =>
    refine ⟨hwork, List.prefix_rfl, ?_⟩
    rw [hlast]
    rfl
  | some r => exact ⟨hwork, List.prefix_rfl, r, hlast, rfl⟩

/-- The query for its positions finds all of them and no others, whatever was
committed in between. -/
private theorem answers_positions {row : AccountRow} {seen : List Record} (hI : w.Stored)
    (hwork : w.conn.work = none) (hsaw : Saw w row seen) :
    Answers w (some (snapshotOf row (w.conn.sees.positionsOf row.id))) seen := by
  obtain ⟨hpre, r, hlast, rfl⟩ := hsaw
  have hsees : w.conn.sees = w.conn.tables := by
    simp only [Connection.sees, hwork, Option.getD_none]
  have hmem : r ∈ w.records := hpre.subset (List.mem_of_getLast? hlast)
  refine ⟨hpre, ?_⟩
  rw [hsees, hlast]
  show some (snapshotOf _ (w.conn.tables.positionsOf r.sid)) = some r.snapshot
  rw [Holds.positionsOf hI hmem, snapshotOf_rows]

/-- A reader changes nothing, and sees only what is committed. -/
private theorem reader_step {stage stage' : ReaderStage}
    (h : readerNext o w stage = some (stage', w')) (hI : w.Stored) (hK : readerKnows w stage)
    (hF : (Task.latestAccount stage).holds = false → w.Idle)
    (hL : (Task.latestAccount stage).holds = true → w.locked = true) :
    w'.Stored ∧ readerKnows w' stage' ∧ w.Grows w' ∧
      ((Task.latestAccount stage').holds = true → w'.locked = true) ∧
      ((Task.latestAccount stage').holds = false → w'.Idle) := by
  cases stage with
  | queued =>
    simp only [readerNext] at h
    split at h
    · cases h
    · cases h
      exact ⟨hI, hF rfl, List.prefix_rfl, fun _ => rfl, fun hh => by cases hh⟩
  | selectsAccount =>
    cases o with
    | ok =>
      cases h
      exact ⟨hI, saw_lastAccount hI hK, List.prefix_rfl, hL, fun hh => by cases hh⟩
    | raises k =>
      cases h
      exact ⟨hI, hK, List.prefix_rfl, hL, fun hh => by cases hh⟩
  | leavesAccount r seen =>
    match r with
    | some (some row) =>
      cases h
      exact ⟨hI, hK.2, List.prefix_rfl, (fun hh => by cases hh), fun _ => hK.1⟩
    | some none =>
      cases h
      exact ⟨hI, hK.2, List.prefix_rfl, (fun hh => by cases hh), fun _ => hK.1⟩
    | none =>
      cases h
      exact ⟨hI, trivial, List.prefix_rfl, (fun hh => by cases hh), fun _ => hK⟩
  | between row seen =>
    simp only [readerNext] at h
    split at h
    · cases h
    · cases h
      exact ⟨hI, ⟨hF rfl, hK⟩, List.prefix_rfl, fun _ => rfl, fun hh => by cases hh⟩
  | selectsPositions row seen =>
    cases o with
    | ok =>
      cases h
      exact ⟨hI, ⟨hK.1, answers_positions hI hK.1 hK.2⟩, List.prefix_rfl, hL,
        fun hh => by cases hh⟩
    | raises k =>
      cases h
      exact ⟨hI, hK.1, List.prefix_rfl, hL, fun hh => by cases hh⟩
  | leavesPositions r seen =>
    cases r with
    | some a =>
      cases h
      exact ⟨hI, hK.2, List.prefix_rfl, (fun hh => by cases hh), fun _ => hK.1⟩
    | none =>
      cases h
      exact ⟨hI, trivial, List.prefix_rfl, (fun hh => by cases hh), fun _ => hK⟩
  | returned a seen => cases h
  | raised => cases h

private theorem writer_records {stage stage' : WriterStage}
    (h : writerNext s o w stage = some (stage', w')) :
    w'.records = w.records ∨ ∃ sid, w'.records = w.records ++ [⟨sid, s⟩] := by
  unfold writerNext at h
  split at h <;> try split at h
  all_goals first
    | cases h; exact Or.inl rfl
    | cases h; exact Or.inr ⟨_, rfl⟩
    | cases h

private theorem reader_records {stage stage' : ReaderStage}
    (h : readerNext o w stage = some (stage', w')) : w'.records = w.records := by
  unfold readerNext at h
  split at h <;> try split at h
  all_goals cases h
  all_goals rfl

/-- A task waits unless it holds the lock. -/
private theorem next_waits (h : t.next o w = some (t', w')) (hh : t.holds = false) :
    w.locked = false := by
  cases hl : w.locked with
  | false => rfl
  | true =>
    rcases t with ⟨s, stage⟩ | stage
    · obtain ⟨x, hx, _⟩ := Option.map_eq_some_iff.mp h
      cases stage <;> simp_all [Task.holds, writerNext]
    · obtain ⟨x, hx, _⟩ := Option.map_eq_some_iff.mp h
      cases stage <;> simp_all [Task.holds, readerNext]

private theorem knows_stable (hh : t.holds = false) (hR : w.Grows w') (hK : t.Knows w) :
    t.Knows w' := by
  cases t with
  | recordAccount s stage =>
    cases stage with
    | queued => trivial
    | raised => trivial
    | returned sid => exact hR.subset hK
    | begins | insertsAccount | insertsPositions sid | commits sid | rollsBack | leaves r =>
      cases hh
  | latestAccount stage =>
    cases stage with
    | queued => trivial
    | raised => trivial
    | between row seen => exact ⟨hK.1.trans hR, hK.2⟩
    | returned a seen => exact ⟨hK.1.trans hR, hK.2⟩
    | selectsAccount | leavesAccount r seen | selectsPositions row seen | leavesPositions r seen =>
      cases hh

end

/-- Every operation keeps to what the lock is for. -/
theorem store_discipline :
    Discipline store Shared.Stored Shared.Idle Task.Knows Shared.Grows where
  start c w := by cases c <;> exact ⟨rfl, trivial⟩
  waits o t w t' w' h hh := next_waits h hh
  step o t w t' w' h hI hK hF hL := by
    cases t with
    | recordAccount s stage =>
      obtain ⟨x, hx, he⟩ := Option.map_eq_some_iff.mp h
      cases he
      exact writer_step hx hI hK hF hL
    | latestAccount stage =>
      obtain ⟨x, hx, he⟩ := Option.map_eq_some_iff.mp h
      cases he
      exact reader_step hx hI hK hF hL
  stable t w w' hh hR hK := knows_stable hh hR hK
  reset w hI := ⟨hI, rfl⟩

/-! ## Every run -/

/-- A snapshot is committed by a call that was made with it. -/
private theorem records_called {turns : List (Turn Call Outcome)} {s : Crowd Shared Task}
    (h : after turns = some s) :
    (∀ r ∈ s.shared.records, Turn.call (.recordAccount r.snapshot) ∈ turns) ∧
      ∀ a stage, Task.recordAccount a stage ∈ s.tasks →
        Turn.call (.recordAccount a) ∈ turns := by
  refine Mutex.run_induction (P := fun s : Crowd Shared Task =>
    (∀ r ∈ s.shared.records, Turn.call (.recordAccount r.snapshot) ∈ turns) ∧
      ∀ a stage, Task.recordAccount a stage ∈ s.tasks →
        Turn.call (.recordAccount a) ∈ turns) ?_ ?_ h
  · intro s turn s' hturn ⟨hrec, htask⟩ hs'
    cases turn with
    | call c =>
      cases hs'
      refine ⟨hrec, fun a stage hmem => ?_⟩
      rcases List.mem_append.mp hmem with hmem | hmem
      · exact htask a stage hmem
      · cases c with
        | recordAccount b =>
          cases List.mem_singleton.mp hmem
          exact hturn
        | latestAccount => cases List.mem_singleton.mp hmem
    | reset =>
      cases hs'
      exact ⟨hrec, fun a stage hmem => by cases hmem⟩
    | step i o =>
      obtain ⟨t, t', w, ht, hn, rfl⟩ := Mutex.turn_step hs'
      have hmem := List.mem_of_getElem? ht
      cases t with
      | recordAccount b stage =>
        obtain ⟨x, hx, he⟩ := Option.map_eq_some_iff.mp hn
        cases he
        have hb := htask b stage hmem
        refine ⟨fun r hr => ?_, fun a stage' hmem' => ?_⟩
        · rcases writer_records hx with hsame | ⟨sid, hnew⟩
          · exact hrec r (hsame ▸ hr)
          · rw [hnew] at hr
            rcases List.mem_append.mp hr with hr | hr
            · exact hrec r hr
            · cases List.mem_singleton.mp hr
              exact hb
        · rcases List.mem_or_eq_of_mem_set hmem' with hmem' | he
          · exact htask a stage' hmem'
          · cases he
            exact hb
      | latestAccount stage =>
        obtain ⟨x, hx, he⟩ := Option.map_eq_some_iff.mp hn
        cases he
        refine ⟨fun r hr => hrec r (reader_records hx ▸ hr), fun a stage' hmem' => ?_⟩
        rcases List.mem_or_eq_of_mem_set hmem' with hmem' | he
        · exact htask a stage' hmem'
        · cases he
  · exact ⟨(fun r hr => by cases hr), fun a stage hmem => by cases hmem⟩

/-- **Snapshots are never torn.** In whatever order any calls are made and
go on, and whichever statements raise: what a reader answers is the snapshot
committed last when it made its first query, as `record_account` was given
it, and the snapshots committed by then are all still stored. -/
theorem latestAccount_notTorn (turns : List (Turn Call Outcome)) (s : Crowd Shared Task)
    (h : after turns = some s) :
    (s.shared.records.map (·.sid)).Nodup ∧
      (∀ r ∈ s.shared.records, Turn.call (.recordAccount r.snapshot) ∈ turns) ∧
      ∀ answer seen, Task.latestAccount (.returned answer seen) ∈ s.tasks →
        seen <+: s.shared.records ∧ answer = seen.getLast?.map (·.snapshot) := by
  have hs := store_discipline.run (w := Shared.empty) holds_empty rfl h
  refine ⟨?_, (records_called h).1, fun answer seen hmem => ?_⟩
  · exact List.Pairwise.map _ (fun a b hab => Nat.ne_of_lt hab) hs.inv.sorted
  · obtain ⟨i, hi⟩ := List.mem_iff_getElem?.mp hmem
    exact hs.knows i _ hi

/-- A snapshot of one position. -/
private def tesla (shares : ℤ) : AccountSnapshot :=
  { accountHash := "H", readAt := 0, liquidationValue := 1000, cashAvailableForTrading := 100,
    unsettledCash := 0, cashBalance := 100, cashCall := 0, isClosingOnlyRestricted := false,
    positions := [⟨"TSLA", "EQUITY", shares, none, 900, 0, shares⟩] }

private def goesOn (i n : ℕ) : List (Turn Call Outcome) := List.replicate n (.step i .ok)

/-- One snapshot is committed, a reader makes its first query, and before its
second another snapshot is committed and a third is rolled back with its
positions half in. -/
private def interleaving : List (Turn Call Outcome) :=
  List.flatten [
    [.call (.recordAccount (tesla 1)), .call .latestAccount, .call (.recordAccount (tesla 2)),
      .call (.recordAccount (tesla 3))],
    goesOn 0 6, goesOn 1 3, goesOn 2 6, goesOn 3 3, [.step 3 (.raises 1)], goesOn 3 2,
    goesOn 1 3]

private theorem interleaving_runs : (after interleaving).isSome = true := by decide +kernel

theorem latestAccount_notTorn_interleaved :
    ∃ s, after interleaving = some s ∧
      Task.latestAccount (.returned (some (tesla 1)) [⟨1, tesla 1⟩]) ∈ s.tasks ∧
      [⟨1, tesla 1⟩] <+: s.shared.records ∧
      s.shared.records = [⟨1, tesla 1⟩, ⟨2, tesla 2⟩] := by
  have hrun : after interleaving = some ((after interleaving).get interleaving_runs) :=
    (Option.some_get interleaving_runs).symm
  have hmem : Task.latestAccount (.returned (some (tesla 1)) [⟨1, tesla 1⟩]) ∈
      ((after interleaving).get interleaving_runs).tasks := by
    decide +kernel
  refine ⟨_, hrun, hmem, ((latestAccount_notTorn interleaving _ hrun).2.2 _ _ hmem).1, ?_⟩
  decide +kernel

end TradeDesk.Loops.Snapshots
