import Tethys.Lib.Materialize
import Tethys.Lib.Results
import Tethys.Schema.Store
import Mathlib.Algebra.Group.Nat.Defs
import Mathlib.Algebra.Group.Int.Defs

/-!
# Event log tables

The tables of `tethys-store/src/migrations.rs` and the operations of
`tethys-store/src/schema.rs` on them. Each SQL statement is a function on the database;
`Faults` says which statements fail for reasons outside the tables (a busy database, the
disk), so that a batch can fail at any of them.
-/

namespace Tethys.Store

open Lib Schema.Store

/-- Errors the modelled operations produce. -/
inductive StoreError where
  | busy
  | sqlite (message : String)
  deriving DecidableEq

structure WorkspaceRow where
  id : String
  rootPath : String
  isolation : String
  deriving DecidableEq

structure ThreadRow where
  id : String
  workspaceId : String
  latestSeq : Nat
  deriving DecidableEq

/-- A row of `entries`; `kind` is the text of the column. -/
structure EntryRow where
  threadId : String
  kind : String
  entryId : String
  firstSeq : Nat
  lastSeq : Nat
  turnIndex : Option Nat
  payload : String
  deriving DecidableEq

/-- The primary key of `entries`. -/
def EntryRow.key (row : EntryRow) : String × String × String :=
  (row.threadId, row.kind, row.entryId)

/-- The committed database. `lastEventId` is the `AUTOINCREMENT` counter of `events`: it never
passes the largest row id, so no thread can hold `2 ^ 63` events and the source's casts
between `u64` and `i64` keep every sequence number. -/
structure Db where
  workspaces : List WorkspaceRow
  threads : List ThreadRow
  events : List StoredEvent
  entries : List EntryRow
  lastEventId : Nat
  deriving DecidableEq

/-- The tables after the migrations. -/
def Db.empty : Db := ⟨[], [], [], [], 0⟩

def maxRowId : Nat := 2 ^ 63 - 1

/-- The `as i64` cast of a `u64`. -/
def asI64 (n : UInt64) : Int := if n.toNat < 2 ^ 63 then n.toNat else n.toNat - 2 ^ 64

/-! ### Statements -/

def noRows : StoreError := .sqlite "Query returned no rows"

def foreignKey : StoreError := .sqlite "FOREIGN KEY constraint failed"

namespace Db

/-- `SELECT latest_seq FROM threads WHERE id = ?1`, which must return a row. -/
def selectLatestSeq (db : Db) (thread : String) : Except StoreError Nat :=
  match lookup ThreadRow.id thread db.threads with
  | some row => .ok row.latestSeq
  | none => .error noRows

/-- `INSERT INTO events`; the id is the next one of the counter. -/
def insertEvent (db : Db) (thread : String) (seq : Nat) (eventType payload : String)
    (now : Int) : Except StoreError Db :=
  if db.events.any fun row => row.threadId = thread ∧ row.seq = seq then
    .error (.sqlite "UNIQUE constraint failed: events.thread_id, events.seq")
  else if maxRowId ≤ db.lastEventId then
    .error (.sqlite "database or disk is full")
  else if thread ∉ db.threads.map ThreadRow.id then .error foreignKey
  else
    let row := ⟨db.lastEventId + 1, thread, seq, eventType, payload, now⟩
    .ok { db with events := db.events ++ [row], lastEventId := db.lastEventId + 1 }

end Db

/-- The parameters of one run of the entry upsert. -/
structure Upsert where
  threadId : String
  seq : Nat
  entry : EntryUpsert
  deriving DecidableEq

namespace Upsert

def key (u : Upsert) : String × String × String :=
  (u.threadId, u.entry.kind.asStr, u.entry.entryId)

/-- `ON CONFLICT DO UPDATE`: the first sequence number stays, a null turn index keeps the
old one. -/
def update (u : Upsert) (row : EntryRow) : EntryRow :=
  { row with
    lastSeq := u.seq
    turnIndex := u.entry.turnIndex.or row.turnIndex
    payload := u.entry.payload }

/-- The row the `INSERT` puts when there is no conflict. -/
def row (u : Upsert) : EntryRow where
  threadId := u.threadId
  kind := u.entry.kind.asStr
  entryId := u.entry.entryId
  firstSeq := u.seq
  lastSeq := u.seq
  turnIndex := u.entry.turnIndex
  payload := u.entry.payload

end Upsert

/-- The upsert as a keyed reducer: it changes the row of its key or appends one. -/
def upserts : Reducer EntryRow (String × String × String) Upsert where
  key := EntryRow.key
  target u := some u.key
  touch u row := some (u.update row)
  fresh u := some u.row
  key_touch := by
    rintro u row _ ⟨rfl⟩
    rfl
  target_fresh := by
    rintro u _ ⟨rfl⟩
    rfl

namespace Db

/-- `INSERT INTO entries ... ON CONFLICT DO UPDATE`. -/
def upsertEntry (db : Db) (u : Upsert) : Except StoreError Db :=
  if u.threadId ∉ db.threads.map ThreadRow.id then .error foreignKey
  else .ok { db with entries := upserts.live db.entries u }

/-- `UPDATE threads SET latest_seq = ?1 WHERE id = ?2`. -/
def updateLatestSeq (db : Db) (thread : String) (seq : Nat) : Db :=
  { db with
    threads := db.threads.map fun row =>
      if row.id = thread then { row with latestSeq := seq } else row }

end Db

/-! ### Operations -/

/-- The statements of `append_batch`; the two in its loop carry the sequence number. -/
inductive Statement where
  | beginImmediate
  | selectLatestSeq
  | prepare
  | insertEvent (seq : Nat)
  | upsertEntry (seq : Nat)
  | updateLatestSeq
  | commit
  deriving DecidableEq

/-- Which statements fail for reasons outside the tables. -/
abbrev Faults := Statement → Option StoreError

def Faults.check (faults : Faults) (s : Statement) : Except StoreError Unit :=
  match faults s with
  | some e => .error e
  | none => .ok ()

namespace Db

/-- `INSERT OR IGNORE INTO workspaces`. -/
def ensureWorkspace (db : Db) (id rootPath isolation : String) : Db :=
  if id ∈ db.workspaces.map WorkspaceRow.id then db
  else { db with workspaces := db.workspaces ++ [⟨id, rootPath, isolation⟩] }

/-- `INSERT OR IGNORE INTO threads`; a violated foreign key is not ignored. -/
def ensureThread (db : Db) (thread workspaceId : String) : Db × Except StoreError Unit :=
  if thread ∈ db.threads.map ThreadRow.id then (db, .ok ())
  else if workspaceId ∉ db.workspaces.map WorkspaceRow.id then (db, .error foreignKey)
  else ({ db with threads := db.threads ++ [⟨thread, workspaceId, 0⟩] }, .ok ())

/-- The `if let Some(entry)` of the loop of `append_batch`. -/
def upsertOf (faults : Faults) (thread : String) (seq : Nat) (db : Db) :
    Option EntryUpsert → Except StoreError Db
  | some entry => do
    faults.check (.upsertEntry seq)
    db.upsertEntry ⟨thread, seq, entry⟩
  | none => .ok db

/-- The loop of `append_batch` over the events, with the last allocated number. -/
def appendRows (faults : Faults) (now : Nat → Int) (thread : String) :
    Nat → List NewEvent → Db → Except StoreError (Db × Nat)
  | seq, [], db => .ok (db, seq)
  | seq, event :: events, db => do
    let seq := seq + 1
    faults.check (.insertEvent seq)
    let db ← db.insertEvent thread seq event.kind event.payload (now seq)
    let db ← upsertOf faults thread seq db event.entry
    appendRows faults now thread seq events db

/-- The body of the transaction of `append_batch`, with the range it allocates. -/
def appendBody (faults : Faults) (now : Nat → Int) (thread : String) (events : List NewEvent)
    (db : Db) : Except StoreError (Db × SeqRange) := do
  faults.check .beginImmediate
  faults.check .selectLatestSeq
  let currentSeq ← db.selectLatestSeq thread
  faults.check .prepare
  let (db, seq) ← appendRows faults now thread currentSeq events db
  faults.check .updateLatestSeq
  let db := db.updateLatestSeq thread seq
  faults.check .commit
  .ok (db, ⟨currentSeq + 1, seq⟩)

/-- An immediate transaction: a body that fails drops it, which rolls it back. -/
def transaction {α : Type} (db : Db) (body : Db → Except StoreError (Db × α)) :
    Db × Except StoreError α :=
  match body db with
  | .ok (db', a) => (db', .ok a)
  | .error e => (db, .error e)

/-- Append a batch of events in one transaction, allocating sequence numbers from
`threads.latest_seq` and materializing entries. -/
def appendBatch (faults : Faults) (now : Nat → Int) (db : Db) (thread : String)
    (events : List NewEvent) : Db × Except StoreError SeqRange :=
  if events.isEmpty then
    (db, do
      faults.check .selectLatestSeq
      let currentSeq ← db.selectLatestSeq thread
      .ok ⟨currentSeq, currentSeq⟩)
  else db.transaction (appendBody faults now thread events)

/-- Events after `sinceSeq`, oldest first. -/
def readEventsSince (db : Db) (thread : String) (sinceSeq : UInt64) (limit : UInt32) :
    List StoredEvent :=
  ((db.events.filter fun row => row.threadId = thread ∧ asI64 sinceSeq < row.seq).mergeSort
    fun a b => a.seq ≤ b.seq).take limit.toNat

end Db

end Tethys.Store
