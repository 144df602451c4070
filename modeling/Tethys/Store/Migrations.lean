import Tethys.Lib.Ddl
import Tethys.Lib.Runs
import Mathlib.Data.Prod.Basic

/-!
# Migrations of the store

`tethys-store/src/migrations.rs`: the four migrations as statements, and the calls that migrate a
connection. `Archive` says what they are for: the store's tables under names of their own, which
keep their rows whatever SQL calls them, until a version is chosen that lacks them.
-/

namespace Tethys.Store

open Lib Lib.Ddl

namespace Migrations

def projectsTable : TableDef where
  columns := [
    ⟨"id", "TEXT PRIMARY KEY", none⟩,
    ⟨"root_path", "TEXT NOT NULL", none⟩,
    ⟨"isolation", "TEXT NOT NULL", none⟩]
  keys := []

def threadsTable : TableDef where
  columns := [
    ⟨"id", "TEXT PRIMARY KEY", none⟩,
    ⟨"project_id", "TEXT NOT NULL ON DELETE CASCADE", some ⟨"projects", "id"⟩⟩,
    ⟨"latest_seq", "INTEGER NOT NULL DEFAULT 0", none⟩]
  keys := []

def eventsTable : TableDef where
  columns := [
    ⟨"id", "INTEGER PRIMARY KEY AUTOINCREMENT", none⟩,
    ⟨"thread_id", "TEXT NOT NULL ON DELETE CASCADE", some ⟨"threads", "id"⟩⟩,
    ⟨"seq", "INTEGER NOT NULL", none⟩,
    ⟨"event_type", "TEXT NOT NULL", none⟩,
    ⟨"payload", "TEXT NOT NULL", none⟩,
    ⟨"created_at", "INTEGER NOT NULL", none⟩]
  keys := [⟨"UNIQUE", ["thread_id", "seq"]⟩]

def entriesTable : TableDef where
  columns := [
    ⟨"thread_id", "TEXT NOT NULL ON DELETE CASCADE", some ⟨"threads", "id"⟩⟩,
    ⟨"kind", "TEXT NOT NULL", none⟩,
    ⟨"entry_id", "TEXT NOT NULL", none⟩,
    ⟨"first_seq", "INTEGER NOT NULL", none⟩,
    ⟨"last_seq", "INTEGER NOT NULL", none⟩,
    ⟨"turn_index", "INTEGER", none⟩,
    ⟨"payload", "TEXT NOT NULL", none⟩]
  keys := [⟨"PRIMARY KEY", ["thread_id", "kind", "entry_id"]⟩]

def projectionsTable : TableDef where
  columns := [
    ⟨"target", "TEXT NOT NULL", none⟩,
    ⟨"path", "TEXT NOT NULL", none⟩,
    ⟨"scope", "TEXT NOT NULL", none⟩,
    ⟨"file_hash", "TEXT NOT NULL", none⟩,
    ⟨"created", "INTEGER NOT NULL DEFAULT 0", none⟩,
    ⟨"updated_at", "INTEGER NOT NULL", none⟩,
    ⟨"entries", "TEXT NOT NULL", none⟩]
  keys := [⟨"PRIMARY KEY", ["target", "path"]⟩]

def skillsStateTable : TableDef where
  columns := [
    ⟨"skill_id", "TEXT PRIMARY KEY", none⟩,
    ⟨"scope", "TEXT NOT NULL", none⟩,
    ⟨"name", "TEXT NOT NULL", none⟩,
    ⟨"source", "TEXT NOT NULL", none⟩,
    ⟨"pinned_sha", "TEXT", none⟩,
    ⟨"content_hash", "TEXT NOT NULL", none⟩,
    ⟨"trusted_hash", "TEXT", none⟩,
    ⟨"enabled", "INTEGER NOT NULL DEFAULT 1", none⟩,
    ⟨"requires_trust", "INTEGER NOT NULL DEFAULT 0", none⟩]
  keys := [⟨"UNIQUE", ["scope", "name"]⟩]

def migrations : List Migration := [
  { up := [
      .createTable "projects" projectsTable,
      .createTable "threads" threadsTable,
      .createTable "events" eventsTable,
      .createIndex "idx_events_thread_seq" ⟨"events", ["thread_id", "seq"]⟩,
      .createIndex "idx_threads_project" ⟨"threads", ["project_id"]⟩]
    down := [
      .dropIndex "idx_threads_project",
      .dropIndex "idx_events_thread_seq",
      .dropTable "events",
      .dropTable "threads",
      .dropTable "projects"] },
  { up := [
      .createTable "entries" entriesTable,
      .createIndex "idx_entries_thread_first_seq" ⟨"entries", ["thread_id", "first_seq"]⟩]
    down := [
      .dropIndex "idx_entries_thread_first_seq",
      .dropTable "entries"] },
  { up := [
      .createTable "projections" projectionsTable,
      .createTable "skills_state" skillsStateTable]
    down := [
      .dropTable "skills_state",
      .dropTable "projections"] },
  { up := [
      .renameTable "projects" "workspaces",
      .renameColumn "threads" "project_id" "workspace_id",
      .dropIndex "idx_threads_project",
      .createIndex "idx_threads_workspace" ⟨"threads", ["workspace_id"]⟩]
    down := [
      .dropIndex "idx_threads_workspace",
      .renameColumn "threads" "workspace_id" "project_id",
      .renameTable "workspaces" "projects",
      .createIndex "idx_threads_project" ⟨"threads", ["project_id"]⟩] }]

/-- The schema of a version, as its migrations build it. -/
def schemaAt : Nat → Schema := built migrations

inductive StoreTable where
  | workspaces | threads | events | entries | projections | skillsState
  deriving DecidableEq

namespace StoreTable

def all : List StoreTable := [.workspaces, .threads, .events, .entries, .projections, .skillsState]

/-- The version that introduces the table. -/
def since : StoreTable → Nat
  | .workspaces | .threads | .events => 1
  | .entries => 2
  | .projections | .skillsState => 3

def sqlName (version : Nat) : StoreTable → String
  | .workspaces => if version < 4 then "projects" else "workspaces"
  | .threads => "threads"
  | .events => "events"
  | .entries => "entries"
  | .projections => "projections"
  | .skillsState => "skills_state"

end StoreTable

/-- The table that SQL calls so. -/
def tableNamed (version : Nat) (name : String) : Option StoreTable :=
  StoreTable.all.find? fun x => x.since ≤ version ∧ x.sqlName version = name

/-! ## Connections -/

/-- What can go wrong besides: a pragma, or a statement of the transaction. -/
inductive MigrateFault where
  | foreignKeysOff | transaction | foreignKeysOn
  deriving DecidableEq

/-- `StoreError::Migration`, or the error of a pragma. -/
inductive MigrateError where
  | migration | database
  deriving DecidableEq

structure Connection (V : Type) where
  db : Database V
  foreignKeys : Bool

inductive ConnectionAct (V : Type) where
  | migrateToVersion (version : Nat) (fault : Option MigrateFault)
  | migrateToLatest (fault : Option MigrateFault)
  /-- Any change of the rows of the tables that are there. -/
  | write (rows : StoreTable → List (List V))

namespace Connection

variable {V : Type}

def new (foreignKeys : Bool) : Connection V := ⟨.empty, foreignKeys⟩

/-- An error leaves the function before the last pragma. -/
def migrateToVersion (c : Connection V) (version : Nat) (fault : Option MigrateFault) :
    Except MigrateError Unit × Connection V :=
  if fault = some .foreignKeysOff then (.error .database, c)
  else
    match if fault = some .transaction then none else c.db.toVersion migrations version with
    | none => (.error .migration, { c with foreignKeys := false })
    | some db =>
      if fault = some .foreignKeysOn then (.error .database, ⟨db, false⟩) else (.ok (), ⟨db, true⟩)

def migrateToLatest (c : Connection V) (fault : Option MigrateFault) :
    Except MigrateError Unit × Connection V :=
  c.migrateToVersion migrations.length fault

def verifySchemaVersion (c : Connection V) : Except MigrateError Unit :=
  let pending : Int := migrations.length - c.db.version
  if pending ≠ 0 then .error .migration else .ok ()

def written (c : Connection V) (rows : StoreTable → List (List V)) : Connection V :=
  { c with db := { c.db with
      rows := fun name => (tableNamed c.db.version name).elim (c.db.rows name) rows } }

/-- With foreign keys on, no write leaves a dangling reference. -/
def step [DecidableEq V] (c : Connection V) : ConnectionAct V → Option (Connection V)
  | .migrateToVersion version fault => some (c.migrateToVersion version fault).2
  | .migrateToLatest fault => some (c.migrateToLatest fault).2
  | .write rows =>
    if c.foreignKeys = true → (c.written rows).db.Referenced then some (c.written rows) else none

end Connection

/-! ## Archives -/

/-- A column of one table that refers to one of another, by their places. -/
structure TableLink where
  table : StoreTable
  place : Nat
  parent : StoreTable
  parentPlace : Nat
  deriving DecidableEq

def references : List TableLink :=
  [⟨.entries, 0, .threads, 0⟩, ⟨.events, 1, .threads, 0⟩, ⟨.threads, 1, .workspaces, 0⟩]

structure Archive (V : Type) where
  version : Nat
  contents : StoreTable → List (List V)
  foreignKeys : Bool

namespace Archive

variable {V : Type}

def new (foreignKeys : Bool) : Archive V := ⟨0, fun _ => [], foreignKeys⟩

def Referenced (a : Archive V) : Prop :=
  ∀ l ∈ references, ∀ row ∈ a.contents l.table,
    ∃ parent ∈ a.contents l.parent, parent[l.parentPlace]? = row[l.place]?

instance [DecidableEq V] (a : Archive V) : Decidable a.Referenced :=
  inferInstanceAs (Decidable (∀ l ∈ references, ∀ row ∈ a.contents l.table,
    ∃ parent ∈ a.contents l.parent, parent[l.parentPlace]? = row[l.place]?))

/-- The rows of the tables that the version has. -/
def restrict (version : Nat) (contents : StoreTable → List (List V)) (x : StoreTable) :
    List (List V) :=
  if x.since ≤ version then contents x else []

def migrate (a : Archive V) (version : Nat) : Option MigrateFault → Archive V
  | some .foreignKeysOff => a
  | some .transaction => { a with foreignKeys := false }
  | fault =>
    if migrations.length < version then { a with foreignKeys := false }
    else ⟨version, restrict version a.contents, fault.isNone⟩

def step [DecidableEq V] (a : Archive V) : ConnectionAct V → Option (Archive V)
  | .migrateToVersion version fault => some (a.migrate version fault)
  | .migrateToLatest fault => some (a.migrate migrations.length fault)
  | .write rows =>
    let written := { a with contents := restrict a.version rows }
    if a.foreignKeys = true → written.Referenced then some written else none

end Archive

def Connection.archive {V : Type} (c : Connection V) : Archive V :=
  ⟨c.db.version, c.db.contents StoreTable.since StoreTable.sqlName, c.foreignKeys⟩

/-! ## The schemas -/

theorem chain : Chain migrations schemaAt := by
  refine Chain.of_down (by decide +kernel) fun version m hm => ?_
  match version with
  | 0 | 1 | 2 | 3 =>
    obtain rfl := Option.some.inj hm
    decide +kernel
  | n + 4 => cases hm

theorem tracks : Tracks migrations StoreTable.since StoreTable.sqlName := by
  constructor
  · intro version m x hm hx
    match version with
    | 0 | 1 | 2 | 3 =>
      obtain rfl := Option.some.inj hm
      revert hx
      cases x <;> decide
    | n + 4 => cases hm
  · intro version m x hm hx
    match version with
    | 0 | 1 | 2 | 3 =>
      obtain rfl := Option.some.inj hm
      revert hx
      cases x <;> decide
    | n + 4 => cases hm

theorem links_schemaAt {version : Nat} (h : version ≤ migrations.length) :
    (schemaAt version).links = (references.filter (·.table.since ≤ version)).map fun l =>
      ⟨l.table.sqlName version, l.place, l.parent.sqlName version, l.parentPlace⟩ := by
  match version with
  | 0 | 1 | 2 | 3 | 4 => decide +kernel
  | n + 5 => exact absurd h (by simp [migrations])

theorem schemaAt_latest_iff {version : Nat} (h : version ≤ migrations.length) :
    schemaAt version = schemaAt migrations.length ↔ version = migrations.length := by
  refine ⟨fun heq => ?_, fun heq => by rw [heq]⟩
  -- Only the latest schema has a reference to `workspaces`.
  have hlinks := congrArg Schema.links heq
  rw [links_schemaAt h, links_schemaAt le_rfl] at hlinks
  match version with
  | 0 | 1 | 2 | 3 => exact absurd hlinks (by decide)
  | 4 => rfl
  | n + 5 => exact absurd h (by simp [migrations])

theorem since_parent : ∀ l ∈ references, l.parent.since ≤ l.table.since := by decide

theorem sqlName_injective (version : Nat) : (StoreTable.sqlName version).Injective := by
  intro x y hxy
  by_cases hold : version < 4
  · cases x <;> cases y <;> first | rfl | exact absurd hxy (by simp [StoreTable.sqlName, hold])
  · cases x <;> cases y <;> first | rfl | exact absurd hxy (by simp [StoreTable.sqlName, hold])

theorem tableNamed_sqlName {version : Nat} {x : StoreTable} (h : x.since ≤ version) :
    tableNamed version (x.sqlName version) = some x := by
  cases hfind : tableNamed version (x.sqlName version) with
  | none =>
    have hall : x ∈ StoreTable.all := by cases x <;> decide
    exact absurd (List.find?_eq_none.mp hfind x hall) (by simp [h])
  | some y =>
    have hy : y.since ≤ version ∧ y.sqlName version = x.sqlName version := by
      simpa using List.find?_some hfind
    rw [sqlName_injective version hy.2]

/-! ## Refinement -/

variable {V : Type} {c c' : Connection V}

theorem referenced_iff (h : Fits migrations schemaAt c.db) :
    c.db.Referenced ↔ c.archive.Referenced := by
  rw [Database.Referenced, h.schema, links_schemaAt h.version]
  constructor
  · intro href l hl row hrow
    by_cases hsince : l.table.since ≤ c.db.version
    · simp only [Connection.archive, Database.contents, if_pos hsince,
        if_pos ((since_parent l hl).trans hsince)] at hrow ⊢
      exact href _ (List.mem_map_of_mem (List.mem_filter.mpr ⟨hl, by simpa using hsince⟩)) row hrow
    · simp [Connection.archive, Database.contents, hsince] at hrow
  · intro href l hl row hrow
    obtain ⟨l, hmem, rfl⟩ := List.mem_map.mp hl
    obtain ⟨hl, hsince⟩ := List.mem_filter.mp hmem
    have hsince : l.table.since ≤ c.db.version := by simpa using hsince
    have hparent := href l hl row
    simp only [Connection.archive, Database.contents, if_pos hsince,
      if_pos ((since_parent l hl).trans hsince)] at hparent
    exact hparent hrow

/-- What a call leaves: its schema, and the archive that the abstract call leaves. -/
structure Refines (a : Archive V) (c : Connection V) : Prop where
  fits : Fits migrations schemaAt c.db
  archive : c.archive = a

theorem refines_moved {version : Nat} {db : Database V}
    (h : Walked migrations schemaAt StoreTable.since StoreTable.sqlName c.db db version)
    (foreignKeys : Bool) :
    Refines ⟨version, Archive.restrict version c.archive.contents, foreignKeys⟩
      ⟨db, foreignKeys⟩ := by
  refine ⟨h.fits, ?_⟩
  rw [Connection.archive, h.version]
  exact congrArg (Archive.mk version · foreignKeys) (funext h.contents)

theorem refines_migrate (h : Fits migrations schemaAt c.db) (version : Nat)
    (fault : Option MigrateFault) :
    Refines (c.archive.migrate version fault) (c.migrateToVersion version fault).2 := by
  have hfailed : Refines { c.archive with foreignKeys := false } { c with foreignKeys := false } :=
    ⟨h, rfl⟩
  obtain ⟨hlt, hnone⟩ | ⟨hle, db, hdb, hwalked⟩ := toVersion_spec chain tracks h version
  · match fault with
    | some .foreignKeysOff => exact ⟨h, rfl⟩
    | some .transaction => exact hfailed
    | none | some .foreignKeysOn =>
      simpa [Connection.migrateToVersion, hnone, Archive.migrate, hlt] using hfailed
  · have hlast : ¬ migrations.length < version := by omega
    match fault with
    | some .foreignKeysOff => exact ⟨h, rfl⟩
    | some .transaction => exact hfailed
    | none =>
      simpa [Connection.migrateToVersion, hdb, Archive.migrate, hlast] using refines_moved hwalked true
    | some .foreignKeysOn =>
      simpa [Connection.migrateToVersion, hdb, Archive.migrate, hlast] using refines_moved hwalked false

theorem refines_written (h : Fits migrations schemaAt c.db) (rows : StoreTable → List (List V)) :
    Refines { c.archive with contents := Archive.restrict c.db.version rows } (c.written rows) := by
  refine ⟨⟨h.version, h.schema⟩, ?_⟩
  refine congrArg (Archive.mk c.db.version · c.foreignKeys) (funext fun x => ?_)
  by_cases hsince : x.since ≤ c.db.version
  · simp [Connection.written, Database.contents, Archive.restrict, hsince, tableNamed_sqlName hsince]
  · simp [Connection.written, Database.contents, Archive.restrict, hsince]

/-- What holds of a connection at any time. -/
structure Sound (c : Connection V) : Prop where
  schema : c.db.schema = schemaAt c.db.version
  verified : c.verifySchemaVersion = .ok () ↔ c.db.schema = schemaAt migrations.length
  reaches : ∀ version, (c.migrateToVersion version none).1 = .ok () ↔ version ≤ migrations.length

theorem Sound.of_fits (h : Fits migrations schemaAt c.db) : Sound c := by
  refine ⟨h.schema, ?_, fun version => ?_⟩
  · rw [h.schema, schemaAt_latest_iff h.version, Connection.verifySchemaVersion]
    simp only [ne_eq, ite_not]
    split_ifs with hpending
    · exact iff_of_true rfl (by omega)
    · exact iff_of_false (by simp) (by omega)
  · obtain ⟨hlt, hnone⟩ | ⟨hle, db, hdb, -⟩ := toVersion_spec chain tracks h version
    · simp [Connection.migrateToVersion, hnone, hlt]
    · simp [Connection.migrateToVersion, hdb, hle]

/-- A call that meets no fault and chooses a version that exists. -/
def ConnectionAct.Clean : ConnectionAct V → Prop
  | .migrateToVersion version fault => version ≤ migrations.length ∧ fault = none
  | .migrateToLatest fault => fault = none
  | .write _ => True

/-- Foreign keys are on once there are tables. -/
structure Archive.Guarded (a : Archive V) : Prop where
  referenced : a.Referenced
  foreignKeys : a.foreignKeys = true ∨ a.version = 0

theorem Archive.migrate_none {a : Archive V} {version : Nat} (h : version ≤ migrations.length) :
    a.migrate version none = ⟨version, Archive.restrict version a.contents, true⟩ :=
  if_neg (not_lt.mpr h)

/-- The tables that are dropped do not leave references behind, since no table is older than one it
refers to. -/
theorem Archive.Guarded.restrict {a : Archive V} (h : a.Guarded) (version : Nat) :
    Archive.Guarded ⟨version, Archive.restrict version a.contents, true⟩ := by
  refine ⟨fun l hl row hrow => ?_, .inl rfl⟩
  simp only [Archive.restrict] at hrow ⊢
  split_ifs at hrow with hsince
  · rw [if_pos ((since_parent l hl).trans hsince)]
    exact h.referenced l hl row hrow
  · cases hrow

variable [DecidableEq V]

/-- A call is enabled where the abstract one is, with the same effect. -/
theorem step_archive (h : Fits migrations schemaAt c.db) (a : ConnectionAct V) :
    (c.step a).map Connection.archive = c.archive.step a := by
  cases a with
  | migrateToVersion version fault => exact congrArg some (refines_migrate h version fault).archive
  | migrateToLatest fault => exact congrArg some (refines_migrate h migrations.length fault).archive
  | write rows =>
    have hwritten := refines_written h rows
    have hiff := referenced_iff hwritten.fits
    rw [hwritten.archive] at hiff
    simp only [Connection.step, Archive.step]
    by_cases hwrite : c.foreignKeys = true → (c.written rows).db.Referenced
    · rw [if_pos hwrite, Option.map_some, hwritten.archive]
      exact (if_pos fun hkeys => hiff.mp (hwrite hkeys)).symm
    · rw [if_neg hwrite]
      exact (if_neg fun hkept => hwrite fun hkeys => hiff.mpr (hkept hkeys)).symm

theorem fits_step {a : ConnectionAct V} (h : Fits migrations schemaAt c.db)
    (hstep : c.step a = some c') : Fits migrations schemaAt c'.db := by
  cases a with
  | migrateToVersion version fault =>
    obtain rfl := Option.some.inj hstep
    exact (refines_migrate h version fault).fits
  | migrateToLatest fault =>
    obtain rfl := Option.some.inj hstep
    exact (refines_migrate h migrations.length fault).fits
  | write rows =>
    simp only [Connection.step] at hstep
    split_ifs at hstep
    obtain rfl := Option.some.inj hstep
    exact (refines_written h rows).fits

theorem run_archive (h : Fits migrations schemaAt c.db) (acts : List (ConnectionAct V)) :
    (run Connection.step c acts).map Connection.archive = run Archive.step c.archive acts := by
  induction acts generalizing c with
  | nil => rfl
  | cons a acts ih =>
    rw [run_cons, run_cons, ← step_archive h a]
    cases hstep : c.step a with
    | none => rfl
    | some c' => exact ih (fits_step h hstep)

theorem Archive.Guarded.step {a a' : Archive V} {act : ConnectionAct V} (h : a.Guarded)
    (hclean : act.Clean) (hstep : a.step act = some a') : a'.Guarded := by
  cases act with
  | migrateToVersion version fault =>
    obtain ⟨hle, rfl⟩ := hclean
    obtain rfl := Option.some.inj hstep
    rw [Archive.migrate_none hle]
    exact h.restrict version
  | migrateToLatest fault =>
    obtain rfl : fault = none := hclean
    obtain rfl := Option.some.inj hstep
    rw [Archive.migrate_none le_rfl]
    exact h.restrict migrations.length
  | write rows =>
    simp only [Archive.step] at hstep
    split_ifs at hstep with hkept
    obtain rfl := Option.some.inj hstep
    refine ⟨?_, h.foreignKeys⟩
    obtain hkeys | hversion := h.foreignKeys
    · exact hkept hkeys
    · intro l hl row hrow
      have hsince : ¬ l.table.since ≤ 0 := by cases l.table <;> decide
      simp [Archive.restrict, hversion, hsince] at hrow

/-- Every run on a new database does to it what it does to an archive, so that going up keeps all
rows and going down those of the tables that the version has, under their names of that version.
The schema is always that of the version, by whichever versions it was reached, each version can
be chosen next, and `verify_schema_version` accepts the latest schema only. Where no call meets an
error, no reference dangles, though migrations run with foreign keys off. -/
theorem migrations_keep_archive (foreignKeys : Bool) (acts : List (ConnectionAct V)) :
    (run Connection.step (.new foreignKeys) acts).map Connection.archive =
        run Archive.step (.new foreignKeys) acts ∧
      Always Connection.step Sound (.new foreignKeys) acts ∧
      (Meets Connection.step (fun _ a => a.Clean) (.new foreignKeys) acts →
        Always Connection.step (fun c => c.db.Referenced) (.new foreignKeys) acts) := by
  have hnew : Fits migrations schemaAt (Connection.new (V := V) foreignKeys).db :=
    ⟨Nat.zero_le _, rfl⟩
  have harchive : (Connection.new (V := V) foreignKeys).archive = .new foreignKeys :=
    congrArg (Archive.mk 0 · foreignKeys) (funext fun x => by cases x <;> rfl)
  refine ⟨harchive ▸ run_archive hnew acts,
    always_of_run (fun _ => Sound.of_fits) (fun _ _ _ => fits_step) hnew, fun hclean => ?_⟩
  refine always_of_meets (I := fun c => Fits migrations schemaAt c.db ∧ c.archive.Guarded)
    (fun c h => (referenced_iff h.1).mpr h.2.referenced) (fun c a c' h hok hstep => ?_) ?_ hclean
  · have harch := step_archive h.1 a
    rw [hstep, Option.map_some] at harch
    exact ⟨fits_step h.1 hstep, h.2.step hok harch.symm⟩
  · refine ⟨hnew, harchive ▸ ⟨fun l hl row hrow => ?_, .inr rfl⟩⟩
    cases hrow

end Migrations

end Tethys.Store
