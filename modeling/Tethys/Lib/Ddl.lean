import Mathlib.Data.String.Basic
import Tethys.Lib.OrdMap

/-!
# Schemas and their migrations

A relational schema with the statements that define it, and what a statement does to the rows of
the tables. A list of migrations leads from each version of a schema to the next and back. Where
the scripts of each version fit together, every walk over the versions ends in the schema of its
last version, and a table that a family of names follows through the renamings keeps its rows until
the walk comes below the version that introduced it.
-/

namespace Tethys.Lib.Ddl

structure Reference where
  table : String
  column : String
  deriving DecidableEq

/-- A column. `decl` is its type with its constraints, the reference apart. -/
structure Column where
  name : String
  decl : String
  references : Option Reference
  deriving DecidableEq

/-- A constraint over columns, such as a primary key. -/
structure Key where
  kind : String
  columns : List String
  deriving DecidableEq

structure TableDef where
  columns : List Column
  keys : List Key
  deriving DecidableEq

structure Index where
  table : String
  columns : List String
  deriving DecidableEq

structure Schema where
  tables : OrdMap String TableDef
  indexes : OrdMap String Index
  deriving DecidableEq

/-- The statements that define a schema. Dropping is `IF EXISTS`. -/
inductive Statement where
  | createTable (name : String) (table : TableDef)
  | createIndex (name : String) (index : Index)
  | dropTable (name : String)
  | dropIndex (name : String)
  | renameTable (name newName : String)
  | renameColumn (table name newName : String)
  deriving DecidableEq

def TableDef.names (d : TableDef) : List String := d.columns.map (·.name)

/-- A name after a renaming. -/
def renamed (name newName other : String) : String := if other = name then newName else other

/-! ## Statements -/

namespace Schema

def empty : Schema := ⟨.empty, .empty⟩

/-- Tables and indexes share their names. -/
def taken (s : Schema) (name : String) : Bool :=
  (s.tables.get name).isSome || (s.indexes.get name).isSome

/-- The indexes that are not on a table. -/
def indexesOff (s : Schema) (table : String) : OrdMap String Index :=
  ⟨s.indexes.entries.filter (·.2.table ≠ table), s.indexes.sorted.filter _⟩

/-- A table where another one has a new name. -/
def retarget (name newName : String) (d : TableDef) : TableDef :=
  { d with columns := d.columns.map fun c =>
      { c with references := c.references.map fun r => { r with table := renamed name newName r.table } } }

/-- A table, under its name, where a column of `table` has a new name. -/
def recolumn (table name newName other : String) (d : TableDef) : TableDef where
  columns := d.columns.map fun c =>
    { c with
      name := if other = table then renamed name newName c.name else c.name
      references := c.references.map fun r =>
        if r.table = table then { r with column := renamed name newName r.column } else r }
  keys := d.keys.map fun k =>
    if other = table then { k with columns := k.columns.map (renamed name newName) } else k

/-- What a statement makes of a schema, `none` where it fails. -/
def exec (s : Schema) : Statement → Option Schema
  | .createTable name d =>
    if s.taken name ∨ ¬ d.names.Nodup then none
    else some { s with tables := s.tables.insert name d }
  | .createIndex name index =>
    match s.tables.get index.table with
    | some d =>
      if s.taken name ∨ ¬ index.columns ⊆ d.names then none
      else some { s with indexes := s.indexes.insert name index }
    | none => none
  | .dropTable name => some ⟨s.tables.erase name, s.indexesOff name⟩
  | .dropIndex name => some { s with indexes := s.indexes.erase name }
  | .renameTable name newName =>
    match s.tables.get name with
    | some d =>
      if s.taken newName then none
      else some ⟨((s.tables.erase name).insert newName d).map (retarget name newName),
        s.indexes.map fun i => { i with table := renamed name newName i.table }⟩
    | none => none
  | .renameColumn table name newName =>
    match s.tables.get table with
    | some d =>
      if name ∉ d.names ∨ newName ∈ d.names then none
      else some ⟨s.tables.mapKeyed (recolumn table name newName), s.indexes.map fun i =>
        if i.table = table then { i with columns := i.columns.map (renamed name newName) } else i⟩
    | none => none

def batch (s : Schema) (statements : List Statement) : Option Schema := statements.foldlM exec s

theorem batch_append (s : Schema) (first rest : List Statement) :
    s.batch (first ++ rest) = (s.batch first).bind fun t => t.batch rest :=
  List.foldlM_append

/-- A column whose values are those of a column of another table, by their places. -/
structure Link where
  table : String
  place : Nat
  parent : String
  parentPlace : Nat
  deriving DecidableEq

def links (s : Schema) : List Link :=
  s.tables.entries.flatMap fun (name, d) => d.columns.zipIdx.filterMap fun (c, place) =>
    c.references.map fun r =>
      ⟨name, place, r.table, ((s.tables.get r.table).elim [] TableDef.names).idxOf r.column⟩

end Schema

/-- The table whose rows a table has after the statement, if they were there before it. -/
def Statement.origin : Statement → String → Option String
  | .createTable name _, table | .dropTable name, table => if table = name then none else some table
  | .renameTable name newName, table =>
    if table = newName then some name else if table = name then none else some table
  | .createIndex .., table | .dropIndex _, table | .renameColumn .., table => some table

/-- The same for a batch. -/
def origin (statements : List Statement) (table : String) : Option String :=
  statements.foldr (fun statement table => table.bind statement.origin) (some table)

/-- A database, its version and the rows of its tables. -/
structure Database (V : Type*) where
  version : Nat
  schema : Schema
  rows : String → List (List V)

namespace Database

variable {V : Type*}

def empty : Database V := ⟨0, .empty, fun _ => []⟩

def exec (db : Database V) (statement : Statement) : Option (Database V) :=
  (db.schema.exec statement).map fun schema =>
    { db with schema := schema, rows := fun table => (statement.origin table).elim [] db.rows }

def batch (db : Database V) (statements : List Statement) : Option (Database V) :=
  statements.foldlM exec db

/-- Every value of a column that refers to another one is found there. -/
def Referenced (db : Database V) : Prop :=
  ∀ l ∈ db.schema.links, ∀ row ∈ db.rows l.table,
    ∃ parent ∈ db.rows l.parent, parent[l.parentPlace]? = row[l.place]?

instance [DecidableEq V] (db : Database V) : Decidable db.Referenced :=
  inferInstanceAs (Decidable (∀ l ∈ db.schema.links, ∀ row ∈ db.rows l.table,
    ∃ parent ∈ db.rows l.parent, parent[l.parentPlace]? = row[l.place]?))

/-- A batch acts on the schema by itself, and the rows follow their origins. -/
theorem batch_eq (db : Database V) (statements : List Statement) :
    db.batch statements = (db.schema.batch statements).map fun schema =>
      { db with schema := schema, rows := fun table => (origin statements table).elim [] db.rows } := by
  induction statements generalizing db with
  | nil => rfl
  | cons statement statements ih =>
    simp only [batch, Schema.batch, List.foldlM_cons, exec, Option.bind_eq_bind]
    cases hexec : db.schema.exec statement with
    | none => rfl
    | some schema =>
      refine (ih _).trans ?_
      refine congrArg (Option.map · _) (funext fun after => ?_)
      refine congrArg (Database.mk _ _) (funext fun table => ?_)
      change _ = Option.elim ((origin statements table).bind statement.origin) [] db.rows
      cases origin statements table <;> rfl

end Database

/-! ## Migrations -/

structure Migration where
  up : List Statement
  down : List Statement
  deriving DecidableEq

variable {V T : Type*} {ms : List Migration} {db t : Database V}

namespace Database

/-- Take the next migrations, one after the other. -/
def climb (ms : List Migration) : Nat → Database V → Option (Database V)
  | 0, db => some db
  | n + 1, db =>
    ms[db.version]?.bind fun m => (db.batch m.up).bind fun t =>
      climb ms n { t with version := db.version + 1 }

/-- Take the last migrations back. -/
def descend (ms : List Migration) : Nat → Database V → Option (Database V)
  | 0, db => some db
  | n + 1, db =>
    match db.version with
    | 0 => none
    | version + 1 =>
      ms[version]?.bind fun m => (db.batch m.down).bind fun t =>
        descend ms n { t with version := version }

/-- Migrate to a version in one transaction: `none` leaves the database as it was. -/
def toVersion (ms : List Migration) (version : Nat) (db : Database V) : Option (Database V) :=
  if ms.length < version ∨ ms.length < db.version then none
  else if db.version ≤ version then db.climb ms (version - db.version)
  else db.descend ms (db.version - version)

end Database

/-- The migrations lead from the schema of each version to that of the next and back. -/
structure Chain (ms : List Migration) (schemas : Nat → Schema) : Prop where
  up : ∀ version m, ms[version]? = some m →
    (schemas version).batch m.up = some (schemas (version + 1))
  down : ∀ version m, ms[version]? = some m →
    (schemas (version + 1)).batch m.down = some (schemas version)

/-- The schema of a version, as its migrations build it. -/
def built (ms : List Migration) (version : Nat) : Schema :=
  (Schema.empty.batch ((ms.take version).flatMap (·.up))).getD .empty

theorem batch_built (hall : (Schema.empty.batch (ms.flatMap (·.up))).isSome) (version : Nat) :
    Schema.empty.batch ((ms.take version).flatMap (·.up)) = some (built ms version) := by
  obtain ⟨s, hs⟩ := Option.isSome_iff_exists.mp hall
  rw [← List.take_append_drop version ms, List.flatMap_append, Schema.batch_append] at hs
  obtain ⟨t, ht, -⟩ := Option.bind_eq_some_iff.mp hs
  rw [built, ht, Option.getD_some]

/-- Where the whole list can be taken, only the ways back need to be checked. -/
theorem Chain.of_down (hall : (Schema.empty.batch (ms.flatMap (·.up))).isSome)
    (hdown : ∀ version m, ms[version]? = some m →
      (built ms (version + 1)).batch m.down = some (built ms version)) : Chain ms (built ms) := by
  refine ⟨fun version m hm => ?_, hdown⟩
  have hnext := batch_built hall (version + 1)
  rw [List.take_add_one, hm, Option.toList_some, List.flatMap_append, Schema.batch_append,
    batch_built hall, Option.bind_some, List.flatMap_singleton] at hnext
  exact hnext

/-- Tables with the name each of them has in a version, from the version that introduces it. -/
structure Tracks (ms : List Migration) (since : T → Nat) (name : Nat → T → String) : Prop where
  up : ∀ version m x, ms[version]? = some m → since x ≤ version + 1 →
    origin m.up (name (version + 1) x) =
      if since x ≤ version then some (name version x) else none
  down : ∀ version m x, ms[version]? = some m → since x ≤ version →
    origin m.down (name version x) = some (name (version + 1) x)

/-- The rows of the tables that the version has. -/
def Database.contents (since : T → Nat) (name : Nat → T → String) (db : Database V) (x : T) :
    List (List V) :=
  if since x ≤ db.version then db.rows (name db.version x) else []

/-- A database with the schema of its version. -/
structure Fits (ms : List Migration) (schemas : Nat → Schema) (db : Database V) : Prop where
  version : db.version ≤ ms.length
  schema : db.schema = schemas db.version

/-- What a walk to a version leaves. -/
structure Walked (ms : List Migration) (schemas : Nat → Schema) (since : T → Nat)
    (name : Nat → T → String) (db t : Database V) (last : Nat) : Prop where
  fits : Fits ms schemas t
  version : t.version = last
  contents : ∀ x, t.contents since name x =
    if since x ≤ last then db.contents since name x else []

section Walks

variable {schemas : Nat → Schema} {since : T → Nat} {name : Nat → T → String} {last : Nat}

theorem Database.contents_of_lt {x : T} (h : db.version < since x) :
    db.contents since name x = [] := if_neg (by omega)

theorem Fits.walked (h : Fits ms schemas db) : Walked ms schemas since name db db db.version := by
  refine ⟨h, rfl, fun x => ?_⟩
  by_cases hx : since x ≤ db.version <;> simp [Database.contents, hx]

/-- A walk that does not turn. -/
theorem Walked.trans {u : Database V} (h : Walked ms schemas since name db t t.version)
    (h' : Walked ms schemas since name t u last)
    (hturn : db.version ≤ t.version ∨ last ≤ t.version) : Walked ms schemas since name db u last := by
  refine ⟨h'.fits, h'.version, fun x => ?_⟩
  rw [h'.contents x, h.contents x]
  by_cases hlast : since x ≤ last
  · rw [if_pos hlast, if_pos hlast]
    by_cases hx : since x ≤ t.version
    · rw [if_pos hx]
    · rw [if_neg hx, Database.contents_of_lt (by omega)]
  · rw [if_neg hlast, if_neg hlast]

theorem walked_up (hchain : Chain ms schemas) (htracks : Tracks ms since name) {m : Migration}
    (h : Fits ms schemas db) (hm : ms[db.version]? = some m) :
    ∃ t, db.batch m.up = some t ∧
      Walked ms schemas since name db { t with version := db.version + 1 } (db.version + 1) := by
  have hbatch := db.batch_eq m.up
  rw [h.schema, hchain.up _ m hm] at hbatch
  refine ⟨_, hbatch, ⟨(List.getElem?_eq_some_iff.mp hm).1, rfl⟩, rfl, fun x => ?_⟩
  simp only [Database.contents]
  by_cases hx : since x ≤ db.version + 1
  · rw [if_pos hx, if_pos hx, htracks.up _ m x hm hx]
    by_cases hx' : since x ≤ db.version <;> simp [hx']
  · rw [if_neg hx, if_neg hx]

theorem walked_down (hchain : Chain ms schemas) (htracks : Tracks ms since name) {m : Migration}
    {version : Nat} (h : Fits ms schemas db) (hversion : db.version = version + 1)
    (hm : ms[version]? = some m) :
    ∃ t, db.batch m.down = some t ∧
      Walked ms schemas since name db { t with version := version } version := by
  have hbatch := db.batch_eq m.down
  rw [h.schema, hversion, hchain.down _ m hm] at hbatch
  refine ⟨_, hbatch, ⟨(List.getElem?_eq_some_iff.mp hm).1.le, rfl⟩, rfl, fun x => ?_⟩
  simp only [Database.contents, hversion]
  by_cases hx : since x ≤ version
  · rw [if_pos hx, if_pos hx, if_pos (hx.trans (Nat.le_succ _)), htracks.down _ m x hm hx]
    rfl
  · rw [if_neg hx, if_neg hx]

theorem walked_climb (hchain : Chain ms schemas) (htracks : Tracks ms since name) (n : Nat)
    (h : Fits ms schemas db) (hn : db.version + n ≤ ms.length) :
    ∃ t, db.climb ms n = some t ∧ Walked ms schemas since name db t (db.version + n) := by
  induction n generalizing db with
  | zero => exact ⟨db, rfl, h.walked⟩
  | succ n ih =>
    obtain ⟨m, hm⟩ : ∃ m, ms[db.version]? = some m := ⟨_, List.getElem?_eq_getElem (by omega)⟩
    obtain ⟨t, ht, hup⟩ := walked_up hchain htracks h hm
    have hnext : db.version + 1 + n ≤ ms.length := by omega
    obtain ⟨u, hu, hrest⟩ := ih hup.fits hnext
    refine ⟨u, by simp [Database.climb, hm, ht, hu], ?_⟩
    rw [← Nat.add_assoc, Nat.add_right_comm]
    exact hup.trans hrest (.inl (Nat.le_succ _))

theorem walked_descend (hchain : Chain ms schemas) (htracks : Tracks ms since name) (n : Nat)
    (h : Fits ms schemas db) (hn : n ≤ db.version) :
    ∃ t, db.descend ms n = some t ∧ Walked ms schemas since name db t (db.version - n) := by
  induction n generalizing db with
  | zero => exact ⟨db, rfl, h.walked⟩
  | succ n ih =>
    obtain ⟨version, hversion⟩ := Nat.exists_eq_add_one_of_ne_zero (Nat.ne_of_gt (Nat.zero_lt_of_lt hn))
    have hlength := h.version
    obtain ⟨m, hm⟩ : ∃ m, ms[version]? = some m := ⟨_, List.getElem?_eq_getElem (by omega)⟩
    obtain ⟨t, ht, hdown⟩ := walked_down hchain htracks h hversion hm
    have hnext : n ≤ version := by omega
    obtain ⟨u, hu, hrest⟩ := ih hdown.fits hnext
    refine ⟨u, by simp [Database.descend, hversion, hm, ht, hu], ?_⟩
    rw [hversion, Nat.add_sub_add_right]
    exact hdown.trans hrest (.inr (Nat.sub_le _ _))

/-- A walk to a version of the list succeeds, whatever the versions before. It leaves the schema of
that version, with the rows of all tables that it has; there is no walk to any other version. -/
theorem toVersion_spec (hchain : Chain ms schemas) (htracks : Tracks ms since name)
    (h : Fits ms schemas db) (last : Nat) :
    (ms.length < last ∧ db.toVersion ms last = none) ∨
      (last ≤ ms.length ∧ ∃ t, db.toVersion ms last = some t ∧
        Walked ms schemas since name db t last) := by
  have hversion := h.version
  by_cases hlast : ms.length < last
  · exact .inl ⟨hlast, if_pos (.inl hlast)⟩
  refine .inr ⟨not_lt.mp hlast, ?_⟩
  have hto : ¬ (ms.length < last ∨ ms.length < db.version) := by omega
  rw [Database.toVersion, if_neg hto]
  by_cases hle : db.version ≤ last
  · obtain ⟨t, ht, hwalked⟩ := walked_climb hchain htracks (last - db.version) h (by omega)
    rw [Nat.add_sub_cancel' hle] at hwalked
    exact ⟨t, by rw [if_pos hle, ht], hwalked⟩
  · obtain ⟨t, ht, hwalked⟩ := walked_descend hchain htracks (db.version - last) h (Nat.sub_le _ _)
    rw [Nat.sub_sub_self (not_le.mp hle).le] at hwalked
    exact ⟨t, by rw [if_neg hle, ht], hwalked⟩

end Walks

end Tethys.Lib.Ddl
