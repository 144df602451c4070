import Mathlib.Logic.Function.Basic
import Tethys.Lib.Programs
import Tethys.Schema.Sync
import Tethys.Sync.Trust

/-!
# The skill library

`tethys-sync/src/skills.rs`, and `install` of `skill_import.rs`, as programs over the skills
directories and the table `skills_state`. Each look at a directory and each read or write of the
table is one operation, so that a call can be run as a whole or in between others. What the
digest is does not matter here: `inspect` is any function from the files of a directory, and a
missing directory is read as one without files.
-/

namespace Tethys.Sync

open Lib Schema

instance : Inhabited SkillDir := ⟨.empty⟩

inductive SkillOrigin where
  | folder | archive | gitHub | lockfile
  deriving DecidableEq

structure SkillSource where
  origin : SkillOrigin
  repo : Option String := none
  reference : Option String := none
  subdir : Option String := none
  lockHash : Option String := none
  url : Option String := none
  deriving DecidableEq

/-- A skill as it is reported. Its path is a name in the skills directory of a root. -/
structure SkillInfo (Root Hash : Type) where
  name : String
  scope : Scope
  path : Root × String
  source : SkillSource
  enabled : Bool
  requiresTrust : Bool
  trusted : Bool
  contentHash : Hash
  pinnedSha : Option String
  deriving DecidableEq

/-- A row of `skills_state`. The column `source` is kept as the value that is printed there. -/
structure SkillRow (Hash : Type) where
  skillId : String
  scope : String
  name : String
  source : SkillSource
  pinnedSha : Option String
  contentHash : Hash
  trustedHash : Option Hash
  enabled : Bool
  requiresTrust : Bool
  deriving DecidableEq

/-- The errors of `SyncError` that the calls below end with. -/
inductive SkillError where
  | registry (message : String)
  | skillNotFound (name : String)
  | notFound (message : String)
  | unsafeArchive (message : String)
  | unsupportedSource (spec : String)
  /-- resolving or downloading failed -/
  | upstream (message : String)
  | io
  deriving DecidableEq

/-- Root and home pair for skill scopes. -/
structure SkillHome (Root : Type) where
  root : Root
  home : Root

section Skills
variable {Root Dir Hash : Type}

/-- The directory whose `.agents/skills` holds the skills of a scope. -/
def skillsDir (home : SkillHome Root) : Scope → Root
  | .global => home.home
  | .workspace => home.root

def skillDir (home : SkillHome Root) (scope : Scope) (name : String) : Root × String :=
  (skillsDir home scope, name)

def skillId (scope : Scope) (name : String) : String := scope.asStr ++ ":" ++ name

def validateName (name : String) : Except SkillError Unit :=
  if name = "" ∨ name = "." ∨ name = ".." ∨ '/' ∈ name.toList ∨ '\\' ∈ name.toList then
    .error (.registry ("invalid skill name " ++ name))
  else .ok ()

/-- The row that `record` writes. -/
def SkillRow.ofInfo (info : SkillInfo Root Hash) : SkillRow Hash where
  skillId := Sync.skillId info.scope info.name
  scope := info.scope.asStr
  name := info.name
  source := info.source
  pinnedSha := info.pinnedSha
  contentHash := info.contentHash
  trustedHash := if info.trusted then some info.contentHash else none
  enabled := info.enabled
  requiresTrust := info.requiresTrust

def infoFromRow [DecidableEq Hash] (row : SkillRow Hash) (dir : Root × String) :
    Except SkillError (SkillInfo Root Hash) :=
  match Scope.parse row.scope with
  | none => .error (.registry ("unknown scope " ++ row.scope))
  | some scope => .ok {
      name := row.name
      scope
      path := dir
      source := row.source
      enabled := row.enabled
      requiresTrust := row.requiresTrust
      trusted := row.trustedHash = some row.contentHash
      contentHash := row.contentHash
      pinnedSha := row.pinnedSha }

/-- The row stands where its scope and name say. -/
def SkillRow.Keyed (row : SkillRow Hash) (id : String) : Prop :=
  ∃ scope, row.scope = scope.asStr ∧ id = Sync.skillId scope row.name

theorem SkillRow.ofInfo_keyed (info : SkillInfo Root Hash) :
    (SkillRow.ofInfo info).Keyed (Sync.skillId info.scope info.name) :=
  ⟨info.scope, rfl, rfl⟩

/-- An id has one scope and one name. -/
theorem skillId_inj {scope scope' : Scope} {name name' : String}
    (h : skillId scope name = skillId scope' name') : scope = scope' ∧ name = name' := by
  have hlist : (skillId scope name).toList = (skillId scope' name').toList := by rw [h]
  simp only [skillId, String.toList_append] at hlist
  cases scope <;> cases scope'
  case global.workspace | workspace.global => simp [Scope.asStr] at hlist
  case global.global | workspace.workspace =>
    exact ⟨rfl, String.toList_inj.mp (List.append_cancel_left hlist)⟩

/-- A row that stands where it should can be read, and is read as the skill it stands for. -/
theorem exists_infoFromRow [DecidableEq Hash] {row : SkillRow Hash} {scope : Scope} {name : String}
    (h : row.Keyed (skillId scope name)) (dir : Root × String) :
    ∃ info, infoFromRow row dir = .ok info ∧ info.scope = scope ∧ info.name = name ∧
      info.path = dir := by
  obtain ⟨scope', hscope, hid⟩ := h
  obtain ⟨rfl, rfl⟩ := skillId_inj hid
  have hparse : Scope.parse row.scope = some scope := by rw [hscope]; cases scope <;> rfl
  simp only [infoFromRow, hparse]
  exact ⟨_, rfl, rfl, rfl, rfl⟩

/-! ## Operations -/

/-- The directories in each skills directory, the table, and what happened to them. -/
structure SkillsWorld (Root Dir Hash : Type) where
  disk : Root → OrdMap String Dir
  rows : String → Option (SkillRow Hash)
  /-- the skill ids of the trust calls so far, with the files that each of them inspected -/
  reviewed : List (String × Dir)
  /-- the root whose call recorded a row last -/
  recordedBy : String → Option Root

inductive SkillOp (Root Hash Dir : Type) where
  | discover (dir : Root)
  | isDir (dir : Root × String)
  | inspect (dir : Root × String) (review : Option String)
  | skill (id : String)
  | upsertSkill (root : Root) (row : SkillRow Hash)
  | swapIntoPlace (destination : Root × String) (source : Dir)

@[reducible] def SkillOp.Res : SkillOp Root Hash Dir → Type
  | .discover _ => List String
  | .isDir _ => Bool
  | .inspect _ _ => Dir
  | .skill _ => Option (SkillRow Hash)
  | .upsertSkill _ _ | .swapIntoPlace _ _ => Unit

namespace SkillsWorld

def empty : SkillsWorld Root Dir Hash := ⟨fun _ => .empty, fun _ => none, [], fun _ => none⟩

/-- The files that are read below a path. -/
def files [Inhabited Dir] (w : SkillsWorld Root Dir Hash) (dir : Root × String) : Dir :=
  ((w.disk dir.1).get dir.2).getD default

/-- The names of the directories, without those that start with a dot. -/
def discover (w : SkillsWorld Root Dir Hash) (dir : Root) : List String :=
  ((w.disk dir).entries.map Prod.fst).filter fun name => name.toList.head? ≠ some '.'

variable [DecidableEq Root] [Inhabited Dir]

def perform : (op : SkillOp Root Hash Dir) → SkillsWorld Root Dir Hash →
    op.Res × SkillsWorld Root Dir Hash
  | .discover dir, w => (w.discover dir, w)
  | .isDir dir, w => (((w.disk dir.1).get dir.2).isSome, w)
  | .inspect dir none, w => (w.files dir, w)
  | .inspect dir (some id), w => (w.files dir, { w with reviewed := (id, w.files dir) :: w.reviewed })
  | .skill id, w => (w.rows id, w)
  | .upsertSkill root row, w => ((), { w with
      rows := Function.update w.rows row.skillId (some row)
      recordedBy := Function.update w.recordedBy row.skillId (some root) })
  | .swapIntoPlace (dir, name) source, w =>
    ((), { w with disk := Function.update w.disk dir ((w.disk dir).insert name source) })

end SkillsWorld

/-! ## Calls -/

/-- A reported skill, with the files that the call inspected for it. -/
structure SkillReport (Root Dir Hash : Type) where
  info : SkillInfo Root Hash
  files : Dir

abbrev SkillProgram (Root Dir Hash : Type) :=
  Program (SkillOp Root Hash Dir) SkillOp.Res (Except SkillError (List (SkillReport Root Dir Hash)))

def record (root : Root) (info : SkillInfo Root Hash) (next : SkillProgram Root Dir Hash) :
    SkillProgram Root Dir Hash :=
  .call (.upsertSkill root (.ofInfo info)) fun _ => next

def refreshed (facts : SkillFacts Hash) (info : SkillInfo Root Hash) : SkillInfo Root Hash :=
  { info with contentHash := facts.contentHash, requiresTrust := facts.requiresTrust, trusted := false }

section Calls
variable [DecidableEq Hash] (inspect : Dir → SkillFacts Hash) (home : SkillHome Root)

/-- What is known of a skill: its row, or the defaults. -/
def existing (scope : Scope) (name : String) (facts : SkillFacts Hash) :
    Option (SkillRow Hash) → Except SkillError (SkillInfo Root Hash)
  | some row => infoFromRow row (skillDir home scope name)
  | none => .ok {
      name, scope
      path := skillDir home scope name
      source := { origin := .folder }
      enabled := true
      requiresTrust := facts.requiresTrust
      trusted := false
      contentHash := facts.contentHash
      pinnedSha := none }

variable {home} in
theorem existing_path {scope : Scope} {name : String} {facts : SkillFacts Hash}
    {row : Option (SkillRow Hash)} {info : SkillInfo Root Hash}
    (h : existing home scope name facts row = .ok info) : info.path = skillDir home scope name := by
  cases row with
  | none => rw [← Except.ok.inj h]
  | some row =>
    simp only [existing, infoFromRow] at h
    split at h
    · cases h
    · rw [← Except.ok.inj h]

/-- From a table in order, a skill is known under its own name. -/
theorem exists_existing {scope : Scope} {name : String} (facts : SkillFacts Hash)
    {row : Option (SkillRow Hash)} (h : ∀ r, row = some r → r.Keyed (skillId scope name)) :
    ∃ info, existing home scope name facts row = .ok info ∧ info.scope = scope ∧
      info.name = name ∧ info.path = skillDir home scope name := by
  cases row with
  | none => exact ⟨_, rfl, rfl, rfl, rfl⟩
  | some row => exact exists_infoFromRow (h row rfl) (skillDir home scope name)

/-- `load_or_record`. With `review` the inspection is the one of a trust call. -/
def loadOrRecord (scope : Scope) (name : String) (review : Bool)
    (next : SkillInfo Root Hash → Dir → SkillProgram Root Dir Hash) : SkillProgram Root Dir Hash :=
  .call (.inspect (skillDir home scope name) (if review then some (skillId scope name) else none))
    fun files =>
  .call (.skill (skillId scope name)) fun row =>
  match existing home scope name (inspect files) row with
  | .error e => .ret (.error e)
  | .ok info =>
    if info.contentHash ≠ (inspect files).contentHash ∨
        info.requiresTrust ≠ (inspect files).requiresTrust then
      record home.root (refreshed (inspect files) info) (next (refreshed (inspect files) info) files)
    else next info files

def loadRequired (scope : Scope) (name : String) (review : Bool)
    (next : SkillInfo Root Hash → Dir → SkillProgram Root Dir Hash) : SkillProgram Root Dir Hash :=
  .call (.isDir (skillDir home scope name)) fun isDir =>
  if isDir then loadOrRecord inspect home scope name review next
  else .ret (.error (.skillNotFound name))

/-- The loop of `list` over the skills of a scope; a name that is there already is kept. -/
def loads (scope : Scope) : List String → OrdMap String (SkillReport Root Dir Hash) →
    (OrdMap String (SkillReport Root Dir Hash) → SkillProgram Root Dir Hash) →
    SkillProgram Root Dir Hash
  | [], byName, next => next byName
  | name :: names, byName, next =>
    loadOrRecord inspect home scope name false fun info files =>
    loads scope names (if byName.get name = none then byName.insert name ⟨info, files⟩ else byName)
      next

def list : SkillProgram Root Dir Hash :=
  .call (.discover (skillsDir home .workspace)) fun names =>
  loads inspect home .workspace names .empty fun byName =>
  .call (.discover (skillsDir home .global)) fun names =>
  loads inspect home .global names byName fun byName =>
  .ret (.ok (byName.entries.map Prod.snd))

def trust (scope : Scope) (name : String) : SkillProgram Root Dir Hash :=
  loadRequired inspect home scope name true fun info files =>
  record home.root { info with trusted := true } (.ret (.ok [⟨{ info with trusted := true }, files⟩]))

def setEnabled (scope : Scope) (name : String) (enabled : Bool) : SkillProgram Root Dir Hash :=
  loadRequired inspect home scope name false fun info files =>
  record home.root { info with enabled } (.ret (.ok [⟨{ info with enabled }, files⟩]))

/-- `update_check` and `update_plan`, which only load the skill here. -/
def updateCheck (scope : Scope) (name : String) : SkillProgram Root Dir Hash :=
  loadRequired inspect home scope name false fun _ _ => .ret (.ok [])

/-- `update_apply`. What upstream has for a source, and under which commit, comes from outside. -/
def updateApply (scope : Scope) (name : String)
    (upstream : SkillSource → Except SkillError (String × Dir)) : SkillProgram Root Dir Hash :=
  loadRequired inspect home scope name false fun info _ =>
  match info.source.repo, upstream info.source with
  | none, _ => .ret (.error (.registry "skill has no upstream repository"))
  | some _, .error e => .ret (.error e)
  | some _, .ok (sha, source) =>
    .call (.swapIntoPlace info.path source) fun _ =>
    .call (.inspect info.path none) fun files =>
    let updated := { refreshed (inspect files) info with pinnedSha := some sha }
    record home.root updated (.ret (.ok [⟨updated, files⟩]))

/-- `install`, once the skill is staged. `found` is the name in the front matter or else of the
directory. -/
def install (scope : Scope) (explicitName found : Option String) (staged : Dir)
    (source : SkillSource) (pinnedSha : Option String) : SkillProgram Root Dir Hash :=
  match explicitName <|> found with
  | none => .ret (.error (.registry "cannot determine skill name"))
  | some name =>
    match validateName name with
    | .error e => .ret (.error e)
    | .ok () =>
      .call (.swapIntoPlace (skillDir home scope name) staged) fun _ =>
      .call (.inspect (skillDir home scope name) none) fun files =>
      let info : SkillInfo Root Hash := {
        name, scope, source, pinnedSha
        path := skillDir home scope name
        enabled := true
        requiresTrust := (inspect files).requiresTrust
        trusted := false
        contentHash := (inspect files).contentHash }
      record home.root info (.ret (.ok [⟨info, files⟩]))

end Calls

/-- The calls, each with the root and the home it is made for. -/
inductive SkillCall (Root Dir : Type) where
  | list (home : SkillHome Root)
  | trust (home : SkillHome Root) (scope : Scope) (name : String)
  | setEnabled (home : SkillHome Root) (scope : Scope) (name : String) (enabled : Bool)
  | updateCheck (home : SkillHome Root) (scope : Scope) (name : String)
  | updateApply (home : SkillHome Root) (scope : Scope) (name : String)
      (upstream : SkillSource → Except SkillError (String × Dir))
  | install (home : SkillHome Root) (scope : Scope) (explicitName found : Option String)
      (staged : Dir) (source : SkillSource) (pinnedSha : Option String)

def SkillCall.program [DecidableEq Hash] (inspect : Dir → SkillFacts Hash) :
    SkillCall Root Dir → SkillProgram Root Dir Hash
  | .list home => Sync.list inspect home
  | .trust home scope name => Sync.trust inspect home scope name
  | .setEnabled home scope name enabled => Sync.setEnabled inspect home scope name enabled
  | .updateCheck home scope name => Sync.updateCheck inspect home scope name
  | .updateApply home scope name upstream => Sync.updateApply inspect home scope name upstream
  | .install home scope explicitName found staged source pinnedSha =>
    Sync.install inspect home scope explicitName found staged source pinnedSha

end Skills

end Tethys.Sync
