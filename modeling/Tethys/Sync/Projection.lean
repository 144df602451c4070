import Tethys.Sync.Projectors

/-!
# Plan and apply

`projection.rs` over one target file, with `entry_digest` and `file_digest` of `manifest.rs`
and the backups of `atomic.rs`. The hash function is a parameter. File operations can fail:
`Io` names the first one that does.
-/

namespace Tethys.Sync

open Schema Lib

/-- The hash of the serialized form of an entry, and of the bytes of a file. -/
structure Digests (Hash : Type) where
  entry : RegistryEntry → Hash
  file : String → Hash

section Plan
variable {Hash : Type} [DecidableEq Hash] (D : Digests Hash) (F : Formats)

/-- Canonical digest of one registry entry. The field `targets` is not serialized. -/
def entryDigest (entry : RegistryEntry) : Hash :=
  D.entry { entry with entryMeta.targets := none }

def unifiedDiff (before after : String) : String :=
  if before = after then "" else F.patch before after

structure PlanRequest (Hash : Type) where
  projector : Projector
  path : String
  scope : Scope
  original : Option String
  desired : List (String × RegistryEntry)
  /-- entry hashes Tethys last wrote, from the manifest -/
  owned : OrdMap String Hash

/-- Some env value of the entry is a keychain reference. -/
def hasSecretEnv (entry : RegistryEntry) : Bool :=
  entry.env.entries.any fun e => e.2.secretRef.isSome

/-- Codex has no place for the secrets of a stdio entry. -/
def omitsSecrets (target : TargetId) (entry : RegistryEntry) : Bool :=
  target = .codex ∧ entry.transport = .stdio ∧ hasSecretEnv entry

/-- What ownership and disk say about an entry. -/
def ownedState (owned : Option Hash) (onDisk : Option RegistryEntry) (entry : RegistryEntry) :
    EntryState × List String :=
  match owned, onDisk with
  | some ownedHash, some current =>
    if entryDigest D current ≠ ownedHash then (.conflict, ["entry changed outside Tethys"])
    else if entryDigest D entry = ownedHash then (.inSync, [])
    else (.pending, [])
  | some _, none => (.pending, [])
  | none, some _ => (.conflict, ["foreign entry with the same name"])
  | none, none => (.pending, [])

/-- The state of an entry in a plan. The check for omitted secrets replaces what ownership
and disk say. -/
def entryState (target : TargetId) (owned : Option Hash) (onDisk : Option RegistryEntry)
    (entry : RegistryEntry) : EntryState × List String :=
  let (state, notes) := ownedState D owned onDisk entry
  if omitsSecrets target entry then
    (.unsupported, notes ++ ["secret env values are omitted for codex stdio"])
  else (state, notes)

/-- One round of the loop of `plan`: the new content and the preview of the entry. -/
def planEntry (projector : Projector) (owned : OrdMap String Hash)
    (onDisk : OrdMap String RegistryEntry) (content name : String) (entry : RegistryEntry) :
    Except SyncError (String × EntryProjection) :=
  if entry.transport = .sse then
    .ok (content, ⟨name, .unsupported, false, ["sse transport is import-only"]⟩)
  else
    let (state, notes) := entryState D projector.target (owned.get name) (onDisk.get name) entry
    let projected := state ≠ .conflict
    let content := if projected ∧ state ≠ .inSync then projector.inject content name entry
      else .ok content
    content.map fun content => (content, ⟨name, state, projected, notes⟩)

def planEntries (projector : Projector) (owned : OrdMap String Hash)
    (onDisk : OrdMap String RegistryEntry) :
    String → List (String × RegistryEntry) → Except SyncError (String × List EntryProjection)
  | content, [] => .ok (content, [])
  | content, (name, entry) :: desired => do
    let (content, projection) ← planEntry D projector owned onDisk content name entry
    let (content, projections) ← planEntries projector owned onDisk content desired
    return (content, projection :: projections)

/-- The entries of the original file; a file that is created has none. -/
def entriesOnDisk (projector : Projector) (original : String) :
    Except SyncError (OrdMap String RegistryEntry) :=
  if blank original then .ok .empty else projector.readEntries original

/-- Builds a preview: per-entry states, proposed content, and a unified diff. -/
def plan (request : PlanRequest Hash) : Except SyncError (ProjectionPlan Hash) := do
  let original := request.original.getD ""
  let onDisk ← entriesOnDisk request.projector original
  let (content, entries) ←
    planEntries D request.projector request.owned onDisk original request.desired
  return {
    target := request.projector.target
    path := request.path
    scope := request.scope
    baseHash := D.file original
    created := blank original
    diff := unifiedDiff F original content
    content := content
    entries := entries
    providers := [] }

end Plan

/-- The files, the backups in each backup directory under the names of their files, and the
start of the hash of a path, which is part of the name of its backup directory. -/
structure Disk where
  files : String → Option String
  backups : String → OrdMap String String
  pathHash : String → String

namespace Disk

/-- URL-safe directory name for a config path, with a short path hash suffix. -/
def encodePath (disk : Disk) (path : String) : String :=
  String.ofList (path.toList.map fun c => if c.isAlphanum || c = '-' || c = '_' then c else '-') ++
    "-" ++ disk.pathHash path

/-- Number of backups retained per config path. -/
def backupRetention : Nat := 5

/-- Drop the oldest backups, in the order of their file names. -/
def prune (backups : OrdMap String String) : OrdMap String String where
  entries := backups.entries.drop (backups.entries.length - backupRetention)
  sorted := backups.sorted.sublist (List.drop_sublist _ _)

/-- Copy a file into its backup directory. -/
def backupFile (disk : Disk) (path : String) (now : Nat) : Disk :=
  match disk.files path with
  | none => disk
  | some text =>
    let dir := disk.encodePath path
    let backups := prune ((disk.backups dir).insert (toString now ++ ".bak") text)
    { disk with backups := fun d => if d = dir then backups else disk.backups d }

@[simp] theorem backupFile_files (disk : Disk) (path : String) (now : Nat) :
    (disk.backupFile path now).files = disk.files := by
  unfold backupFile
  split <;> rfl

/-- The text of the newest backup, in the order of the file names. -/
def newestBackup (disk : Disk) (path : String) : Option String :=
  (disk.backups (disk.encodePath path)).entries.getLast?.map Prod.snd

def writeAtomic (disk : Disk) (path content : String) : Disk :=
  { disk with files := fun p => if p = path then some content else disk.files p }

def removeFile (disk : Disk) (path : String) : Disk :=
  { disk with files := fun p => if p = path then none else disk.files p }

end Disk

/-- The first file operation that fails. -/
inductive Io where
  | ok
  | read (message : String)
  | backup (message : String)
  | write (message : String)
  deriving DecidableEq

section Apply
variable {Hash : Type} [DecidableEq Hash] (D : Digests Hash)

def conflicts (plan : ProjectionPlan Hash) : List String :=
  (plan.entries.filter fun entry => entry.state = .conflict).map (·.name)

/-- What apply returns, from the entries it reads back. -/
def applied (plan : ProjectionPlan Hash) (readBack : OrdMap String RegistryEntry) :
    Applied Hash where
  target := plan.target
  path := plan.path
  scope := plan.scope
  fileHash := D.file plan.content
  created := plan.created
  entries := .ofList ((plan.entries.filter (·.projected)).filterMap fun entry =>
    (readBack.get entry.name).map fun written => (entry.name, entryDigest D written))

/-- Applies a plan after re-reading the file and refusing stale bytes. -/
def apply (projector : Projector) (plan : ProjectionPlan Hash) (disk : Disk) (now : Nat)
    (io : Io) : Except SyncError (Applied Hash) × Disk :=
  match io with
  | .read message => (.error (.io message), disk)
  | _ =>
    if D.file ((disk.files plan.path).getD "") ≠ plan.baseHash then
      (.error (.stalePlan plan.path), disk)
    else if conflicts plan ≠ [] then
      (.error (.conflict ("entries changed outside Tethys: " ++ ", ".intercalate (conflicts plan))),
        disk)
    else match io with
      | .backup message => (.error (.io message), disk)
      | .write message => (.error (.io message), disk.backupFile plan.path now)
      | _ =>
        let disk := (disk.backupFile plan.path now).writeAtomic plan.path plan.content
        match projector.readEntries plan.content with
        | .error error => (.error error, disk)
        | .ok readBack => (.ok (applied D plan readBack), disk)

/-- Restores the newest backup (or deletes a file Tethys created). -/
def rollback (applied : Applied Hash) (disk : Disk) (force : Bool) :
    Except SyncError Unit × Disk :=
  match disk.files applied.path with
  | none => (.error (.notFound applied.path), disk)
  | some current =>
    if D.file current ≠ applied.fileHash ∧ !force then
      (.error (.conflict "file changed after the projection was applied"), disk)
    else if applied.created then (.ok (), disk.removeFile applied.path)
    else match disk.newestBackup applied.path with
      | none => (.error (.notFound ("backup for " ++ applied.path)), disk)
      | some contents => (.ok (), disk.writeAtomic applied.path contents)

end Apply

end Tethys.Sync
