import Tethys.Git.Repo

/-!
# Turn checkpoints, full-state restore, and undo capture

Checkpoints use a temporary index, so the user's index and branch are never touched. Restore
rolls back worktree and real index, after capturing an undo record that makes the restore
itself reversible.
-/

namespace Tethys.Git

open Lib

inductive CheckpointPhase where
  | start | final
  deriving DecidableEq

namespace CheckpointPhase

def edge : CheckpointPhase → String
  | start => "start"
  | final => "end"

def debug : CheckpointPhase → String
  | start => "Start"
  | final => "End"

/-- The order of `phase_rank`. -/
def rank : CheckpointPhase → Nat
  | start => 0
  | final => 1

end CheckpointPhase

def checkpointsRoot : String := "refs/tethys/checkpoints"
def restoreSegment : String := "restores"
def binarySniffBytes : Nat := 8 * 1024

/-- Checkpoint ref for a turn edge. -/
def turnRef (thread : String) (turn : Nat) (phase : CheckpointPhase) : String :=
  checkpointsRoot ++ "/" ++ thread ++ "/" ++ toString turn ++ "/" ++ phase.edge

/-- Ref holding one side of a restore's undo state. -/
def restoreRef (thread : String) (index : Nat) (kind : String) : String :=
  checkpointsRoot ++ "/" ++ thread ++ "/" ++ restoreSegment ++ "/" ++ toString index ++ "/" ++ kind

/-- Tree snapshot of a worktree plus the untracked files deliberately skipped. -/
structure Snapshot where
  tree : Oid
  skipped : List String
  deriving DecidableEq

structure CheckpointInfo where
  threadId : String
  turn : Nat
  phase : CheckpointPhase
  commitOid : Oid
  treeOid : Oid
  createdAt : Nat

structure CheckpointResult where
  threadId : String
  turn : Nat
  phase : CheckpointPhase
  refName : String
  commitOid : Oid
  treeOid : Oid
  skipped : List String

inductive RestoreTarget where
  | checkpoint (threadId : String) (turn : Nat) (phase : CheckpointPhase)
  | trees (threadId : String) (worktreeTree indexTree : Rev)

inductive RestorePolicy where
  | requireClean | force
  deriving DecidableEq

structure UndoCapture where
  worktreeRef : String
  indexRef : String
  worktreeTree : Oid
  indexTree : Oid

structure RestoreOutcome where
  restoredWorktreeTree : Rev
  restoredIndexTree : Rev
  undo : UndoCapture

/-- One ref and its commit oid, tree, and committer time. -/
structure RefEntry where
  refname : String
  oid : Option Oid
  tree : Option Oid
  createdAtUnix : Nat

/-! ## Refs -/

/-- Rejects thread ids that could escape the checkpoint namespace. -/
def validThread (g : Rules) (thread : String) : Bool :=
  !(thread.isEmpty || decide (200 < thread.utf8ByteSize) ||
    thread.toList.any (fun c => c = '/' || c = '\\')) &&
    g.checkRefFormat (turnRef thread 0 .final)

def validateThread (g : Rules) (thread : String) : GitM Unit :=
  if validThread g thread then return () else throw (.invalidThread thread)

/-- The fields that `for-each-ref` prints for a ref; only a commit has a tree. -/
def refEntry (refname : String) : Oid → RefEntry
  | .tree t => ⟨refname, some (.tree t), none, 0⟩
  | .root t time message => ⟨refname, some (.root t time message), some (.tree t), time⟩
  | .commit t parent time message =>
    ⟨refname, some (.commit t parent time message), some (.tree t), time⟩

/-- Lists refs under a directory of refs with their oids, trees, and dates in one call. -/
def listRefs (dir : String) : GitM (List RefEntry) := do
  let s ← get
  return (s.refs.entries.filter fun e => dir.toList.isPrefixOf e.1.toList).map
    fun e => refEntry e.1 e.2

/-- What `parse::<u32>` reads: digits, with an optional plus sign. -/
def parseU32 (text : List Char) : Option Nat :=
  let digits := if text.head? = some '+' then text.tail else text
  if digits ≠ [] ∧ digits.all Char.isDigit then
    let n := digits.foldl (fun n c => 10 * n + (c.toNat - '0'.toNat)) 0
    if n < 2 ^ 32 then some n else none
  else none

def parseCheckpointRef (refname : String) : Option (Nat × CheckpointPhase) :=
  if checkpointsRoot.toList.isPrefixOf refname.toList then
    let rest := (refname.toList.drop checkpointsRoot.length).dropWhile (· = '/')
    match rest.splitOn '/' with
    | _ :: turn :: phase :: _ =>
      (parseU32 turn).bind fun turn =>
        if phase = "start".toList then some (turn, .start)
        else if phase = "end".toList then some (turn, .final)
        else none
    | _ => none
  else none

/-- The checkpoint that a listed ref stands for. -/
def checkpointInfo (thread : String) (entry : RefEntry) : Option CheckpointInfo :=
  (parseCheckpointRef entry.refname).bind fun (turn, phase) =>
    entry.oid.map fun commitOid =>
      let treeOid := entry.tree.getD (.tree commitOid.peel)
      ⟨thread, turn, phase, commitOid, treeOid, entry.createdAtUnix * 1000⟩

/-- Lists a thread's checkpoints ordered by turn then phase. -/
def list (g : Rules) (thread : String) : GitM (List CheckpointInfo) := do
  validateThread g thread
  let entries ← listRefs (checkpointsRoot ++ "/" ++ thread ++ "/")
  let infos := entries.filterMap (checkpointInfo thread)
  return infos.mergeSort fun a b =>
    decide (a.turn < b.turn) || (a.turn = b.turn && decide (a.phase.rank ≤ b.phase.rank))

def latestEnd (g : Rules) (thread : String) : GitM (Option CheckpointInfo) := do
  let infos ← list g thread
  return (infos.filter (·.phase = .final)).getLast?

def latestEndCommit (g : Rules) (thread : String) : GitM (Option Oid) := do
  return (← latestEnd g thread).map (·.commitOid)

def latestEndTree (g : Rules) (thread : String) : GitM (Option Oid) := do
  return (← latestEnd g thread).map (·.treeOid)

/-- What `trim_start_matches` leaves: the text is cut off as often as it stands in front. -/
def trimStartMatches (pat : List Char) : Nat → List Char → List Char
  | 0, text => text
  | fuel + 1, text =>
    if pat.isPrefixOf text then trimStartMatches pat fuel (text.drop pat.length) else text

/-- The index of a restore capture that the ref belongs to. -/
def restoreIndexOf (dir : String) (refname : String) : Option Nat :=
  let remainder := trimStartMatches dir.toList refname.length refname.toList
  if '/' ∈ remainder then parseU32 (remainder.takeWhile (· ≠ '/')) else none

def nextRestoreIndex (thread : String) : GitM Nat := do
  let dir := checkpointsRoot ++ "/" ++ thread ++ "/" ++ restoreSegment ++ "/"
  let entries ← listRefs dir
  let max := (entries.filterMap fun entry => restoreIndexOf dir entry.refname).max?
  -- the sum wraps in a release build
  return max.elim 0 fun current => (current + 1) % 2 ^ 32

def commitTree (tree : Oid) (parent : Option Oid) (message : String) : GitM Oid := do
  let s ← get
  return match parent with
    | none => .root tree.peel s.now message
    | some parent => .commit tree.peel parent s.now message

def writeRef (refname : String) (oid : Oid) : GitM Unit :=
  modify fun s => { s with refs := s.refs.insert refname oid }

/-! ## Snapshots -/

/-- The file at a path of the worktree, as `symlink_metadata` and `open` find it. -/
def fileAt (t : Tree) (text : String) : Option File :=
  if h : nul ∉ text.toList then t.get ⟨text, h⟩ else none

def shouldSkipUntracked (worktree : Tree) (path : String) (threshold : Nat) : Bool :=
  match fileAt worktree path with
  | none => false
  | some file =>
    if file.mode = .symlink ∨ file.bytes.length ≤ threshold then false
    else (file.bytes.take binarySniffBytes).contains 0

/-- The entry is left out of the snapshot. -/
def skips (worktree : Tree) (skipUntrackedBinaryBytes : Nat) (entry : StatusEntry) : Bool :=
  entry.untracked && decide (0 < skipUntrackedBinaryBytes) &&
    shouldSkipUntracked worktree entry.path skipUntrackedBinaryBytes

def addPathspecs (g : Rules) (name : String) (paths : List String) : GitM Unit :=
  gitAdd g name (paths.flatMap fun path => path.toList ++ [nul])

/-- Does not run `git add` when there is nothing to add. -/
def addChanged (g : Rules) (name : String) (paths : List String) : GitM Unit :=
  if paths.isEmpty then return () else addPathspecs g name paths

/-- The part of a snapshot that works on its temporary index. -/
def snapshotInto (g : Rules) (repo : GitRepo) (skipUntrackedBinaryBytes : Nat) (name : String) :
    GitM Snapshot := do
  TempIndex.seed repo name
  let entries ← statusEntries g
  let s ← get
  let (skipped, paths) := entries.partition (skips s.worktree skipUntrackedBinaryBytes)
  addChanged g name (paths.map (·.path))
  let tree ← gitWriteTree name
  return ⟨tree, skipped.map (·.path)⟩

/-- Snapshots the worktree through a temporary index, skipping configured untracked
binaries. -/
def snapshotWorktree (g : Rules) (repo : GitRepo) (tag : String)
    (skipUntrackedBinaryBytes : Nat) : GitM Snapshot :=
  TempIndex.within g tag (snapshotInto g repo skipUntrackedBinaryBytes)

/-! ## Create and restore -/

section Operations
variable (g : Rules) (repo : GitRepo)

/-- The checkpoint that a new one of the phase follows. -/
def parentOf (thread : String) (turn : Nat) : CheckpointPhase → GitM (Option Oid)
  | .start => latestEndCommit g thread
  | .final => do
    let s ← get
    match s.revParse g (.text (turnRef thread turn .start)) with
    | some start => return some start
    | none => latestEndCommit g thread

/-- Writes a start or end checkpoint and returns its ref. -/
def create (thread : String) (turn : Nat) (phase : CheckpointPhase)
    (skipUntrackedBinaryBytes : Nat) : GitM CheckpointResult := do
  validateThread g thread
  let parent ← parentOf g thread turn phase
  let tag := "cp_" ++ thread ++ "_" ++ toString turn ++ "_" ++ phase.debug
  let snapshot ← snapshotWorktree g repo tag skipUntrackedBinaryBytes
  let message := "tethys checkpoint " ++ thread ++ " turn " ++ toString turn ++ " " ++ phase.debug
  let commitOid ← commitTree snapshot.tree (parent.or repo.headOid) message
  let refName := turnRef thread turn phase
  writeRef refName commitOid
  return ⟨thread, turn, phase, refName, commitOid, snapshot.tree, snapshot.skipped⟩

def resolveTarget : RestoreTarget → GitM (String × Rev × Rev)
  | .checkpoint threadId turn phase => do
    validateThread g threadId
    let s ← get
    let refName := turnRef threadId turn phase
    match s.revParse g (.text refName) with
    | none => throw (.checkpointNotFound refName)
    | some commit => return (threadId, .oid (.tree commit.peel), .oid (.tree commit.peel))
  | .trees threadId worktreeTree indexTree => do
    validateThread g threadId
    return (threadId, worktreeTree, indexTree)

/-- The policy that refuses to restore over changes since the latest end checkpoint. -/
def requireClean (thread : String) (skipUntrackedBinaryBytes : Nat) : GitM Unit := do
  match ← latestEndTree g thread with
  | none => throw (.restoreBlocked "no end checkpoint to compare against")
  | some reference =>
    let current ← snapshotWorktree g repo "require_clean" skipUntrackedBinaryBytes
    let currentIndex ← gitWriteTree "index"
    if current.tree ≠ reference ∨ currentIndex ≠ reference then
      throw (.restoreBlocked "worktree or index differs from the latest end checkpoint")

/-- Keeps the two trees under the next restore index of the thread. -/
def storeUndo (thread : String) (undoWorktree undoIndex : Oid) : GitM UndoCapture := do
  let next ← nextRestoreIndex thread
  let worktreeRef := restoreRef thread next "worktree"
  let indexRef := restoreRef thread next "index"
  let worktreeCommit ← commitTree undoWorktree none "tethys restore undo (worktree)"
  let indexCommit ← commitTree undoIndex none "tethys restore undo (index)"
  writeRef worktreeRef worktreeCommit
  writeRef indexRef indexCommit
  return ⟨worktreeRef, indexRef, undoWorktree, undoIndex⟩

/-- Captures the worktree and the index before they are reset. -/
def captureUndo (thread : String) (skipUntrackedBinaryBytes : Nat) : GitM UndoCapture := do
  let undoWorktree ← snapshotWorktree g repo "restore_undo" skipUntrackedBinaryBytes
  let undoIndex ← gitWriteTree "index"
  storeUndo thread undoWorktree.tree undoIndex

/-- The two `read-tree` runs of a restore. -/
def resetTo (worktreeTree indexTree : Rev) : GitM Unit := do
  readTreeReset g true worktreeTree
  if indexTree ≠ worktreeTree then
    readTreeReset g false indexTree

/-- Restores a checkpoint (or explicit trees) and returns the undo capture. -/
def restore (target : RestoreTarget) (policy : RestorePolicy)
    (skipUntrackedBinaryBytes : Nat) : GitM RestoreOutcome := do
  let (thread, worktreeTree, indexTree) ← resolveTarget g target
  if policy = .requireClean then
    requireClean g repo thread skipUntrackedBinaryBytes
  let undo ← captureUndo g repo thread skipUntrackedBinaryBytes
  resetTo g worktreeTree indexTree
  return ⟨worktreeTree, indexTree, undo⟩

end Operations

end Tethys.Git
