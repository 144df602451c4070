import Tethys.Lib.Results
import Tethys.Git.Read

/-!
# Repositories and the git commands

The part of a repository that the checkpoints read and write: HEAD, the refs, the index files
in the git directory, and the worktree. Git itself is not part of the sources: its commands
follow the documentation, and what they leave to the reading of a pattern (which paths are
ignored, which paths a pathspec matches) is a parameter.

The name of an object is a function of its content, so an object stands for its own name.
Content filters, submodules, sparse checkouts and unmerged paths are left out.
-/

namespace Tethys.Git

open Lib

inductive Mode where
  | regular | executable | symlink
  deriving DecidableEq

structure File where
  mode : Mode
  bytes : List UInt8
  deriving DecidableEq

abbrev Tree := FileTree Path File

/-- A tree, a commit without parent, or a commit with its parent. -/
inductive Oid where
  | tree (tree : Tree)
  | root (tree : Tree) (time : Nat) (message : String)
  | commit (tree : Tree) (parent : Oid) (time : Nat) (message : String)
  deriving DecidableEq

/-- The tree that `<oid>^{tree}` names. -/
def Oid.peel : Oid → Tree
  | .tree t => t
  | .root t _ _ => t
  | .commit t _ _ _ => t

/-- A revision as it is passed to git: an object name, or any other text. -/
inductive Rev where
  | oid (oid : Oid)
  | text (text : String)
  deriving DecidableEq

/-- A pathspec as git reads it: whether it excludes, the path that stands after the magic, the
part of it before the first wildcard, and the paths that it matches. -/
structure Pathspec where
  exclude : Bool
  path : String
  fixed : String
  selects : Path → Bool

/-- How git reads patterns and names. A pathspec that cannot be read is `none`. -/
structure Rules where
  ignored : Tree → String → Bool
  pathspec : String → Option Pathspec
  blobOid : List UInt8 → Word
  /-- Revisions other than object names and full names of refs. -/
  revision : Option Oid → OrdMap String Oid → String → Option Oid
  checkRefFormat : String → Bool
  pid : Nat

/-- The repository and its worktree. The index files of the git directory are kept by name;
`TEMP_INDEX_COUNTER` and the clock belong to the process. -/
structure Repo where
  head : Option Oid
  refs : OrdMap String Oid
  indexes : OrdMap String Tree
  worktree : Tree
  tempIndexCounter : Nat
  now : Nat

inductive GitError where
  | commandFailed (command : String)
  | checkpointNotFound (ref : String)
  | restoreBlocked (reason : String)
  | invalidThread (thread : String)
  deriving DecidableEq

/-- A command that keeps what it has done when it fails. -/
abbrev GitM (α : Type) := ExceptT GitError (StateM Repo) α

namespace Repo

def headTree (s : Repo) : Tree := (s.head.map Oid.peel).getD .empty

/-- The index that the commands read when no other one is named; a missing file is empty. -/
def index (s : Repo) : Tree := (s.indexes.get "index").getD .empty

end Repo

/-! ## `git status` -/

/-- How the second of two states of a path differs from the first. -/
def diffCode : Option File → Option File → Code
  | none, none => .unmodified
  | none, some _ => .added
  | some _, none => .deleted
  | some f, some f' =>
    if f = f' then .unmodified
    else if (f.mode = .symlink) ≠ (f'.mode = .symlink) then .typeChanged
    else .modified

def modeWord : Option File → Word
  | none => ⟨"000000", by decide⟩
  | some ⟨.regular, _⟩ => ⟨"100644", by decide⟩
  | some ⟨.executable, _⟩ => ⟨"100755", by decide⟩
  | some ⟨.symlink, _⟩ => ⟨"120000", by decide⟩

section Status
variable (g : Rules) (s : Repo)

def hashWord : Option File → Word
  | none => ⟨"0000000000000000000000000000000000000000", by decide⟩
  | some f => g.blobOid f.bytes

/-- The paths that HEAD or the index holds, in order. -/
def Repo.trackedPaths : List Path :=
  (s.headTree.paths ++ s.index.paths).dedup.mergeSort (· ≤ ·)

def stagedCode (p : Path) : Code := diffCode (s.headTree.get p) (s.index.get p)

/-- A path that the index does not hold has no state in the worktree here: it is untracked. -/
def worktreeCode (p : Path) : Code :=
  if s.index.get p = none then .unmodified else diffCode (s.index.get p) (s.worktree.get p)

def changedRecord (p : Path) : Option StatusRecord :=
  let x := stagedCode s p
  let y := worktreeCode s p
  if x = .unmodified ∧ y = .unmodified then none
  else
    some (.changed x y ⟨"N...", by decide⟩ (modeWord (s.headTree.get p)) (modeWord (s.index.get p))
      (modeWord (s.worktree.get p)) (hashWord g (s.headTree.get p)) (hashWord g (s.index.get p)) p)

/-- Untracked and not ignored. -/
def isUntracked (p : Path) : Bool :=
  s.index.get p = none && (s.worktree.get p).isSome && !g.ignored s.worktree p.val

/-- The records of `git status --porcelain=v2 -z -uall --no-renames`. -/
def statusRecords : List StatusRecord :=
  s.trackedPaths.filterMap (changedRecord g s) ++
    (s.worktree.paths.filter (isUntracked g s)).map .untracked

end Status

/-- Lists every changed path (untracked included, ignored excluded). -/
def statusEntries (g : Rules) : GitM (List StatusEntry) := do
  let s ← get
  return parsePorcelainV2 (porcelainV2 (statusRecords g s))

/-! ## `git add -A` -/

/-- The text names the path or a directory it lies in. -/
def names (text : List Char) (p : Path) : Bool :=
  p.val.toList = text || (text ++ ['/']).isPrefixOf p.val.toList

/-- A file or a directory of the name is there. -/
def present (t : Tree) (text : List Char) : Bool := t.paths.any (names text)

/-- The directories that a path of this text lies in. -/
def directories : List Char → List (List Char)
  | [] => []
  | c :: text => (if c = '/' then [[]] else []) ++ (directories text).map (c :: ·)

section Add
variable (g : Rules) (index worktree : Tree)

/-- Taken into the index when a pathspec selects it: tracked, or not ignored. -/
def addable (p : Path) : Bool := (index.get p).isSome || !g.ignored worktree p.val

/-- The pathspec finds something: a path to take or to remove, or a file of its own name. -/
def Pathspec.found (spec : Pathspec) : Bool :=
  (index.paths ++ worktree.paths).any (fun p => spec.selects p && addable g index worktree p) ||
    present worktree spec.path.toList

/-- The pathspec names an ignored path that is not tracked, or something inside of it. -/
def Pathspec.namesIgnored (spec : Pathspec) : Bool :=
  (spec.fixed.toList :: directories spec.fixed.toList).any fun text =>
    present worktree text && g.ignored worktree (String.ofList text) && !present index text

/-- A pathspec that matches nothing and one that names an ignored path make `git add` fail. -/
def accepts (specs : List Pathspec) : Bool :=
  specs.all fun spec =>
    (spec.exclude || spec.found g index worktree) && !spec.namesIgnored g index worktree

/-- The path is matched by a pathspec and excluded by none; excluding ones alone stand beside
one that matches everything. -/
def selected (specs : List Pathspec) (p : Path) : Bool :=
  (specs.all (·.exclude) || specs.any (fun spec => !spec.exclude && spec.selects p)) &&
    !specs.any (fun spec => spec.exclude && spec.selects p)

/-- The index after `git add -A` with the pathspecs: a selected path is as in the worktree. -/
def stage (specs : List Pathspec) : Tree :=
  .overlay (selected specs) (worktree.filter (addable g index worktree)) index

end Add

/-- The pathspecs that `--pathspec-from-file=- --pathspec-file-nul` reads. -/
def readPathspecs (g : Rules) (input : List Char) : Option (List Pathspec) :=
  ((input.splitOn nul).dropLast.map String.ofList).mapM g.pathspec

/-! ## The commands that read and write an index -/

def Repo.setIndex (s : Repo) (name : String) (t : Tree) : Repo :=
  { s with indexes := s.indexes.insert name t }

def Repo.removeIndex (s : Repo) (name : String) : Repo :=
  { s with indexes := s.indexes.erase name }

section Commands
variable (g : Rules) (name : String)

/-- Run `git add -A --pathspec-from-file=- --pathspec-file-nul` on an index file. -/
def gitAdd (input : List Char) : GitM Unit := do
  let s ← get
  let index := (s.indexes.get name).getD .empty
  match readPathspecs g input with
  | none => throw (.commandFailed "add -A --pathspec-from-file=-")
  | some specs =>
    if accepts g index s.worktree specs then
      set (s.setIndex name (stage g index s.worktree specs))
    else throw (.commandFailed "add -A --pathspec-from-file=-")

/-- Run `git write-tree` on an index file. -/
def gitWriteTree : GitM Oid := do
  let s ← get
  return .tree ((s.indexes.get name).getD .empty)

/-- What `rev-parse --verify -q` finds: an object name, the full name of a ref, or another
revision. -/
def Repo.revParse (s : Repo) : Rev → Option Oid
  | .oid oid => some oid
  | .text text => (s.refs.get text).or (g.revision s.head s.refs text)

/-- Run `git read-tree HEAD` into an index file. -/
def gitReadTreeHead : GitM Unit := do
  let s ← get
  match s.head with
  | none => throw (.commandFailed "read-tree HEAD")
  | some oid => set (s.setIndex name oid.peel)

/-- The worktree after `read-tree -u --reset`: the paths of the index and of the tree are as in
the tree, and what is in the way of its files is removed. -/
def checkout (index target worktree : Tree) : Tree :=
  .overlay (fun p => (index.get p).isSome || (target.get p).isSome) target worktree

/-- The repository after `read-tree --reset`, with `-u` or without. -/
def Repo.readTree (s : Repo) (update : Bool) (t : Tree) : Repo :=
  { s.setIndex "index" t with
    worktree := if update then checkout s.index t s.worktree else s.worktree }

def readTreeReset (update : Bool) (rev : Rev) : GitM Unit := do
  let s ← get
  match s.revParse g rev with
  | none => throw (.commandFailed (if update then "read-tree -u --reset" else "read-tree --reset"))
  | some oid => set (s.readTree update oid.peel)

end Commands

/-! ## Temporary indexes -/

/-- The engine: what was resolved when the repository was opened. -/
structure GitRepo where
  headOid : Option Oid

namespace TempIndex

def safe (tag : String) : String := tag.map fun c => if c.isAlphanum then c else '_'

def fileName (pid counter : Nat) (tag : String) : String :=
  "tethys_index_" ++ toString pid ++ "_" ++ toString counter ++ "_" ++ safe tag

/-- Copies the worktree's real index, falling back to HEAD (or empty). -/
def seed (repo : GitRepo) (name : String) : GitM Unit := do
  let s ← get
  match s.indexes.get "index" with
  | some index => set (s.setIndex name index)
  | none =>
    if repo.headOid.isSome then gitReadTreeHead name
    else set (s.setIndex name .empty)

/-- Allocates an index file for the body and removes it after it, also when the body fails. -/
def within {α : Type} (g : Rules) (tag : String) (body : String → GitM α) : GitM α :=
  ExceptT.mk fun s =>
    let name := fileName g.pid s.tempIndexCounter tag
    let s := { s.removeIndex name with tempIndexCounter := s.tempIndexCounter + 1 }
    let (r, s) := (body name).run s
    (r, s.removeIndex name)

end TempIndex

end Tethys.Git
