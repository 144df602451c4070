import Tethys.Lib.History
import Tethys.Git.Refs

/-!
# Deleting a worktree

`delete` looks at the worktree before it removes it, and then deletes the branch of the thread,
merged or not, and the refs of the thread. The worktrees of a repository share its refs and the
upstreams of its branches. What status reads of a worktree is the tree of its HEAD, its index
and its files.

`delete_keepsWork_iff` says when a deletion loses no work, and `guarded_of_upstream` where the guards
of the code see to it.
-/

namespace Tethys.Git

open Lib

/-! ## Repositories with worktrees -/

inductive Head (C : Type) where
  | branch (name : String)
  | detached (oid : C)
  deriving DecidableEq

/-- A linked worktree as the repository knows it; its directory may be gone. -/
structure Worktree (C : Type) where
  head : Head C
  index : Tree
  files : Option Tree
  locked : Bool
  deriving DecidableEq

/-- Commits and their trees. -/
structure Commits (C : Type) extends History C where
  tree : C → Tree

/-- The refs, the ref that each branch has as upstream, the HEAD of the main checkout, and the
linked worktrees by path. Other directories stand with what the guards read in the repository
that they lie in, if they lie in one. -/
structure Repository (C : Type) where
  refs : OrdMap String C
  upstream : OrdMap String String
  mainPath : String
  main : Worktree C
  worktrees : OrdMap String (Worktree C)
  elsewhere : OrdMap String (Option (List String × List C))

structure WorktreeInfo where
  threadId : String
  path : String
  branch : String
  mainCheckout : Bool

inductive DeleteError (C : Type) where
  | invalidArgument (reason : String)
  | deleteBlocked (uncommitted : List String) (unpushed : List C) (leased : Bool)
  | commandFailed (command : String)
  | invalidThread (thread : String)
  deriving DecidableEq

abbrev DeleteM (C α : Type) := ExceptT (DeleteError C) (StateM (Repository C)) α

def branchRef (name : String) : String := "refs/heads/" ++ name

/-- True when the path represents state not captured by HEAD. -/
def StatusEntry.isUncommitted (entry : StatusEntry) : Bool :=
  entry.untracked || entry.staged || entry.worktreeChanged

variable {C : Type}

def Head.commit (refs : OrdMap String C) : Head C → Option C
  | .branch name => refs.get (branchRef name)
  | .detached oid => some oid

namespace Repository

variable (commits : Commits C) (s : Repository C)

/-- What status reads in a worktree. -/
def view (w : Worktree C) : Repo where
  head := (w.head.commit s.refs).map fun c => .root (commits.tree c) 0 ""
  refs := .empty
  indexes := .ofList [("index", w.index)]
  worktree := w.files.getD .empty
  tempIndexCounter := 0
  now := 0

/-- The linked worktree whose directory is at the path. -/
def present (path : String) : Option (Worktree C) := (s.worktrees.get path).filter (·.files.isSome)

/-- The branch is checked out in the main checkout or in a linked worktree. -/
def checkedOut (name : String) : Bool :=
  let on (w : Worktree C) : Bool := match w.head with
    | .branch name' => name' = name
    | .detached _ => false
  on s.main || s.worktrees.entries.any fun e => on e.2

end Repository

/-! ## The operations -/

section Operations
variable [DecidableEq C] (g : Rules) (commits : Commits C)

/-- Paths that would be lost if the worktree were removed. -/
def uncommittedPaths (view : Repo) : List String :=
  ((parsePorcelainV2 (porcelainV2 (statusRecords g view))).filter (·.isUncommitted)).map (·.path)

/-- Commits on HEAD that have not reached its upstream (empty without one). -/
def unpushedCommits (s : Repository C) : Head C → Except (DeleteError C) (List C)
  | .detached _ => .ok []
  | .branch name =>
    match (s.upstream.get name).bind s.refs.get with
    | none => .ok []
    | some upstream =>
      match s.refs.get (branchRef name) with
      | none => .error (.commandFailed "rev-list")
      | some tip => .ok (commits.revList upstream tip)

/-- What the guards find in the directory, if there is one: in the worktree that it is, or in the
main checkout when it lies in no repository. -/
def guardsRead (s : Repository C) (path : String) :
    Option (Except (DeleteError C) (List String × List C)) :=
  let read (w : Worktree C) : Except (DeleteError C) (List String × List C) :=
    (unpushedCommits commits s w.head).map fun unpushed =>
      (uncommittedPaths g (s.view commits w), unpushed)
  match s.present path with
  | some w => some (read w)
  | none =>
    if path = s.mainPath then some (read s.main)
    else (s.elsewhere.get path).map fun found => found.elim (read s.main) .ok

/-- Run `git worktree remove` on a directory. -/
def worktreeRemove (forced : Bool) (path : String) : DeleteM C Unit := do
  let s ← get
  match s.present path with
  | none => throw (.commandFailed "worktree remove")
  | some w =>
    if w.locked || (!forced && !(statusRecords g (s.view commits w)).isEmpty) then
      throw (.commandFailed "worktree remove")
    else set { s with worktrees := s.worktrees.erase path }

/-- Run `git worktree prune`: worktrees whose directory is gone are forgotten. -/
def worktreePrune : DeleteM C Unit :=
  modify fun s => { s with
    worktrees := ⟨s.worktrees.entries.filter fun e => e.2.files.isSome || e.2.locked,
      s.worktrees.sorted.filter _⟩ }

/-- Run `git branch -D` on a branch, which fails when it is checked out; the failure is ignored. -/
def branchDelete (name : String) : DeleteM C Unit :=
  modify fun s =>
    if name = "" ∨ s.checkedOut name then s else { s with refs := s.refs.erase (branchRef name) }

def deleteRefs (dir : String) : DeleteM C Unit :=
  modify fun s => { s with
    refs := (s.refs.entries.filter fun e => inDir dir e.1).foldl (fun refs e => refs.erase e.1) s.refs }

/-- Deletes every ref belonging to a thread, archived included. -/
def deleteThreadRefs (thread : String) : DeleteM C Unit := do
  if validThread g thread then
    deleteRefs (threadDir thread)
    deleteRefs (archivedDir thread)
  else throw (.invalidThread thread)

/-- Refuses to remove a directory that is leased or holds work; nothing is to be removed where
there is no directory. -/
def removeDirectory (info : WorktreeInfo) (force leased : Bool) :
    Option (Except (DeleteError C) (List String × List C)) → DeleteM C Unit
  | none => pure ()
  | some (.error e) => throw e
  | some (.ok (uncommitted, unpushed)) =>
    if leased || (!force && (!uncommitted.isEmpty || !unpushed.isEmpty)) then
      throw (.deleteBlocked uncommitted unpushed leased)
    else worktreeRemove g commits (force || !uncommitted.isEmpty) info.path

/-- Removes a worktree, refusing unless it is clean or `force` is set. -/
def delete (info : WorktreeInfo) (force leased : Bool) : DeleteM C Unit :=
  if info.mainCheckout then throw (.invalidArgument "the main checkout cannot be deleted")
  else do
    let s ← get
    removeDirectory g commits info force leased (guardsRead g commits s info.path)
    worktreePrune
    branchDelete info.branch
    deleteThreadRefs g info.threadId

end Operations

/-! ## What a call that succeeds has done -/

/-- No file is staged, changed or untracked without being ignored. -/
structure Clean (g : Rules) (view : Repo) : Prop where
  staged : ∀ p, view.index.get p = view.headTree.get p
  changed : ∀ p, view.index.get p ≠ none → view.worktree.get p = view.index.get p
  untracked : ∀ p, view.index.get p = none → view.worktree.get p ≠ none →
    g.ignored view.worktree p.val = true

theorem diffCode_eq_unmodified {f f' : Option File} : diffCode f f' = .unmodified ↔ f = f' := by
  cases f with
  | none => cases f' <;> simp [diffCode]
  | some f =>
    cases f' with
    | none => simp [diffCode]
    | some f' =>
      simp only [diffCode, Option.some.injEq]
      split_ifs <;> simp_all

section Success
variable {g : Rules} {view : Repo}

theorem changedRecord_eq_none {p : Path} (h : changedRecord g view p = none) :
    view.headTree.get p = view.index.get p ∧
      (view.index.get p ≠ none → view.index.get p = view.worktree.get p) := by
  unfold changedRecord at h
  dsimp only at h
  split_ifs at h with hcodes
  refine ⟨diffCode_eq_unmodified.mp hcodes.1, fun hne => ?_⟩
  have hcode := hcodes.2
  rw [worktreeCode, if_neg hne] at hcode
  exact diffCode_eq_unmodified.mp hcode

theorem clean_of_statusRecords (h : statusRecords g view = []) : Clean g view := by
  obtain ⟨htracked, huntracked⟩ := List.append_eq_nil_iff.mp h
  have hrecord : ∀ p, view.headTree.get p = view.index.get p ∧
      (view.index.get p ≠ none → view.index.get p = view.worktree.get p) := by
    intro p
    by_cases hp : p ∈ view.trackedPaths
    · exact changedRecord_eq_none (List.filterMap_eq_nil_iff.mp htracked p hp)
    · simp only [Repo.trackedPaths, List.mem_mergeSort, List.mem_dedup, List.mem_append,
        FileTree.mem_paths, not_or, not_not] at hp
      exact ⟨hp.1.trans hp.2.symm, fun hne => absurd hp.2 hne⟩
  refine ⟨fun p => (hrecord p).1.symm, fun p hne => ((hrecord p).2 hne).symm, ?_⟩
  intro p hindex hfile
  have hnot := List.filter_eq_nil_iff.mp (List.map_eq_nil_iff.mp huntracked) p
    (FileTree.mem_paths.mpr hfile)
  simpa [isUntracked, hindex, Option.isSome_iff_ne_none.mpr hfile] using hnot

/-- Every record of status is reported as uncommitted. -/
theorem clean_of_uncommittedPaths (h : uncommittedPaths g view = []) : Clean g view := by
  refine clean_of_statusRecords (List.eq_nil_iff_forall_not_mem.mpr fun record hrecord => ?_)
  rw [uncommittedPaths, parsePorcelainV2_porcelainV2, List.map_eq_nil_iff,
    List.filter_eq_nil_iff] at h
  have hnot := h record.entry (List.mem_map.mpr ⟨record, hrecord, rfl⟩)
  refine hnot ?_
  rcases List.mem_append.mp hrecord with hrecord | hrecord
  · obtain ⟨p, -, hchanged⟩ := List.mem_filterMap.mp hrecord
    unfold changedRecord at hchanged
    dsimp only at hchanged
    split_ifs at hchanged with hcodes
    obtain rfl := Option.some.inj hchanged
    by_cases hstaged : stagedCode view p = .unmodified
    · have hworktree : worktreeCode view p ≠ .unmodified := fun heq => hcodes ⟨hstaged, heq⟩
      simp [StatusEntry.isUncommitted, StatusRecord.entry, hworktree]
    · simp [StatusEntry.isUncommitted, StatusRecord.entry, hstaged]
  · obtain ⟨p, -, rfl⟩ := List.mem_map.mp hrecord
    rfl

end Success

section Refs

/-- The refs of a directory are erased, and the others stay. -/
theorem get_eraseDir (refs : OrdMap String C) (dir name : String) :
    ((refs.entries.filter fun e => inDir dir e.1).foldl (fun refs e => refs.erase e.1) refs).get name =
      if inDir dir name then none else refs.get name := by
  have hfold : ∀ (l : List (String × C)) (refs : OrdMap String C),
      (l.foldl (fun refs e => refs.erase e.1) refs).get name =
        if name ∈ l.map Prod.fst then none else refs.get name := by
    intro l
    induction l with
    | nil => intro refs; rfl
    | cons e l ih =>
      intro refs
      rw [List.foldl_cons, ih, OrdMap.get_erase, List.map_cons]
      grind
  rw [hfold]
  by_cases hdir : inDir dir name = true
  · rw [if_pos hdir]
    split_ifs with hmem
    · rfl
    · by_contra hsome
      obtain ⟨oid, hoid⟩ := Option.ne_none_iff_exists'.mp hsome
      refine hmem (List.mem_map.mpr ⟨(name, oid), List.mem_filter.mpr ⟨?_, hdir⟩, rfl⟩)
      exact OrdMap.get_eq_some.mp hoid
  · have hmem : name ∉ (refs.entries.filter fun e => inDir dir e.1).map Prod.fst := by
      intro hmem
      obtain ⟨e, he, rfl⟩ := List.mem_map.mp hmem
      exact hdir (List.mem_filter.mp he).2
    rw [if_neg hmem, if_neg hdir]

/-- The ref is not deleted by a call on the worktree. -/
def Outlives (info : WorktreeInfo) (name : String) : Prop :=
  name ≠ branchRef info.branch ∧ inDir (threadDir info.threadId) name = false ∧
    inDir (archivedDir info.threadId) name = false

variable [DecidableEq C] {g : Rules} {commits : Commits C} {info : WorktreeInfo}
  {leased : Bool} {s t : Repository C}

omit [DecidableEq C] in
theorem deleteThreadRefs_eq_ok {thread : String}
    (h : (deleteThreadRefs g thread).run s = (.ok (), t)) (name : String) :
    t.refs.get name =
      if inDir (threadDir thread) name || inDir (archivedDir thread) name then none
      else s.refs.get name := by
  unfold deleteThreadRefs at h
  split_ifs at h with hvalid
  · cases h
    rw [get_eraseDir, get_eraseDir]
    cases inDir (threadDir thread) name <;> cases inDir (archivedDir thread) name <;> rfl
  · cases h

omit [DecidableEq C] in
/-- What the last commands of a deletion leave of the refs. -/
theorem deleteRest_eq_ok
    (h : (do
      worktreePrune
      branchDelete info.branch
      deleteThreadRefs g info.threadId : DeleteM C Unit).run s = (.ok (), t)) :
    (∀ name, Outlives info name → t.refs.get name = s.refs.get name) ∧
      ∀ name, name ≠ branchRef info.branch → t.refs.get name ≠ none → Outlives info name := by
  obtain ⟨_, s₁, hprune, hrest⟩ := run_bind_eq_ok h
  obtain ⟨_, s₂, hdelete, hrest⟩ := run_bind_eq_ok hrest
  have hbranch : ∀ name, name ≠ branchRef info.branch → s₂.refs.get name = s.refs.get name := by
    intro name hname
    cases hprune
    cases hdelete
    beta_reduce
    split_ifs
    · rfl
    · simp [hname]
  have hget := deleteThreadRefs_eq_ok hrest
  constructor
  · rintro name ⟨hname, hthread, harchived⟩
    rw [hget, hthread, harchived, if_neg (by decide), hbranch name hname]
  · intro name hname hsome
    rw [hget] at hsome
    split_ifs at hsome with hdir
    · exact absurd rfl hsome
    · rw [Bool.or_eq_true, not_or, Bool.not_eq_true, Bool.not_eq_true] at hdir
      exact ⟨hname, hdir⟩

/-- The directory was not there, or it is a worktree in which the guards found nothing. -/
theorem removeDirectory_eq_ok
    (h : (removeDirectory g commits info false leased (guardsRead g commits s info.path)).run s =
      (.ok (), t)) :
    t.refs = s.refs ∧ (guardsRead g commits s info.path = none ∨
      ∃ w, s.present info.path = some w ∧ leased = false ∧
        uncommittedPaths g (s.view commits w) = [] ∧ unpushedCommits commits s w.head = .ok []) := by
  cases hread : guardsRead g commits s info.path with
  | none =>
    rw [hread] at h
    cases h
    exact ⟨rfl, .inl rfl⟩
  | some found =>
    rw [hread] at h
    cases found with
    | error e => cases h
    | ok found =>
      obtain ⟨uncommitted, unpushed⟩ := found
      simp only [removeDirectory] at h
      split_ifs at h with hblocked
      · cases h
      · simp only [Bool.not_false, Bool.true_and, Bool.or_eq_true, Bool.not_eq_true', not_or,
          Bool.not_eq_true, List.isEmpty_eq_false_iff, not_not] at hblocked
        obtain ⟨hleased, rfl, rfl⟩ := hblocked
        unfold worktreeRemove at h
        rw [run_get_bind] at h
        cases hpresent : s.present info.path with
        | none =>
          rw [hpresent] at h
          cases h
        | some w =>
          simp only [hpresent] at h
          split_ifs at h
          · cases h
          · cases h
            refine ⟨rfl, .inr ⟨w, rfl, hleased, ?_⟩⟩
            simp only [guardsRead, hpresent, Option.some.injEq] at hread
            obtain ⟨unpushed, hunpushed, hpair⟩ := map_eq_ok hread
            obtain ⟨huncommitted, rfl⟩ := Prod.mk.inj hpair
            exact ⟨huncommitted, hunpushed⟩

/-- What a deletion that succeeds without force has seen and left. -/
theorem delete_eq_ok (h : (delete g commits info false leased).run s = (.ok (), t)) :
    (guardsRead g commits s info.path = none ∨
      ∃ w, s.present info.path = some w ∧ leased = false ∧
        uncommittedPaths g (s.view commits w) = [] ∧ unpushedCommits commits s w.head = .ok []) ∧
    (∀ name, Outlives info name → t.refs.get name = s.refs.get name) ∧
    ∀ name, name ≠ branchRef info.branch → t.refs.get name ≠ none → Outlives info name := by
  unfold delete at h
  split_ifs at h with hmain
  · cases h
  · rw [run_get_bind] at h
    obtain ⟨_, s₁, hremove, hrest⟩ := run_bind_eq_ok h
    obtain ⟨hrefs, hguards⟩ := removeDirectory_eq_ok hremove
    obtain ⟨hkept, hgone⟩ := deleteRest_eq_ok hrest
    rw [hrefs] at hkept
    exact ⟨hguards, hkept, hgone⟩

end Refs

/-! ## Deletion without force -/

section Work
variable [DecidableEq C] (g : Rules) (commits : Commits C) (info : WorktreeInfo) (leased : Bool)

/-- No work is lost: there was no lease, the worktree was clean, and every commit of the branch
is reachable from another ref afterwards. -/
structure KeepsWork (s t : Repository C) : Prop where
  unleased : leased = false
  clean : ∀ w, s.present info.path = some w → Clean g (s.view commits w)
  reachable : ∀ tip, s.refs.get (branchRef info.branch) = some tip → ∀ c, commits.Reaches tip c →
    ∃ name oid, name ≠ branchRef info.branch ∧ t.refs.get name = some oid ∧ commits.Reaches oid c

/-- A lease is only asked for where there is a directory, and the tip of the branch is reachable
from a ref that the call does not delete. -/
structure Guarded (s : Repository C) : Prop where
  directory : leased = true → guardsRead g commits s info.path ≠ none
  referenced : ∀ tip, s.refs.get (branchRef info.branch) = some tip →
    ∃ name oid, Outlives info name ∧ s.refs.get name = some oid ∧ commits.Reaches oid tip

variable {g commits info leased} {s t : Repository C}

theorem KeepsWork.of_guarded (h : (delete g commits info false leased).run s = (.ok (), t))
    (hguarded : Guarded g commits info leased s) : KeepsWork g commits info leased s t := by
  obtain ⟨hguards, hkept, -⟩ := delete_eq_ok h
  refine ⟨?_, fun w hw => ?_, fun tip htip c hc => ?_⟩
  · rcases hguards with hnone | ⟨w, -, hleased, -, -⟩
    · by_contra hleased
      exact hguarded.directory (by simpa using hleased) hnone
    · exact hleased
  · rcases hguards with hnone | ⟨w', hw', -, huncommitted, -⟩
    · simp [guardsRead, hw] at hnone
    · obtain rfl : w = w' := Option.some.inj (hw.symm.trans hw')
      exact clean_of_uncommittedPaths huncommitted
  · obtain ⟨name, oid, houtlives, hget, hreach⟩ := hguarded.referenced tip htip
    exact ⟨name, oid, houtlives.1, (hkept name houtlives).trans hget, hreach.trans hc⟩

/-- A deletion that succeeds without force loses no work if and only if it was guarded. -/
theorem delete_keepsWork_iff (h : (delete g commits info false leased).run s = (.ok (), t)) :
    KeepsWork g commits info leased s t ↔ Guarded g commits info leased s := by
  obtain ⟨-, hkept, hgone⟩ := delete_eq_ok h
  constructor
  · intro hwork
    refine ⟨fun hleased => ?_, fun tip htip => ?_⟩
    · rw [hwork.unleased] at hleased
      cases hleased
    · obtain ⟨name, oid, hname, hget, hreach⟩ := hwork.reachable tip htip tip (.refl tip)
      have houtlives := hgone name hname (by rw [hget]; exact Option.some_ne_none oid)
      exact ⟨name, oid, houtlives, (hkept name houtlives).symm.trans hget, hreach⟩
  · exact KeepsWork.of_guarded h

/-- Where the guards do their work: the worktree has the branch checked out, and the branch has an
upstream that stays. -/
theorem guarded_of_upstream (h : (delete g commits info false leased).run s = (.ok (), t))
    {w : Worktree C} (hw : s.present info.path = some w) (hhead : w.head = .branch info.branch)
    {name : String} (hupstream : s.upstream.get info.branch = some name)
    (houtlives : Outlives info name) (hexists : s.refs.get name ≠ none) :
    Guarded g commits info leased s := by
  obtain ⟨hguards, -, -⟩ := delete_eq_ok h
  have hdir : guardsRead g commits s info.path ≠ none := by simp [guardsRead, hw]
  refine ⟨fun _ => hdir, fun tip htip => ?_⟩
  obtain ⟨w', hw', -, -, hunpushed⟩ := hguards.resolve_left hdir
  obtain rfl : w = w' := Option.some.inj (hw.symm.trans hw')
  obtain ⟨oid, hoid⟩ := Option.ne_none_iff_exists'.mp hexists
  simp only [hhead, unpushedCommits, hupstream, Option.bind_some, hoid, htip,
    Except.ok.injEq] at hunpushed
  exact ⟨name, oid, houtlives, hoid, History.revList_eq_nil.mp hunpushed⟩

/-- So a deletion there loses no work. -/
theorem KeepsWork.of_upstream (h : (delete g commits info false leased).run s = (.ok (), t))
    {w : Worktree C} (hw : s.present info.path = some w) (hhead : w.head = .branch info.branch)
    {name : String} (hupstream : s.upstream.get info.branch = some name)
    (houtlives : Outlives info name) (hexists : s.refs.get name ≠ none) :
    KeepsWork g commits info leased s t :=
  .of_guarded h (guarded_of_upstream h hw hhead hupstream houtlives hexists)

/-- A worktree without changes whose branch has nothing to push is deleted. -/
theorem delete_run (g : Rules) (commits : Commits C) (info : WorktreeInfo) {w : Worktree C}
    (hmain : info.mainCheckout = false) (hw : s.present info.path = some w) (hlocked : w.locked = false)
    (hstatus : statusRecords g (s.view commits w) = [])
    (hunpushed : unpushedCommits commits s w.head = .ok [])
    (hvalid : validThread g info.threadId = true) :
    ∃ t, (delete g commits info false false).run s = (.ok (), t) := by
  have huncommitted : uncommittedPaths g (s.view commits w) = [] := by
    rw [uncommittedPaths, parsePorcelainV2_porcelainV2, hstatus]
    rfl
  have hread : guardsRead g commits s info.path = some (.ok ([], [])) := by
    simp only [guardsRead, hw, hunpushed, huncommitted]
    rfl
  have hremove : (removeDirectory g commits info false false (some (.ok ([], [])))).run s =
      (.ok (), { s with worktrees := s.worktrees.erase info.path }) := by
    simp only [removeDirectory, worktreeRemove, List.isEmpty_nil, Bool.not_true, Bool.or_false,
      Bool.and_false, Bool.false_eq_true, if_false]
    rw [run_get_bind]
    simp only [hw, hlocked, hstatus, List.isEmpty_nil, Bool.not_true, Bool.and_false, Bool.or_false,
      Bool.false_eq_true, if_false]
    rfl
  unfold delete
  rw [if_neg (by simp [hmain]), run_get_bind, hread, run_bind_ok hremove]
  unfold deleteThreadRefs
  simp only [hvalid, if_true]
  exact ⟨_, rfl⟩

end Work

/-! ## A branch that was never pushed -/

/-- Two commits without files, the second one after the first one. -/
def twoCommits : Commits Nat where
  parents c := if c = 1 then [0] else []
  height c := c
  height_lt c p hp := by
    split_ifs at hp with hc
    · obtain rfl := List.mem_singleton.mp hp
      omega
    · cases hp
  tree _ := .empty

def workInfo : WorktreeInfo := ⟨"t1", "/w", "work", false⟩

/-- The worktree has the second commit on its own branch, and the remote has the given commit. -/
def oneWorktree (pushed : Nat) (upstream : OrdMap String String) : Repository Nat where
  refs := .ofList [("refs/heads/main", 0), ("refs/heads/work", 1), ("refs/remotes/origin/work", pushed)]
  upstream := upstream
  mainPath := "/main"
  main := ⟨.branch "main", .empty, some .empty, false⟩
  worktrees := .ofList [("/w", ⟨.branch "work", .empty, some .empty, false⟩)]
  elsewhere := .empty

/-- The worktree that is deleted. -/
def workTree : Worktree Nat := ⟨.branch "work", .empty, some .empty, false⟩

theorem delete_keepsWork_pushed :
    ∃ t, (delete plainRules twoCommits workInfo false false).run
        (oneWorktree 1 (.ofList [("work", "refs/remotes/origin/work")])) = (.ok (), t) ∧
      KeepsWork plainRules twoCommits workInfo false
        (oneWorktree 1 (.ofList [("work", "refs/remotes/origin/work")])) t := by
  have hw : (oneWorktree 1 (.ofList [("work", "refs/remotes/origin/work")])).present "/w" =
      some workTree := by decide +kernel
  obtain ⟨t, hrun⟩ := delete_run plainRules twoCommits workInfo rfl hw rfl
    (statusRecords_empty rfl rfl rfl) (by decide +kernel) (by decide +kernel)
  have hupstream : (oneWorktree 1 (.ofList [("work", "refs/remotes/origin/work")])).upstream.get
      "work" = some "refs/remotes/origin/work" := by decide +kernel
  have houtlives : Outlives workInfo "refs/remotes/origin/work" :=
    ⟨by decide +kernel, by decide +kernel, by decide +kernel⟩
  refine ⟨t, hrun, (delete_keepsWork_iff hrun).mpr ?_⟩
  exact guarded_of_upstream hrun hw rfl hupstream houtlives (by decide +kernel)

/-- Without an upstream the guards find nothing, and the second commit is lost. -/
theorem delete_loses_commit :
    ∃ t, (delete plainRules twoCommits workInfo false false).run (oneWorktree 0 .empty) = (.ok (), t) ∧
      ¬KeepsWork plainRules twoCommits workInfo false (oneWorktree 0 .empty) t := by
  have hw : (oneWorktree 0 .empty).present "/w" = some workTree := by decide +kernel
  obtain ⟨t, hrun⟩ := delete_run plainRules twoCommits workInfo rfl hw rfl
    (statusRecords_empty rfl rfl rfl) (by decide +kernel) (by decide +kernel)
  refine ⟨t, hrun, fun hwork => ?_⟩
  obtain ⟨-, hkept, hgone⟩ := delete_eq_ok hrun
  obtain ⟨name, oid, hname, hget, hreach⟩ := hwork.reachable 1 (by decide +kernel) 1 (.refl 1)
  have houtlives := hgone name hname (by rw [hget]; exact Option.some_ne_none oid)
  rw [hkept name houtlives] at hget
  have hentries := OrdMap.mem_of_get_ofList hget
  simp only [List.mem_cons, Prod.mk.injEq, List.not_mem_nil, or_false] at hentries
  rw [← History.mem_ancestors] at hreach
  rcases hentries with ⟨-, rfl⟩ | ⟨rfl, -⟩ | ⟨-, rfl⟩
  · exact absurd hreach (by decide)
  · exact hname rfl
  · exact absurd hreach (by decide)

end Tethys.Git
