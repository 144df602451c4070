import Tethys.Core.Worktree
import Tethys.Git.Deletion

/-!
# When the creation of a worktree fails

`create` of `tethys-git/src/worktree.rs`, from the call of `git worktree add` on. It makes a branch
and a worktree; what is undone when a later step fails is the worktree, and nothing when HEAD cannot
be read. `rolledBack_iff` says when nothing is left all the same.
-/

namespace Tethys.Core

open Lib
open Git (Tree Commits Repository branchRef)

/-- A spec with what is done in the new worktree. -/
structure SetupSpec extends WorktreeSpec where
  bootstrapGlobs : List String
  setupScript : Option String

/-- The step at which the creation fails. -/
inductive WorktreeCreateError where
  | checks (error : WorktreeError)
  | add
  | bootstrap
  | setup
  | head
  deriving DecidableEq

structure CreatedWorktree (C : Type) where
  path : String
  branch : String
  base : String
  head : Option C
  mainCheckout : Bool

/-- What the creation meets. A script can do anything to the repository before it is answered for. -/
structure CreateWorld (C : Type) where
  commits : Commits C
  /-- the commit that a base names -/
  base : Repository C → String → Option C
  /-- the bootstrap copy: whether it succeeds, and the files with those that were copied -/
  copy : List String → Tree → Bool × Tree
  /-- the setup runner -/
  runScript : String → Repository C → Bool × Repository C
  readHead : Repository C → String → Option C

namespace CreateWorld
variable {C : Type} (world : CreateWorld C)

/-- `git worktree add -b`. -/
def worktreeAdd (branch path base : String) (s : Repository C) : Option (Repository C) :=
  if (s.refs.get (branchRef branch)).isSome ∨ (s.worktrees.get path).isSome then none
  else (world.base s base).map fun oid =>
    { s with
      refs := s.refs.insert (branchRef branch) oid
      worktrees := s.worktrees.insert path
        ⟨.branch branch, world.commits.tree oid, some (world.commits.tree oid), false⟩
      elsewhere := s.elsewhere.erase path }

/-- The script of a spec, unless it is blank. -/
def scriptOf (spec : SetupSpec) : Option String :=
  (spec.setupScript.map fun script => String.ofList (trim script.toList)).filter (· ≠ "")

/-- The files of the worktree after the bootstrap copy, and whether it succeeded. -/
def bootstrap (spec : SetupSpec) (path : String) (s : Repository C) : Bool × Repository C :=
  match s.worktrees.get path with
  | none => (false, s)
  | some w =>
    let copied := world.copy spec.bootstrapGlobs (w.files.getD .empty)
    (copied.1, { s with worktrees := s.worktrees.insert path { w with files := some copied.2 } })

/-- What the script answers, and leaves. -/
def ran (spec : SetupSpec) (path script : String) (s : Repository C) : Bool × Repository C :=
  world.runScript script (world.bootstrap spec path s).2

/-- The steps in the new worktree that are cleaned up after. -/
def prepare (spec : SetupSpec) (path : String) (s : Repository C) :
    Except WorktreeCreateError Unit × Repository C :=
  if (world.bootstrap spec path s).1 then
    match scriptOf spec with
    | none => (.ok (), (world.bootstrap spec path s).2)
    | some script =>
      (if (world.ran spec path script s).1 then .ok () else .error .setup,
        (world.ran spec path script s).2)
  else (.error .bootstrap, (world.bootstrap spec path s).2)

/-- `git worktree remove --force`, whose failure is ignored. -/
def forceRemove (path : String) (s : Repository C) : Repository C :=
  match s.worktrees.get path with
  | some w => if w.locked then s else { s with worktrees := s.worktrees.erase path }
  | none => s

def create (host : WorktreeHost) (spec : SetupSpec) (s : Repository C) :
    Except WorktreeCreateError (CreatedWorktree C) × Repository C :=
  match host.create spec.toWorktreeSpec with
  | .error e => (.error (.checks e), s)
  | .ok .mainCheckout => (.ok ⟨s.mainPath, "", spec.base, s.main.head.commit s.refs, true⟩, s)
  | .ok (.add branch path base) =>
    match world.worktreeAdd branch path base s with
    | none => (.error .add, s)
    | some s =>
      match world.prepare spec path s with
      | (.error e, s) => (.error e, forceRemove path s)
      | (.ok (), s) =>
        match world.readHead s path with
        | none => (.error .head, s)
        | some head => (.ok ⟨path, branch, base, some head, false⟩, s)

end CreateWorld

/-! ## What is left -/

/-- Neither the worktree nor another directory stands at the path, and the branch is gone. -/
structure RolledBack {C : Type} (branch path : String) (s : Repository C) : Prop where
  worktree : s.worktrees.get path = none
  directory : s.elsewhere.get path = none
  branch : s.refs.get (branchRef branch) = none

section Rollback
variable {C : Type} {world : CreateWorld C} {host : WorktreeHost} {spec : SetupSpec}
  {branch path base : String} {s t added : Repository C} {e : WorktreeCreateError}

/-- The branch is deleted, and the worktree too, unless the script fails and leaves it unlocked. -/
def Undone (branch path : String) (ran : Bool × Repository C) : Prop :=
  ran.2.refs.get (branchRef branch) = none ∧ ran.2.elsewhere.get path = none ∧
    ∀ w, ran.2.worktrees.get path = some w → ran.1 = false ∧ w.locked = false

/-- The setup script is run and has undone it. -/
def UndoneByScript (world : CreateWorld C) (spec : SetupSpec) (branch path : String)
    (added : Repository C) : Prop :=
  (world.bootstrap spec path added).1 = true ∧
    ∃ script ∈ CreateWorld.scriptOf spec, Undone branch path (world.ran spec path script added)

/-- What is left when the worktree is cleaned up after. -/
theorem rolledBack_forceRemove_iff : RolledBack branch path (CreateWorld.forceRemove path s) ↔
    s.refs.get (branchRef branch) = none ∧ s.elsewhere.get path = none ∧
      ∀ w, s.worktrees.get path = some w → w.locked = false := by
  cases hget : s.worktrees.get path with
  | none =>
    have hkept : CreateWorld.forceRemove path s = s := by rw [CreateWorld.forceRemove, hget]
    rw [hkept]
    exact ⟨fun h => ⟨h.branch, h.directory, by simp⟩, fun h => ⟨hget, h.2.1, h.1⟩⟩
  | some w =>
    cases hlocked : w.locked with
    | true =>
      have hkept : CreateWorld.forceRemove path s = s := by simp [CreateWorld.forceRemove, hget, hlocked]
      rw [hkept]
      constructor
      · intro h
        rw [h.worktree] at hget
        cases hget
      · rintro ⟨-, -, hunlocked⟩
        rw [hunlocked w rfl] at hlocked
        cases hlocked
    | false =>
      have hremoved : CreateWorld.forceRemove path s =
          { s with worktrees := s.worktrees.erase path } := by
        simp [CreateWorld.forceRemove, hget, hlocked]
      rw [hremoved]
      constructor
      · exact fun h => ⟨h.branch, h.directory, fun w' hw => by rwa [← Option.some.inj hw]⟩
      · exact fun h => ⟨by simp, h.2.1, h.1⟩

/-- The bootstrap leaves the refs alone, -/
theorem refs_bootstrap : (world.bootstrap spec path s).2.refs = s.refs := by
  rw [CreateWorld.bootstrap]
  split <;> rfl

/-- so the branch is there when the script starts. -/
theorem branch_of_worktreeAdd (h : world.worktreeAdd branch path base s = some added) :
    (world.bootstrap spec path added).2.refs.get (branchRef branch) ≠ none := by
  rw [CreateWorld.worktreeAdd] at h
  split_ifs at h
  obtain ⟨oid, -, rfl⟩ := Option.map_eq_some_iff.mp h
  rw [refs_bootstrap]
  simp

/-- An error comes from the steps that are cleaned up after, or from HEAD. -/
theorem create_eq_error (hcall : host.create spec.toWorktreeSpec = .ok (.add branch path base))
    (hadd : world.worktreeAdd branch path base s = some added)
    (hcreate : world.create host spec s = (.error e, t)) :
    ((world.prepare spec path added).1 = .error e ∧
        t = CreateWorld.forceRemove path (world.prepare spec path added).2) ∨
      (world.prepare spec path added).1 = .ok () ∧ t = (world.prepare spec path added).2 := by
  rw [CreateWorld.create, hcall] at hcreate
  dsimp only at hcreate
  rw [hadd] at hcreate
  dsimp only at hcreate
  split at hcreate
  · rename_i hprepare
    obtain ⟨he, rfl⟩ := Prod.mk.inj hcreate
    rw [hprepare]
    exact .inl ⟨by rw [Except.error.inj he], rfl⟩
  · rename_i hprepare
    rw [hprepare]
    split at hcreate
    · obtain ⟨-, rfl⟩ := Prod.mk.inj hcreate
      exact .inr ⟨rfl, rfl⟩
    · cases (Prod.mk.inj hcreate).1

/-- Nothing is left after a script that has undone it, whether it fails or HEAD cannot be read. -/
theorem rolledBack_ran_iff {ran : Bool × Repository C}
    (h : (ran.1 = false ∧ t = CreateWorld.forceRemove path ran.2) ∨ ran.1 = true ∧ t = ran.2) :
    RolledBack branch path t ↔ Undone branch path ran := by
  obtain ⟨hran, rfl⟩ | ⟨hran, rfl⟩ := h
  · rw [rolledBack_forceRemove_iff, Undone]
    simp [hran]
  · constructor
    · exact fun h => ⟨h.branch, h.directory, fun w hw => by simp [h.worktree] at hw⟩
    · rintro ⟨hrefs, hdirectory, hworktree⟩
      refine ⟨?_, hdirectory, hrefs⟩
      by_contra hsome
      obtain ⟨w, hw⟩ := Option.ne_none_iff_exists'.mp hsome
      rw [(hworktree w hw).1] at hran
      cases hran

/-- After an error in a step that follows `git worktree add`, nothing is left of the worktree and its
branch if and only if the setup script has undone it, up to the cleaning up after a script that
fails. -/
theorem rolledBack_iff (host : WorktreeHost) (world : CreateWorld C) (spec : SetupSpec)
    {branch path base : String} {s added t : Repository C} {e : WorktreeCreateError}
    (hcall : host.create spec.toWorktreeSpec = .ok (.add branch path base))
    (hadd : world.worktreeAdd branch path base s = some added)
    (hcreate : world.create host spec s = (.error e, t)) :
    RolledBack branch path t ↔ UndoneByScript world spec branch path added := by
  have hbranch : (world.bootstrap spec path added).2.refs.get (branchRef branch) ≠ none :=
    branch_of_worktreeAdd hadd
  have herror := create_eq_error hcall hadd hcreate
  cases hcopied : (world.bootstrap spec path added).1 with
  | false =>
    -- the branch is left, as no script was run
    have hprepare : world.prepare spec path added =
        (.error .bootstrap, (world.bootstrap spec path added).2) := by
      simp [CreateWorld.prepare, hcopied]
    rw [hprepare] at herror
    obtain ⟨-, rfl⟩ | ⟨hok, -⟩ := herror
    · rw [rolledBack_forceRemove_iff]
      exact ⟨fun h => absurd h.1 hbranch, fun h => absurd (hcopied.symm.trans h.1) (by simp)⟩
    · cases hok
  | true =>
    cases hscript : CreateWorld.scriptOf spec with
    | none =>
      have hprepare : world.prepare spec path added = (.ok (), (world.bootstrap spec path added).2) := by
        simp [CreateWorld.prepare, hcopied, hscript]
      rw [hprepare] at herror
      obtain ⟨hfailed, -⟩ | ⟨-, rfl⟩ := herror
      · cases hfailed
      · exact ⟨fun h => absurd h.branch hbranch, fun h => by simp [UndoneByScript, hscript] at h⟩
    | some script =>
      have hprepare : world.prepare spec path added =
          (if (world.ran spec path script added).1 then .ok () else .error .setup,
            (world.ran spec path script added).2) := by
        simp [CreateWorld.prepare, hcopied, hscript]
      rw [hprepare] at herror
      have hundone : UndoneByScript world spec branch path added ↔
          Undone branch path (world.ran spec path script added) := by
        simp [UndoneByScript, hcopied, hscript]
      rw [hundone]
      refine rolledBack_ran_iff ?_
      cases hran : (world.ran spec path script added).1 with
      | false =>
        rw [hran] at herror
        exact .inl ⟨rfl, herror.elim (·.2) fun h => by cases h.1⟩
      | true =>
        rw [hran] at herror
        exact .inr ⟨rfl, herror.elim (fun h => by cases h.1) (·.2)⟩

end Rollback

/-! ## A script that fails -/

/-- The copy succeeds, and the script fails when it has changed the repository. -/
def failingScript (change : Repository Nat → Repository Nat) : CreateWorld Nat where
  commits := Git.twoCommits
  base _ _ := some 0
  copy _ files := (true, files)
  runScript _ s := (false, change s)
  readHead _ _ := some 0

def featureSpec : SetupSpec where
  slug := "x"
  path := "wt/feature"
  branch := "b"
  base := "main"
  mainCheckout := false
  bootstrapGlobs := []
  setupScript := some "make"

theorem create_featureSpec : (WorktreeHost.plainHost none).create featureSpec.toWorktreeSpec =
    .ok (.add "b" "wt/feature" "main") := by decide +kernel

/-- The worktree is removed, and its branch is left. -/
theorem branch_left_behind :
    ∃ t, (failingScript id).create (WorktreeHost.plainHost none) featureSpec (Git.oneWorktree 1 .empty) =
      (.error .setup, t) ∧ ¬ RolledBack "b" "wt/feature" t := by
  rw [CreateWorld.create, create_featureSpec]
  refine ⟨_, rfl, fun h => ?_⟩
  have hbranch := h.branch
  revert hbranch
  decide +kernel

/-- A script that deletes the branch before it fails. -/
def branchDeleted : CreateWorld Nat :=
  failingScript fun s => { s with refs := s.refs.erase (branchRef "b") }

/-- The repository with the new worktree. -/
def featureAdded : Repository Nat :=
  { Git.oneWorktree 1 .empty with
    refs := (Git.oneWorktree 1 .empty).refs.insert (branchRef "b") 0
    worktrees := (Git.oneWorktree 1 .empty).worktrees.insert "wt/feature"
      ⟨.branch "b", .empty, some .empty, false⟩ }

theorem rolledBack_by_script :
    ∃ t, branchDeleted.create (WorktreeHost.plainHost none) featureSpec (Git.oneWorktree 1 .empty) =
      (.error .setup, t) ∧ RolledBack "b" "wt/feature" t := by
  have hadd : branchDeleted.worktreeAdd "b" "wt/feature" "main" (Git.oneWorktree 1 .empty) =
      some featureAdded := by rfl
  have hcreate : ∃ t, branchDeleted.create (WorktreeHost.plainHost none) featureSpec
      (Git.oneWorktree 1 .empty) = (.error .setup, t) := by
    rw [CreateWorld.create, create_featureSpec]
    exact ⟨_, rfl⟩
  obtain ⟨t, hcreate⟩ := hcreate
  have hworktree : (branchDeleted.ran featureSpec "wt/feature" "make" featureAdded).2.worktrees.get
      "wt/feature" = some ⟨.branch "b", .empty, some .empty, false⟩ := by decide +kernel
  refine ⟨t, hcreate, (rolledBack_iff _ _ _ create_featureSpec hadd hcreate).mpr ?_⟩
  refine ⟨by decide +kernel, "make", by decide +kernel, by decide +kernel, by decide +kernel, ?_⟩
  intro w hw
  obtain rfl := Option.some.inj (hworktree.symm.trans hw)
  exact ⟨rfl, rfl⟩

end Tethys.Core
