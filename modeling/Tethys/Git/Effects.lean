import Tethys.Git.Refs
import Tethys.Git.Undo

/-!
# What the operations do to the refs

A checkpoint writes its ref at the very end, and a restore stores its undo pair before it resets
anything. An operation that fails before that leaves the refs as they were.
-/

namespace Tethys.Git

open Lib

def Oid.parent : Oid → Option Oid
  | .commit _ parent _ _ => some parent
  | .tree _ | .root _ _ _ => none

/-- The end checkpoint of the last turn that has one. -/
def Repo.latestEnd (s : Repo) (thread : String) : Option CheckpointInfo :=
  (((s.infos thread).mergeSort CheckpointInfo.le).filter (·.phase = .final)).getLast?

/-- The checkpoint that a new one follows. -/
def Repo.follows (g : Rules) (s : Repo) (thread : String) (turn : Nat) :
    CheckpointPhase → Option Oid
  | .start => (s.latestEnd thread).map (·.commitOid)
  | .final => (s.revParse g (.text (turnRef thread turn .start))).or
      ((s.latestEnd thread).map (·.commitOid))

section Effects
variable {g : Rules} {engine : GitRepo} {thread : String} {turn skipBytes : Nat}
  {phase : CheckpointPhase} {s t : Repo}

/-- The end checkpoint with the highest turn. -/
theorem latestEnd_eq_some (hvalid : validThread g thread = true) (hnamed : s.Named thread)
    {info : CheckpointInfo} (h : s.latestEnd thread = some info) :
    ∃ turn oid, s.unarchived thread turn .final = some oid ∧ info = infoOf thread turn .final oid ∧
      ∀ turn' oid', s.unarchived thread turn' .final = some oid' → turn' ≤ turn := by
  obtain ⟨front, hfront⟩ := List.getLast?_eq_some_iff.mp h
  have hsorted := (pairwise_listed hvalid hnamed).filter (·.phase = .final)
  have hends : ∀ info', info' ∈ front ++ [info] ↔
      ∃ turn oid, s.unarchived thread turn .final = some oid ∧
        info' = infoOf thread turn .final oid := by
    intro info'
    rw [← hfront, List.mem_filter, mem_listed hvalid hnamed, decide_eq_true_eq]
    constructor
    · rintro ⟨⟨turn, phase, oid, hget, rfl⟩, hphase⟩
      obtain rfl : phase = .final := hphase
      exact ⟨turn, oid, hget, rfl⟩
    · rintro ⟨turn, oid, hget, rfl⟩
      exact ⟨⟨turn, .final, oid, hget, rfl⟩, rfl⟩
  obtain ⟨turn, oid, hget, rfl⟩ := (hends info).mp (by simp)
  refine ⟨turn, oid, hget, rfl, fun turn' oid' hget' => ?_⟩
  have hmem := (hends _).mpr ⟨turn', oid', hget', rfl⟩
  rcases List.mem_append.mp hmem with hmem | hmem
  · rw [hfront] at hsorted
    have hbefore := (List.pairwise_append.mp hsorted).2.2 _ hmem _ (List.mem_singleton.mpr rfl)
    rcases hbefore with hlt | ⟨heq, -⟩
    · exact Nat.le_of_lt hlt
    · exact Nat.le_of_eq heq
  · exact Nat.le_of_eq (congrArg CheckpointInfo.turn (List.mem_singleton.mp hmem))

theorem latestEnd_eq_none (hvalid : validThread g thread = true) (hnamed : s.Named thread)
    (h : s.latestEnd thread = none) (turn : Nat) : s.unarchived thread turn .final = none := by
  by_contra hsome
  obtain ⟨oid, hoid⟩ := Option.ne_none_iff_exists'.mp hsome
  have hmem := (mem_listed hvalid hnamed).mpr ⟨turn, .final, oid, hoid, rfl⟩
  have hnil := List.getLast?_eq_none_iff.mp h
  exact List.filter_eq_nil_iff.mp hnil _ hmem (decide_eq_true rfl)

theorem latestEndCommit_run (hvalid : validThread g thread = true) :
    (latestEndCommit g thread).run s = (.ok ((s.latestEnd thread).map (·.commitOid)), s) := by
  have hlatest : (latestEnd g thread).run s = (.ok (s.latestEnd thread), s) :=
    run_bind_ok (list_run hvalid)
  exact run_bind_ok hlatest

theorem parentOf_run (hvalid : validThread g thread = true) :
    (parentOf g thread turn phase).run s = (.ok (s.follows g thread turn phase), s) := by
  cases phase with
  | start => exact latestEndCommit_run hvalid
  | final =>
    unfold parentOf
    rw [run_get_bind, Repo.follows]
    cases s.revParse g (.text (turnRef thread turn .start)) with
    | none => exact latestEndCommit_run hvalid
    | some start => rfl

/-- A snapshot moves the counter of the temporary indexes and nothing else. -/
theorem snapshotWorktree_state (tag : String) :
    ((snapshotWorktree g engine tag skipBytes).run s).2 = s.afterTemp g tag := by
  rcases hrun : (snapshotWorktree g engine tag skipBytes).run s with ⟨r, t⟩
  cases r with
  | ok snap =>
    obtain ⟨st, -, -, -, rfl⟩ := snapshotWorktree_eq_ok hrun
    rfl
  | error e =>
    have hrefused : ∀ st, stagingOf g engine skipBytes s = some st →
        st.accepted g s.worktree = false := fun st hst => by
      by_contra haccepted
      rw [snapshotWorktree_run hst (by simpa using haccepted)] at hrun
      cases hrun
    obtain ⟨e', hrun'⟩ : ∃ e, (snapshotWorktree g engine tag skipBytes).run s =
      (.error e, s.afterTemp g tag) := snapshotWorktree_run_error hrefused
    rw [hrun] at hrun'
    exact (Prod.mk.inj hrun').2

theorem keeps_snapshotWorktree (tag : String) :
    Keeps (fun s => (s.refs, s.head)) (snapshotWorktree g engine tag skipBytes) := fun s => by
  rw [snapshotWorktree_state]
  rfl

/-- A checkpoint that is created has the parent that was found, or the HEAD of the engine. -/
theorem create_eq_ok {result : CheckpointResult}
    (h : (create g engine thread turn phase skipBytes).run s = (.ok result, t)) :
    validThread g thread = true ∧
      result.commitOid.parent = (s.follows g thread turn phase).or engine.headOid ∧
      t.refs = s.refs.insert (turnRef thread turn phase) result.commitOid ∧ t.head = s.head := by
  obtain ⟨_, s₁, hvalidate, hcreate⟩ := run_bind_eq_ok h
  obtain ⟨hvalid, rfl⟩ := validateThread_eq_ok hvalidate
  rw [run_bind_ok (parentOf_run hvalid)] at hcreate
  obtain ⟨snap, s₂, hsnap, hcommit⟩ := run_bind_eq_ok hcreate
  have hkeeps := (keeps_snapshotWorktree _).of_run hsnap
  obtain ⟨hrefs, hhead⟩ := Prod.mk.inj hkeeps
  cases hcommit
  refine ⟨hvalid, ?_, by rw [← hrefs], hhead⟩
  cases (s₁.follows g thread turn phase).or engine.headOid <;> rfl

/-- A checkpoint succeeds when its snapshot does. -/
theorem create_run {st : Staging} (hvalid : validThread g thread = true)
    (hst : stagingOf g engine skipBytes s = some st) (haccepted : st.accepted g s.worktree = true) :
    ∃ result t, (create g engine thread turn phase skipBytes).run s = (.ok result, t) := by
  unfold create
  rw [run_bind_ok (validateThread_run hvalid), run_bind_ok (parentOf_run hvalid)]
  exact ⟨_, _, run_bind_ok (snapshotWorktree_run hst haccepted)⟩

/-- A checkpoint that fails changes no ref. -/
theorem create_eq_error {e : GitError}
    (h : (create g engine thread turn phase skipBytes).run s = (.error e, t)) : t.refs = s.refs := by
  unfold create at h
  cases hvalid : validThread g thread with
  | false =>
    rw [run_bind_error (validateThread_run_invalid hvalid)] at h
    cases h
    rfl
  | true =>
    rw [run_bind_ok (validateThread_run hvalid), run_bind_ok (parentOf_run hvalid)] at h
    rcases hsnap : (snapshotWorktree g engine ("cp_" ++ thread ++ "_" ++ toString turn ++ "_" ++
      phase.debug) skipBytes).run s with ⟨r, s₃⟩
    have hkeeps := (keeps_snapshotWorktree _).of_run hsnap
    cases r with
    | error e =>
      rw [run_bind_error hsnap] at h
      cases h
      exact (Prod.mk.inj hkeeps).1
    | ok snap =>
      rw [run_bind_ok hsnap] at h
      cases h

theorem resolveTarget_state (target : RestoreTarget) : ((resolveTarget g target).run s).2 = s := by
  cases target with
  | checkpoint threadId turn phase =>
    unfold resolveTarget
    cases hvalid : validThread g threadId with
    | false => rw [run_bind_error (validateThread_run_invalid hvalid)]
    | true =>
      rw [run_bind_ok (validateThread_run hvalid), run_get_bind]
      dsimp only
      cases s.revParse g (.text (turnRef threadId turn phase)) <;> rfl
  | trees threadId worktreeTree indexTree =>
    unfold resolveTarget
    cases hvalid : validThread g threadId with
    | false => rw [run_bind_error (validateThread_run_invalid hvalid)]
    | true => rw [run_bind_ok (validateThread_run hvalid)]; rfl

theorem keeps_readTreeReset (update : Bool) (rev : Rev) :
    Keeps Repo.refs (readTreeReset g update rev) := fun s => by
  unfold readTreeReset
  rw [run_get_bind]
  cases s.revParse g rev <;> rfl

theorem keeps_resetTo (w i : Rev) : Keeps Repo.refs (resetTo g w i) := by
  refine (keeps_readTreeReset true w).bind fun _ => ?_
  split_ifs
  · exact keeps_readTreeReset false i
  · exact keeps_pure _ _

theorem keeps_latestEndTree : Keeps Repo.refs (latestEndTree g thread) := fun s => by
  cases hvalid : validThread g thread with
  | false =>
    have hlist : (list g thread).run s = (.error (.invalidThread thread), s) :=
      run_bind_error (validateThread_run_invalid hvalid)
    have hlatest : (latestEnd g thread).run s = (.error (.invalidThread thread), s) :=
      run_bind_error hlist
    rw [latestEndTree, run_bind_error hlatest]
  | true =>
    have hlatest : (latestEnd g thread).run s = (.ok (s.latestEnd thread), s) :=
      run_bind_ok (list_run hvalid)
    rw [latestEndTree, run_bind_ok hlatest]
    rfl

theorem keeps_requireClean : Keeps Repo.refs (requireClean g engine thread skipBytes) := by
  refine keeps_latestEndTree.bind fun reference => ?_
  cases reference with
  | none => exact keeps_throw _ _
  | some reference =>
    have hsnap : Keeps Repo.refs (snapshotWorktree g engine "require_clean" skipBytes) := fun s =>
      congrArg Prod.fst (keeps_snapshotWorktree "require_clean" s)
    refine hsnap.bind fun current => ?_
    have hindex : Keeps Repo.refs (gitWriteTree "index") := fun s => rfl
    refine hindex.bind fun currentIndex => ?_
    split_ifs
    · exact keeps_throw _ _
    · exact keeps_pure _ _

/-- The undo pair lies under the index. -/
def StoresPair (thread : String) (index : Nat) (s t : Repo) : Prop :=
  ∃ worktree index' : Oid, t.refs =
    (s.refs.insert (restoreRef thread index "worktree") worktree).insert
      (restoreRef thread index "index") index'

theorem captureUndo_cases (g : Rules) (engine : GitRepo) (thread : String) (skipBytes : Nat)
    (s : Repo) :
    ∃ r t, (captureUndo g engine thread skipBytes).run s = (r, t) ∧
      ((∃ e, r = .error e) ∧ t.refs = s.refs ∨
        ∃ undo, r = .ok undo ∧ StoresPair thread (s.nextIndex thread) s t ∧
          undo.worktreeRef = restoreRef thread (s.nextIndex thread) "worktree" ∧
          undo.indexRef = restoreRef thread (s.nextIndex thread) "index") := by
  unfold captureUndo
  rcases hsnap : (snapshotWorktree g engine "restore_undo" skipBytes).run s with ⟨r, s₁⟩
  have hrefs : s₁.refs = s.refs := congrArg Prod.fst ((keeps_snapshotWorktree _).of_run hsnap)
  cases r with
  | error e => exact ⟨_, s₁, run_bind_error hsnap, .inl ⟨⟨e, rfl⟩, hrefs⟩⟩
  | ok snap =>
    have hnext : s₁.nextIndex thread = s.nextIndex thread := by
      simp only [Repo.nextIndex, Repo.captureIndexes, hrefs]
    rw [run_bind_ok hsnap, run_bind_ok (gitWriteTree_run "index"), storeUndo,
      run_bind_ok nextRestoreIndex_run, hnext]
    refine ⟨_, _, rfl, .inr ⟨_, rfl, ⟨.root snap.tree.peel s₁.now "tethys restore undo (worktree)",
      .root s₁.index s₁.now "tethys restore undo (index)", ?_⟩, rfl, rfl⟩⟩
    rw [← hrefs]
    rfl

/-- What a restore does to the refs from its capture on. -/
theorem captureAndReset_cases (g : Rules) (engine : GitRepo) (thread : String) (skipBytes : Nat)
    (s : Repo) (w i : Rev) :
    ∃ r t, (do
        let undo ← captureUndo g engine thread skipBytes
        resetTo g w i
        return ⟨w, i, undo⟩ : GitM RestoreOutcome).run s = (r, t) ∧
      ((∃ e, r = .error e) ∧ t.refs = s.refs ∨
        StoresPair thread (s.nextIndex thread) s t ∧
        ∀ outcome, r = .ok outcome →
          outcome.undo.worktreeRef = restoreRef thread (s.nextIndex thread) "worktree" ∧
          outcome.undo.indexRef = restoreRef thread (s.nextIndex thread) "index") := by
  obtain ⟨r, s₁, hcapture, hcases⟩ := captureUndo_cases g engine thread skipBytes s
  obtain ⟨⟨e, rfl⟩, hrefs⟩ | ⟨undo, rfl, ⟨worktree, index, hrefs⟩, hworktree, hindex⟩ := hcases
  · exact ⟨_, s₁, run_bind_error hcapture, .inl ⟨⟨e, rfl⟩, hrefs⟩⟩
  · rw [run_bind_ok hcapture]
    rcases hreset : (resetTo g w i).run s₁ with ⟨r, s₂⟩
    have hstored : StoresPair thread (s.nextIndex thread) s s₂ :=
      ⟨worktree, index, ((keeps_resetTo w i).of_run hreset).trans hrefs⟩
    cases r with
    | error e => exact ⟨_, s₂, run_bind_error hreset, .inr ⟨hstored, nofun⟩⟩
    | ok _ =>
      refine ⟨_, s₂, run_bind_ok hreset, .inr ⟨hstored, fun outcome h => ?_⟩⟩
      obtain rfl := Except.ok.inj h
      exact ⟨hworktree, hindex⟩

/-- A restore leaves the refs alone, or stores its undo pair under the next index. -/
theorem restore_cases (g : Rules) (engine : GitRepo) (target : RestoreTarget)
    (policy : RestorePolicy) (skipBytes : Nat) (s : Repo) :
    ∃ r t, (restore g engine target policy skipBytes).run s = (r, t) ∧
      ((∃ e, r = .error e) ∧ t.refs = s.refs ∨
        StoresPair target.threadId (s.nextIndex target.threadId) s t ∧
        ∀ outcome, r = .ok outcome →
          outcome.undo.worktreeRef =
            restoreRef target.threadId (s.nextIndex target.threadId) "worktree" ∧
          outcome.undo.indexRef =
            restoreRef target.threadId (s.nextIndex target.threadId) "index") := by
  unfold restore
  rcases hresolve : (resolveTarget g target).run s with ⟨r, s₁⟩
  obtain rfl : s₁ = s := by simpa [hresolve] using resolveTarget_state (g := g) (s := s) target
  cases r with
  | error e => exact ⟨_, s₁, run_bind_error hresolve, .inl ⟨⟨e, rfl⟩, rfl⟩⟩
  | ok resolved =>
    obtain ⟨thread, w, i⟩ := resolved
    obtain ⟨-, rfl, -⟩ := resolveTarget_eq_ok engine skipBytes hresolve
    rw [run_bind_ok hresolve]
    cases policy with
    | force =>
      simp only [reduceCtorEq, if_false]
      exact captureAndReset_cases g engine target.threadId skipBytes s₁ w i
    | requireClean =>
      simp only [if_true]
      rcases hclean : (requireClean g engine target.threadId skipBytes).run s₁ with ⟨r, s₂⟩
      have hrefs : s₂.refs = s₁.refs := keeps_requireClean.of_run hclean
      have hnext : s₂.nextIndex target.threadId = s₁.nextIndex target.threadId := by
        simp only [Repo.nextIndex, Repo.captureIndexes, hrefs]
      cases r with
      | error e => exact ⟨_, s₂, run_bind_error hclean, .inl ⟨⟨e, rfl⟩, hrefs⟩⟩
      | ok _ =>
        obtain ⟨r, t, hrun, hcases⟩ :=
          captureAndReset_cases g engine target.threadId skipBytes s₂ w i
        refine ⟨r, t, (run_bind_ok hclean).trans hrun, ?_⟩
        rw [StoresPair, hrefs, hnext] at hcases
        exact hcases

end Effects

end Tethys.Git
