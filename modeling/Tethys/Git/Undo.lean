import Tethys.Git.Snapshots

/-!
# Undoing a restore

A restore captures the worktree and the index as two trees and then resets to its target. The
restore of the two captured trees brings the worktree back if and only if every file that the
capture leaves out (ignored, skipped, or missed by the pathspecs) is left alone by both resets,
and every file that the first reset adds is removed by the second.
-/

namespace Tethys.Git

open Lib

/-! ## Two resets in a row -/

/-- A file of the tree lies inside the path, or the path inside of it. -/
def blocks (t : Tree) (p : Path) : Bool := t.paths.any fun q => clash q p

theorem blocks_eq_true {t : Tree} {p : Path} :
    blocks t p = true ↔ ∃ q, t.get q ≠ none ∧ clash q p = true := by
  simp [blocks, FileTree.mem_paths]

section Checkout
variable {index targetIndex target captured worktree : Tree}

theorem get_checkout (p : Path) :
    (checkout index target worktree).get p =
      if index.get p = none ∧ target.get p = none then
        if blocks target p then none else worktree.get p
      else target.get p := by
  have hcovered : FileTree.covered (fun p => (index.get p).isSome || (target.get p).isSome)
      target p = blocks target p := by
    rw [Bool.eq_iff_iff, FileTree.covered_eq_true, blocks_eq_true]
    refine exists_congr fun q => and_congr_right fun hq => ?_
    simp [Option.isSome_iff_ne_none.mpr hq]
  rw [checkout, FileTree.get_overlay, FileTree.layered, hcovered]
  cases index.get p <;> cases target.get p <;> simp

/-- The captured tree brings the worktree back if and only if it holds nothing else, the files
that it does not hold survive both resets, and the files that the target adds do not. -/
theorem checkout_checkout_eq_iff :
    checkout targetIndex captured (checkout index target worktree) = worktree ↔
      (∀ p, captured.get p ≠ none → captured.get p = worktree.get p) ∧
      (∀ p, worktree.get p ≠ none → captured.get p = none → targetIndex.get p = none ∧
        (target.get p = worktree.get p ∨
          index.get p = none ∧ target.get p = none ∧ blocks target p = false)) ∧
      (∀ p, worktree.get p = none → target.get p ≠ none →
        targetIndex.get p ≠ none ∨ blocks captured p = true) := by
  constructor
  · intro h
    have hget : ∀ p, (checkout targetIndex captured (checkout index target worktree)).get p =
        worktree.get p := fun p => by rw [h]
    simp only [get_checkout] at hget
    refine ⟨fun p hp => ?_, fun p hfile hp => ?_, fun p hfile hp => ?_⟩
    all_goals
      have hget := hget p
      grind
  · rintro ⟨hcaptured, hsurvives, hadded⟩
    refine FileTree.ext_get fun p => ?_
    have hblocks : blocks captured p = true → worktree.get p = none := fun hblocks => by
      obtain ⟨q, hq, hclash⟩ := blocks_eq_true.mp hblocks
      exact FileTree.get_eq_none_of_clash (hcaptured q hq ▸ hq) hclash
    have hcaptured := hcaptured p
    have hsurvives := hsurvives p
    have hadded := hadded p
    rw [get_checkout, get_checkout]
    grind

end Checkout

/-! ## What a restore does -/

/-- The repository after the two `read-tree` runs of a restore. -/
def Repo.resetTo (s : Repo) (worktreeTree indexTree : Tree) : Repo :=
  { s.setIndex "index" indexTree with worktree := checkout s.index worktreeTree s.worktree }

/-- The repository after the undo capture of a restore. -/
def Repo.captured (g : Rules) (repo : GitRepo) (thread : String) (skipBytes : Nat) (s : Repo) :
    Repo :=
  ((captureUndo g repo thread skipBytes).run s).2

def RestoreTarget.threadId : RestoreTarget → String
  | .checkpoint threadId _ _ => threadId
  | .trees threadId _ _ => threadId

/-- The trees of the worktree and of the index that the target names. A name that is given by
the caller is resolved after the refs of the undo capture have been written. -/
def targetTrees (g : Rules) (repo : GitRepo) (skipBytes : Nat) (s : Repo) :
    RestoreTarget → Option (Tree × Tree)
  | .checkpoint thread turn phase =>
    (s.revParse g (.text (turnRef thread turn phase))).map fun oid => (oid.peel, oid.peel)
  | .trees thread worktreeTree indexTree =>
    ((s.captured g repo thread skipBytes).revParse g worktreeTree).bind fun w =>
      ((s.captured g repo thread skipBytes).revParse g indexTree).map fun i => (w.peel, i.peel)

section Restore
variable {g : Rules} {repo : GitRepo} {skipBytes : Nat} {s : Repo}

theorem revParse_congr {s' : Repo} (hhead : s'.head = s.head) (hrefs : s'.refs = s.refs)
    (rev : Rev) : s'.revParse g rev = s.revParse g rev := by
  cases rev <;> simp [Repo.revParse, hhead, hrefs]

theorem readTreeReset_run {update : Bool} {rev : Rev} {oid : Oid} (h : s.revParse g rev = some oid) :
    (readTreeReset g update rev).run s = (.ok (), s.readTree update oid.peel) := by
  unfold readTreeReset
  rw [run_get_bind, h]
  rfl

theorem readTreeReset_eq_ok {update : Bool} {rev : Rev} {s' : Repo}
    (h : (readTreeReset g update rev).run s = (.ok (), s')) : ∃ oid, s.revParse g rev = some oid := by
  unfold readTreeReset at h
  rw [run_get_bind] at h
  cases hrev : s.revParse g rev with
  | none =>
    rw [hrev] at h
    cases h
  | some oid => exact ⟨oid, rfl⟩

theorem resetTo_run {w i : Rev} {worktreeOid indexOid : Oid} (hw : s.revParse g w = some worktreeOid)
    (hi : s.revParse g i = some indexOid) :
    (resetTo g w i).run s = (.ok (), s.resetTo worktreeOid.peel indexOid.peel) := by
  unfold resetTo
  rw [run_bind_ok (readTreeReset_run hw)]
  by_cases hiw : i = w
  · subst hiw
    obtain rfl : worktreeOid = indexOid := Option.some.inj (hw.symm.trans hi)
    rw [if_neg (not_not.mpr rfl)]
    rfl
  · have hi' : (s.readTree true worktreeOid.peel).revParse g i = some indexOid :=
      (revParse_congr rfl rfl i).trans hi
    rw [if_pos hiw, readTreeReset_run hi']
    simp [Repo.resetTo, Repo.readTree, Repo.setIndex, OrdMap.insert_insert]

theorem resetTo_eq_ok {w i : Rev} {s' : Repo} (h : (resetTo g w i).run s = (.ok (), s')) :
    ∃ worktreeOid indexOid, s.revParse g w = some worktreeOid ∧ s.revParse g i = some indexOid ∧
      s' = s.resetTo worktreeOid.peel indexOid.peel := by
  have hrun := h
  obtain ⟨_, s₁, hfirst, hsecond⟩ := run_bind_eq_ok h
  obtain ⟨worktreeOid, hw⟩ := readTreeReset_eq_ok hfirst
  obtain ⟨indexOid, hi⟩ : ∃ indexOid, s.revParse g i = some indexOid := by
    by_cases hiw : i = w
    · exact ⟨worktreeOid, hiw ▸ hw⟩
    · rw [if_pos hiw] at hsecond
      obtain ⟨indexOid, hi⟩ := readTreeReset_eq_ok hsecond
      rw [readTreeReset_run hw] at hfirst
      cases hfirst
      exact ⟨indexOid, hi.symm.trans (revParse_congr rfl rfl i) |>.symm⟩
  rw [resetTo_run hw hi] at hrun
  cases hrun
  exact ⟨worktreeOid, indexOid, hw, hi, rfl⟩

/-- A repository with the same HEAD, worktree and real index. -/
structure Repo.SameFiles (s' s : Repo) : Prop where
  head : s'.head = s.head
  worktree : s'.worktree = s.worktree
  realIndex : s'.indexes.get "index" = s.indexes.get "index"

theorem Repo.SameFiles.index {s' : Repo} (h : s'.SameFiles s) : s'.index = s.index := by
  rw [Repo.index, h.realIndex, Repo.index]

theorem sameFiles_afterTemp (tag : String) : (s.afterTemp g tag).SameFiles s :=
  ⟨head_afterTemp, worktree_afterTemp, realIndex_afterTemp⟩

theorem storeUndo_run (thread : String) (undoWorktree undoIndex : Oid) :
    ∃ undo s', (storeUndo thread undoWorktree undoIndex).run s = (.ok undo, s') ∧
      undo.worktreeTree = undoWorktree ∧ undo.indexTree = undoIndex ∧ s'.SameFiles s :=
  ⟨_, _, rfl, rfl, rfl, ⟨rfl, rfl, rfl⟩⟩

/-- What the undo capture returns, and that it leaves HEAD, the index and the worktree alone. -/
theorem captureUndo_run {thread : String} {st : Staging}
    (hst : stagingOf g repo skipBytes s = some st) (haccepted : st.accepted g s.worktree = true) :
    ∃ undo, (captureUndo g repo thread skipBytes).run s =
        (.ok undo, s.captured g repo thread skipBytes) ∧
      undo.worktreeTree = .tree (st.result g s.worktree) ∧ undo.indexTree = .tree s.index ∧
      (s.captured g repo thread skipBytes).SameFiles s := by
  have htemp : (s.afterTemp g "restore_undo").SameFiles s := sameFiles_afterTemp "restore_undo"
  obtain ⟨undo, s', hstore, hworktree, hindex, hsame⟩ :=
    storeUndo_run (s := s.afterTemp g "restore_undo") thread (.tree (st.result g s.worktree))
      (.tree s.index)
  have hrun : (captureUndo g repo thread skipBytes).run s = (.ok undo, s') := by
    unfold captureUndo
    rw [run_bind_ok (snapshotWorktree_run hst haccepted), run_bind_ok (gitWriteTree_run "index")]
    change (storeUndo thread _ (.tree (s.afterTemp g "restore_undo").index)).run _ = _
    rw [htemp.index, hstore]
  have hcaptured : s.captured g repo thread skipBytes = s' := congrArg Prod.snd hrun
  rw [hcaptured]
  refine ⟨undo, hrun, hworktree, hindex, ?_⟩
  exact ⟨hsame.head.trans htemp.head, hsame.worktree.trans htemp.worktree,
    hsame.realIndex.trans htemp.realIndex⟩

theorem captureUndo_eq_ok {thread : String} {undo : UndoCapture} {s' : Repo}
    (h : (captureUndo g repo thread skipBytes).run s = (.ok undo, s')) :
    ∃ st, stagingOf g repo skipBytes s = some st ∧ st.accepted g s.worktree = true := by
  obtain ⟨snap, _, hsnap, _⟩ := run_bind_eq_ok h
  obtain ⟨st, hst, haccepted, _⟩ := snapshotWorktree_eq_ok hsnap
  exact ⟨st, hst, haccepted⟩

theorem index_resetTo (worktreeTree indexTree : Tree) :
    (s.resetTo worktreeTree indexTree).index = indexTree := by
  simp [Repo.resetTo, Repo.index, Repo.setIndex]

theorem Repo.SameFiles.resetTo {s' : Repo} (h : s'.SameFiles s) (worktreeTree indexTree : Tree) :
    (s'.resetTo worktreeTree indexTree).SameFiles (s.resetTo worktreeTree indexTree) where
  head := h.head
  worktree := by simp only [Repo.resetTo, h.index, h.worktree]
  realIndex := by simp [Repo.resetTo, Repo.setIndex]

theorem validateThread_run {thread : String} (h : validThread g thread = true) :
    (validateThread g thread).run s = (.ok (), s) := by
  rw [validateThread, if_pos h]
  rfl

theorem validateThread_eq_ok {thread : String} {s' : Repo}
    (h : (validateThread g thread).run s = (.ok (), s')) : validThread g thread = true ∧ s' = s := by
  unfold validateThread at h
  split_ifs at h with hvalid
  · cases h
    exact ⟨hvalid, rfl⟩
  · cases h

/-- The names that a target is resolved to, and the trees that they name in the end. -/
theorem resolveTarget_eq_ok (repo : GitRepo) (skipBytes : Nat) {target : RestoreTarget}
    {thread : String} {w i : Rev} {s' : Repo}
    (h : (resolveTarget g target).run s = (.ok (thread, w, i), s')) :
    s' = s ∧ thread = target.threadId ∧ validThread g thread = true ∧
      ∀ worktreeOid indexOid,
        (s.captured g repo thread skipBytes).revParse g w = some worktreeOid →
        (s.captured g repo thread skipBytes).revParse g i = some indexOid →
        targetTrees g repo skipBytes s target = some (worktreeOid.peel, indexOid.peel) := by
  cases target with
  | checkpoint threadId turn phase =>
    obtain ⟨_, s₁, hvalidate, hresolve⟩ := run_bind_eq_ok h
    obtain ⟨hvalid, rfl⟩ := validateThread_eq_ok hvalidate
    rw [run_get_bind] at hresolve
    cases hrev : s₁.revParse g (.text (turnRef threadId turn phase)) with
    | none =>
      simp only [hrev] at hresolve
      cases hresolve
    | some commit =>
      simp only [hrev] at hresolve
      cases hresolve
      refine ⟨rfl, rfl, hvalid, fun worktreeOid indexOid hw hi => ?_⟩
      cases hw
      cases hi
      simp [targetTrees, hrev, Oid.peel]
  | trees threadId worktreeTree indexTree =>
    obtain ⟨_, s₁, hvalidate, hresolve⟩ := run_bind_eq_ok h
    obtain ⟨hvalid, rfl⟩ := validateThread_eq_ok hvalidate
    cases hresolve
    refine ⟨rfl, rfl, hvalid, fun worktreeOid indexOid hw hi => ?_⟩
    simp [targetTrees, hw, hi]

/-- What a restore that succeeds has done. -/
theorem restore_eq_ok {target : RestoreTarget} {outcome : RestoreOutcome} {s' : Repo}
    (h : (restore g repo target .force skipBytes).run s = (.ok outcome, s')) :
    ∃ st worktreeTree indexTree, stagingOf g repo skipBytes s = some st ∧
      targetTrees g repo skipBytes s target = some (worktreeTree, indexTree) ∧
      st.accepted g s.worktree = true ∧ validThread g target.threadId = true ∧
      outcome.undo.worktreeTree = .tree (st.result g s.worktree) ∧
      outcome.undo.indexTree = .tree s.index ∧
      s'.SameFiles (s.resetTo worktreeTree indexTree) := by
  obtain ⟨⟨thread, w, i⟩, s₁, hresolve, hrest⟩ := run_bind_eq_ok h
  obtain ⟨rfl, rfl, hvalid, htrees⟩ := resolveTarget_eq_ok repo skipBytes hresolve
  simp only [reduceCtorEq, if_false] at hrest
  obtain ⟨undo, s₂, hcapture, hrest⟩ := run_bind_eq_ok hrest
  obtain ⟨_, s₃, hreset, hrest⟩ := run_bind_eq_ok hrest
  cases hrest
  obtain ⟨st, hst, haccepted⟩ := captureUndo_eq_ok hcapture
  obtain ⟨undo', hcapture', hworktree, hindex, hsame⟩ := captureUndo_run hst haccepted
  rw [hcapture'] at hcapture
  cases hcapture
  obtain ⟨worktreeOid, indexOid, hw, hi, rfl⟩ := resetTo_eq_ok hreset
  exact ⟨st, worktreeOid.peel, indexOid.peel, hst, htrees worktreeOid indexOid hw hi, haccepted,
    hvalid, hworktree, hindex, hsame.resetTo _ _⟩

/-- A restore of two trees succeeds when its own undo capture does. -/
theorem restore_trees_run {thread : String} {st : Staging} (worktreeOid indexOid : Oid)
    (hvalid : validThread g thread = true) (hst : stagingOf g repo skipBytes s = some st)
    (haccepted : st.accepted g s.worktree = true) :
    ∃ outcome s', (restore g repo (.trees thread (.oid worktreeOid) (.oid indexOid)) .force
        skipBytes).run s = (.ok outcome, s') ∧
      s'.SameFiles (s.resetTo worktreeOid.peel indexOid.peel) := by
  obtain ⟨undo, hcapture, _, _, hsame⟩ := captureUndo_run hst haccepted
  have hresolve : (resolveTarget g (.trees thread (.oid worktreeOid) (.oid indexOid))).run s =
      (.ok (thread, .oid worktreeOid, .oid indexOid), s) := by
    unfold resolveTarget
    rw [run_bind_ok (validateThread_run hvalid)]
    rfl
  have hreset : (resetTo g (.oid worktreeOid) (.oid indexOid)).run
      (s.captured g repo thread skipBytes) = _ := resetTo_run rfl rfl
  refine ⟨⟨.oid worktreeOid, .oid indexOid, undo⟩, _, ?_, hsame.resetTo _ _⟩
  unfold restore
  rw [run_bind_ok hresolve]
  simp only [reduceCtorEq, if_false]
  rw [run_bind_ok hcapture, run_bind_ok hreset]
  rfl

end Restore

/-! ## When the undo brings everything back -/

/-- The file of the worktree at the path goes into the captured tree. -/
def Staging.captures (g : Rules) (worktree : Tree) (st : Staging) (p : Path) : Bool :=
  (worktree.get p).isSome &&
    if st.picked p then addable g st.seed worktree p else (st.seed.get p).isSome

/-- Nothing that was there is lost between the restore and its undo. -/
structure Undoable (g : Rules) (repo : GitRepo) (skipBytes : Nat) (s : Repo) (st : Staging)
    (worktreeTree indexTree : Tree) : Prop where
  /-- An index entry that the pathspecs miss is up to date. -/
  fresh : ∀ p, st.picked p = false → st.displaced g s.worktree p = false →
    st.seed.get p ≠ none → st.seed.get p = s.worktree.get p
  /-- A file that is not captured is not in the index that is restored, and the target has the
  same file or leaves the path alone. -/
  survives : ∀ p, s.worktree.get p ≠ none → st.captures g s.worktree p = false →
    indexTree.get p = none ∧ (worktreeTree.get p = s.worktree.get p ∨
      s.index.get p = none ∧ worktreeTree.get p = none ∧ blocks worktreeTree p = false)
  /-- A file that the target adds is in the index that is restored, or in the way of a captured
  file. -/
  removed : ∀ p, s.worktree.get p = none → worktreeTree.get p ≠ none →
    indexTree.get p ≠ none ∨ ∃ q, st.captures g s.worktree q = true ∧ clash q p = true
  /-- The undo can take its own snapshot of what the restore leaves. -/
  accepted : ∃ st', stagingOf g repo skipBytes (s.resetTo worktreeTree indexTree) = some st' ∧
    st'.accepted g (checkout s.index worktreeTree s.worktree) = true

section Undo
variable {g : Rules} {repo : GitRepo} {skipBytes : Nat} {s : Repo} {st : Staging}
  {worktreeTree indexTree : Tree}

/-- The captured tree holds nothing but files of the worktree if and only if the entries that
the pathspecs miss are up to date. -/
theorem result_eq_worktree_iff :
    (∀ p, (st.result g s.worktree).get p ≠ none →
      (st.result g s.worktree).get p = s.worktree.get p) ↔
    ∀ p, st.picked p = false → st.displaced g s.worktree p = false →
      st.seed.get p ≠ none → st.seed.get p = s.worktree.get p := by
  refine forall_congr' fun p => ?_
  rw [Staging.get_result]
  cases st.picked p with
  | true => by_cases haddable : addable g st.seed s.worktree p <;> simp [haddable]
  | false => cases st.displaced g s.worktree p <;> simp

/-- The paths of the captured tree. -/
theorem result_ne_none_iff (hfresh : ∀ p, st.picked p = false → st.displaced g s.worktree p = false →
    st.seed.get p ≠ none → st.seed.get p = s.worktree.get p) (p : Path) :
    (st.result g s.worktree).get p ≠ none ↔ st.captures g s.worktree p = true := by
  have hfresh := hfresh p
  have hdisplaced : st.displaced g s.worktree p = true → s.worktree.get p = none :=
    get_eq_none_of_displaced
  rw [Staging.get_result, Staging.captures]
  cases hpicked : st.picked p with
  | true => cases s.worktree.get p <;> simp
  | false =>
    cases hd : st.displaced g s.worktree p with
    | true => simp [hdisplaced hd]
    | false =>
      cases hseed : st.seed.get p with
      | none => simp
      | some f =>
        have hfile := hfresh hpicked hd (by simp [hseed])
        rw [hseed] at hfile
        simp [← hfile]

theorem checkout_result_eq_iff :
    checkout indexTree (st.result g s.worktree) (checkout s.index worktreeTree s.worktree) =
        s.worktree ∧
      (∃ st', stagingOf g repo skipBytes (s.resetTo worktreeTree indexTree) = some st' ∧
        st'.accepted g (checkout s.index worktreeTree s.worktree) = true) ↔
    Undoable g repo skipBytes s st worktreeTree indexTree := by
  rw [checkout_checkout_eq_iff, result_eq_worktree_iff]
  constructor
  · rintro ⟨⟨hfresh, hsurvives, hremoved⟩, haccepted⟩
    have hnone := result_ne_none_iff hfresh
    refine ⟨hfresh, fun p hfile hp => hsurvives p hfile ?_, fun p hfile hp => ?_, haccepted⟩
    · by_contra hne
      simp [(hnone p).mp hne] at hp
    · refine (hremoved p hfile hp).imp_right fun hblocks => ?_
      obtain ⟨q, hq, hclash⟩ := blocks_eq_true.mp hblocks
      exact ⟨q, (hnone q).mp hq, hclash⟩
  · rintro ⟨hfresh, hsurvives, hremoved, haccepted⟩
    have hnone := result_ne_none_iff hfresh
    refine ⟨⟨hfresh, fun p hfile hp => hsurvives p hfile ?_, fun p hfile hp => ?_⟩, haccepted⟩
    · by_contra hne
      exact (hnone p).mpr (by simpa using hne) hp
    · refine (hremoved p hfile hp).imp_right fun ⟨q, hq, hclash⟩ => ?_
      exact blocks_eq_true.mpr ⟨q, (hnone q).mpr hq, hclash⟩

end Undo

/-! ## Two restores -/

/-- A forced restore and the restore of its undo capture. -/
def restoreTwice (g : Rules) (repo : GitRepo) (target : RestoreTarget) (skipBytes : Nat) :
    GitM RestoreOutcome := do
  let outcome ← restore g repo target .force skipBytes
  restore g repo (.trees target.threadId (.oid outcome.undo.worktreeTree)
    (.oid outcome.undo.indexTree)) .force skipBytes

theorem exists_of_isOk {α : Type} {x : GitM α} {s : Repo} (h : (x.run s).1.isOk = true) :
    ∃ a s', x.run s = (.ok a, s') := by
  rcases hx : x.run s with ⟨r, s'⟩
  rw [hx] at h
  cases r with
  | error e => cases h
  | ok a => exact ⟨a, s', rfl⟩

def fileA : Path := ⟨"a", nul_notMem_a⟩

/-- A checkpoint has an empty file, which has become executable since. -/
def changedFile : Repo where
  head := some (.root (.single fileA emptyFile) 0 "base")
  refs := .ofList [(turnRef "t1" 1 .start, .root (.single fileA emptyFile) 0 "start")]
  indexes := .ofList [("index", .single fileA emptyFile)]
  worktree := .single fileA ⟨.executable, []⟩
  tempIndexCounter := 0
  now := 0

/-- An ignored file lies where a checkpoint has another one. -/
def overwrittenFile : Repo where
  head := none
  refs := .ofList [(turnRef "t1" 1 .start, .root (.single fileA emptyFile) 0 "start")]
  indexes := .ofList [("index", .empty)]
  worktree := .single fileA ⟨.executable, []⟩
  tempIndexCounter := 0
  now := 0

def ignoringRules : Rules := { plainRules with ignored := fun _ text => text = "a" }

end Tethys.Git
