import Tethys.Git.Checkpoint

/-!
# Faithful snapshots

A snapshot takes the paths that `git status` reports and hands them to `git add` as pathspecs.
The snapshot is what the worktree holds if and only if these pathspecs, read as patterns, find
something, reach every path whose entry in the seeded index is out of date, and reach none of
the paths that were skipped.
-/

namespace Tethys.Git

open Lib

/-! ## What a snapshot reads -/

section Spec
variable (g : Rules) (repo : GitRepo) (skipBytes : Nat) (s : Repo)

/-- The index that the temporary one is seeded with. -/
def seedTree : Option Tree :=
  match s.indexes.get "index" with
  | some index => some index
  | none => if repo.headOid.isSome then s.head.map Oid.peel else some .empty

def statusOf : List StatusEntry := (statusRecords g s).map StatusRecord.entry

/-- The paths that are listed as skipped. -/
def skippedPaths : List String :=
  ((statusOf g s).filter (skips s.worktree skipBytes)).map (·.path)

/-- The paths that are handed to `git add`. -/
def addedPaths : List String :=
  ((statusOf g s).filter (!skips s.worktree skipBytes ·)).map (·.path)

/-- The seeded index and the pathspecs of a snapshot. -/
structure Staging where
  seed : Tree
  specs : List Pathspec

def stagingOf : Option Staging :=
  (seedTree repo s).bind fun seed =>
    ((addedPaths g skipBytes s).mapM g.pathspec).map fun specs => ⟨seed, specs⟩

end Spec

namespace Staging

variable (g : Rules) (worktree : Tree) (st : Staging)

/-- There is nothing to add, or `git add` succeeds. -/
def accepted : Bool := st.specs.isEmpty || accepts g st.seed worktree st.specs

/-- A pathspec selects the path; without pathspecs `git add` does not run. -/
def picked (p : Path) : Bool := !st.specs.isEmpty && selected st.specs p

/-- The files that are taken into the index when a pathspec selects them. -/
def available : Tree := worktree.filter (addable g st.seed worktree)

/-- A file that is taken in lies inside the path, or the path inside of it. -/
def displaced (p : Path) : Bool := FileTree.covered st.picked (st.available g worktree) p

/-- The tree that the staged index is written to. -/
def result : Tree := .overlay st.picked (st.available g worktree) st.seed

variable {g worktree st}

theorem get_result (p : Path) :
    (st.result g worktree).get p =
      if st.picked p then (if addable g st.seed worktree p then worktree.get p else none)
      else if st.displaced g worktree p then none else st.seed.get p := by
  simp only [result, FileTree.get_overlay, FileTree.layered, available, FileTree.get_filter]
  rfl

/-- Without pathspecs the seeded index is written. -/
theorem result_of_specs_nil (h : st.specs = []) : st.result g worktree = st.seed := by
  refine FileTree.ext_get fun p => ?_
  have hpicked : ∀ q, st.picked q = false := fun q => by simp [picked, h]
  have hdisplaced : st.displaced g worktree p = false := by
    simp [displaced, FileTree.covered, hpicked]
  simp [get_result, hpicked, hdisplaced]

/-- With pathspecs the index is the one that `git add` stages. -/
theorem result_of_specs_ne_nil (h : st.specs ≠ []) :
    st.result g worktree = stage g st.seed worktree st.specs := by
  have hpicked : st.picked = selected st.specs := funext fun p => by
    simp [picked, List.isEmpty_eq_false_iff.mpr h]
  rw [result, hpicked]
  rfl

end Staging

/-! ## Running a snapshot -/

/-- The index file that a temporary index has next. -/
def Repo.tempName (g : Rules) (tag : String) (s : Repo) : String :=
  TempIndex.fileName g.pid s.tempIndexCounter tag

/-- The repository without that file: what a temporary index starts with and leaves. -/
def Repo.afterTemp (g : Rules) (tag : String) (s : Repo) : Repo :=
  { s.removeIndex (s.tempName g tag) with tempIndexCounter := s.tempIndexCounter + 1 }

theorem tempName_ne (g : Rules) (tag : String) (s : Repo) : "index" ≠ s.tempName g tag := by
  have hfront : (s.tempName g tag).toList = "tethys_index_".toList ++ (toString g.pid ++ "_" ++
      toString s.tempIndexCounter ++ "_" ++ TempIndex.safe tag).toList := by
    rw [← String.toList_append, ← String.append_assoc, ← String.append_assoc,
      ← String.append_assoc, ← String.append_assoc]
    rfl
  intro h
  have hchars := congrArg (fun text => text.toList.head?) h
  simp only [hfront, List.head?_append] at hchars
  cases hchars

section Run
variable {g : Rules} {repo : GitRepo} {tag : String} {skipBytes : Nat} {s : Repo}

@[simp] theorem head_afterTemp : (s.afterTemp g tag).head = s.head := rfl
@[simp] theorem worktree_afterTemp : (s.afterTemp g tag).worktree = s.worktree := rfl

theorem removeIndex_setIndex (name : String) (t : Tree) :
    (s.setIndex name t).removeIndex name = s.removeIndex name := by
  simp [Repo.setIndex, Repo.removeIndex, OrdMap.erase_insert]

theorem removeIndex_afterTemp :
    (s.afterTemp g tag).removeIndex (s.tempName g tag) = s.afterTemp g tag := by
  simp [Repo.afterTemp, Repo.removeIndex, OrdMap.erase_erase]

@[simp] theorem realIndex_afterTemp :
    (s.afterTemp g tag).indexes.get "index" = s.indexes.get "index" := by
  change (s.indexes.erase (s.tempName g tag)).get "index" = _
  rw [OrdMap.get_erase, if_neg (tempName_ne g tag s)]

@[simp] theorem index_afterTemp : (s.afterTemp g tag).index = s.index := by
  simp [Repo.index]

theorem statusRecords_congr {s' : Repo} (hhead : s'.head = s.head) (hindex : s'.index = s.index)
    (hworktree : s'.worktree = s.worktree) : statusRecords g s' = statusRecords g s := by
  have htree : s'.headTree = s.headTree := by rw [Repo.headTree, hhead, Repo.headTree]
  have hchanged : changedRecord g s' = changedRecord g s := funext fun p => by
    unfold changedRecord stagedCode worktreeCode
    rw [htree, hindex, hworktree]
  have huntracked : isUntracked g s' = isUntracked g s := funext fun p => by
    unfold isUntracked
    rw [hindex, hworktree]
  unfold statusRecords Repo.trackedPaths
  rw [hchanged, huntracked, htree, hindex, hworktree]

/-- What is read while the temporary index exists is what was there before. -/
theorem statusRecords_setIndex {name : String} (hname : "index" ≠ name) (t : Tree) :
    statusRecords g (s.setIndex name t) = statusRecords g s :=
  statusRecords_congr rfl (by simp [Repo.index, Repo.setIndex, hname]) rfl

theorem seed_run {name : String} {seed : Tree} (h : seedTree repo s = some seed) :
    (TempIndex.seed repo name).run s = (.ok (), s.setIndex name seed) := by
  unfold seedTree at h
  unfold TempIndex.seed
  rw [run_get_bind]
  cases hindex : s.indexes.get "index" with
  | some index =>
    rw [hindex] at h
    cases h
    rfl
  | none =>
    rw [hindex] at h
    cases hoid : repo.headOid.isSome with
    | false =>
      simp only [hoid, Bool.false_eq_true, if_false, Option.some.injEq] at h
      subst h
      rfl
    | true =>
      simp only [hoid, if_true, Option.map_eq_some_iff] at h
      obtain ⟨oid, hhead, rfl⟩ := h
      simp only [if_true, gitReadTreeHead, run_get_bind, hhead]
      rfl

theorem seed_run_none (name : String) (h : seedTree repo s = none) :
    ∃ e, (TempIndex.seed repo name).run s = (.error e, s) := by
  unfold seedTree at h
  cases hindex : s.indexes.get "index" with
  | some index =>
    rw [hindex] at h
    cases h
  | none =>
    cases hoid : repo.headOid.isSome with
    | false => simp [hindex, hoid] at h
    | true =>
      simp only [hindex, hoid, if_true, Option.map_eq_none_iff] at h
      refine ⟨.commandFailed "read-tree HEAD", ?_⟩
      simp only [TempIndex.seed, run_get_bind, hindex, hoid, if_true, gitReadTreeHead, h]
      exact run_throw _

theorem statusEntries_run : (statusEntries g).run s = (.ok (statusOf g s), s) := by
  change (Except.ok (parsePorcelainV2 _), s) = _
  rw [parsePorcelainV2_porcelainV2]
  rfl

theorem path_entry (r : StatusRecord) : r.entry.path = r.path.val := by
  cases r <;> rfl

theorem nul_not_mem_addedPaths : ∀ path ∈ addedPaths g skipBytes s, nul ∉ path.toList := by
  intro path hpath
  obtain ⟨entry, hentry, rfl⟩ := List.mem_map.mp hpath
  obtain ⟨r, _, rfl⟩ := List.mem_map.mp (List.mem_of_mem_filter hentry)
  rw [path_entry]
  exact r.path.property

/-- Git reads the pathspecs that were written. -/
theorem readPathspecs_terminated {paths : List String} (h : ∀ path ∈ paths, nul ∉ path.toList) :
    readPathspecs g (paths.flatMap fun path => path.toList ++ [nul]) = paths.mapM g.pathspec := by
  have hchunks : ∀ chunk ∈ paths.map String.toList, nul ∉ chunk := List.forall_mem_map.mpr h
  have hsplit := splitOn_terminated hchunks
  rw [List.flatMap_map] at hsplit
  rw [readPathspecs, hsplit, List.dropLast_concat, List.map_map]
  simp [Function.comp_def]

theorem addPathspecs_run {name : String} {seed : Tree} {paths : List String} {specs : List Pathspec}
    (hpaths : ∀ path ∈ paths, nul ∉ path.toList) (hspecs : paths.mapM g.pathspec = some specs)
    (hseed : s.indexes.get name = some seed) (haccepts : accepts g seed s.worktree specs = true) :
    (addPathspecs g name paths).run s =
      (.ok (), s.setIndex name (stage g seed s.worktree specs)) := by
  unfold addPathspecs gitAdd
  rw [run_get_bind, readPathspecs_terminated hpaths, hspecs, hseed]
  simp only [Option.getD_some, haccepts, if_true]
  exact run_set

theorem addPathspecs_run_error {name : String} {seed : Tree} {paths : List String}
    (hpaths : ∀ path ∈ paths, nul ∉ path.toList) (hseed : s.indexes.get name = some seed)
    (hrefused : ∀ specs, paths.mapM g.pathspec = some specs → accepts g seed s.worktree specs = false) :
    ∃ e, (addPathspecs g name paths).run s = (.error e, s) := by
  refine ⟨.commandFailed "add -A --pathspec-from-file=-", ?_⟩
  unfold addPathspecs gitAdd
  rw [run_get_bind, readPathspecs_terminated hpaths, hseed]
  cases hspecs : paths.mapM g.pathspec with
  | none => exact run_throw _
  | some specs =>
    simp only [Option.getD_some, hrefused specs hspecs, Bool.false_eq_true, if_false]
    exact run_throw _

theorem setIndex_of_get {name : String} {t : Tree} (h : s.indexes.get name = some t) :
    s.setIndex name t = s := by
  simp [Repo.setIndex, OrdMap.insert_eq_self h]

@[simp] theorem get_setIndex (name : String) (t : Tree) :
    (s.setIndex name t).indexes.get name = some t := by
  simp [Repo.setIndex]

theorem gitWriteTree_run (name : String) :
    (gitWriteTree name).run s = (.ok (.tree ((s.indexes.get name).getD .empty)), s) := rfl

/-- The temporary index after `git add`, if it runs. -/
theorem addChanged_run {name : String} (st : Staging) {paths : List String}
    (hpaths : ∀ path ∈ paths, nul ∉ path.toList) (hspecs : paths.mapM g.pathspec = some st.specs)
    (hseed : s.indexes.get name = some st.seed) (haccepted : st.accepted g s.worktree = true) :
    (addChanged g name paths).run s = (.ok (), s.setIndex name (st.result g s.worktree)) := by
  cases paths with
  | nil =>
    have hnil : st.specs = [] := (Option.some.inj hspecs).symm
    rw [Staging.result_of_specs_nil hnil, setIndex_of_get hseed]
    rfl
  | cons path paths =>
    have hne : st.specs ≠ [] := by
      rw [List.mapM_cons] at hspecs
      obtain ⟨spec, _, hspecs⟩ := Option.bind_eq_some_iff.mp hspecs
      obtain ⟨rest, _, hspecs⟩ := Option.bind_eq_some_iff.mp hspecs
      exact Option.some.inj hspecs ▸ List.cons_ne_nil spec rest
    have haccepts : accepts g st.seed s.worktree st.specs = true := by
      simpa [Staging.accepted, hne] using haccepted
    rw [Staging.result_of_specs_ne_nil hne]
    exact addPathspecs_run hpaths hspecs hseed haccepts

theorem addChanged_run_error {name : String} {seed : Tree} {paths : List String}
    (hpaths : ∀ path ∈ paths, nul ∉ path.toList) (hseed : s.indexes.get name = some seed)
    (hrefused : ∀ specs, paths.mapM g.pathspec = some specs →
      Staging.accepted g s.worktree ⟨seed, specs⟩ = false) :
    ∃ e, (addChanged g name paths).run s = (.error e, s) := by
  cases paths with
  | nil => exact absurd (hrefused [] rfl) (by simp [Staging.accepted])
  | cons path paths =>
    refine addPathspecs_run_error hpaths hseed fun specs hspecs => ?_
    have hrefused := hrefused specs hspecs
    simp only [Staging.accepted, Bool.or_eq_false_iff] at hrefused
    exact hrefused.2

/-- A snapshot that `git add` accepts has the staged tree. -/
theorem snapshotInto_run {name : String} {st : Staging} (hname : "index" ≠ name)
    (hst : stagingOf g repo skipBytes s = some st) (haccepted : st.accepted g s.worktree = true) :
    (snapshotInto g repo skipBytes name).run s =
      (.ok ⟨.tree (st.result g s.worktree), skippedPaths g skipBytes s⟩,
        (s.setIndex name st.seed).setIndex name (st.result g s.worktree)) := by
  obtain ⟨seed, hseed, hst⟩ := Option.bind_eq_some_iff.mp hst
  obtain ⟨specs, hspecs, rfl⟩ := Option.map_eq_some_iff.mp hst
  have hstatus : statusOf g (s.setIndex name seed) = statusOf g s := by
    rw [statusOf, statusRecords_setIndex hname seed, statusOf]
  have hadd := addChanged_run (s := s.setIndex name seed) ⟨seed, specs⟩
    nul_not_mem_addedPaths hspecs (get_setIndex name seed) haccepted
  unfold snapshotInto
  rw [run_bind_ok (seed_run hseed), run_bind_ok statusEntries_run, run_get_bind,
    List.partition_eq_filter_filter, hstatus]
  change (addChanged g name (addedPaths g skipBytes s) >>= _).run _ = _
  rw [run_bind_ok hadd, run_bind_ok (gitWriteTree_run name), get_setIndex]
  rfl

/-- A snapshot fails when its index cannot be seeded or `git add` refuses a pathspec. -/
theorem snapshotInto_run_error {name : String} (hname : "index" ≠ name)
    (hrefused : ∀ st, stagingOf g repo skipBytes s = some st → st.accepted g s.worktree = false) :
    ∃ e s', (snapshotInto g repo skipBytes name).run s = (.error e, s') ∧
      s'.removeIndex name = s.removeIndex name := by
  unfold snapshotInto
  cases hseed : seedTree repo s with
  | none =>
    obtain ⟨e, hrun⟩ := seed_run_none name hseed
    exact ⟨e, s, run_bind_error hrun, rfl⟩
  | some seed =>
    have hstatus : statusOf g (s.setIndex name seed) = statusOf g s := by
      rw [statusOf, statusRecords_setIndex hname seed, statusOf]
    have hpaths : ∀ path ∈ addedPaths g skipBytes s, nul ∉ path.toList := nul_not_mem_addedPaths
    obtain ⟨e, hadd⟩ := addChanged_run_error (g := g) (s := s.setIndex name seed) hpaths
      (get_setIndex name seed)
      fun specs hspecs => hrefused ⟨seed, specs⟩ (by simp [stagingOf, hseed, hspecs])
    refine ⟨e, s.setIndex name seed, ?_, removeIndex_setIndex name seed⟩
    rw [run_bind_ok (seed_run hseed), run_bind_ok statusEntries_run, run_get_bind,
      List.partition_eq_filter_filter, hstatus]
    exact run_bind_error hadd

theorem skippedPaths_congr {s' : Repo} (hhead : s'.head = s.head) (hindex : s'.index = s.index)
    (hworktree : s'.worktree = s.worktree) :
    skippedPaths g skipBytes s' = skippedPaths g skipBytes s := by
  unfold skippedPaths statusOf
  rw [statusRecords_congr hhead hindex hworktree, hworktree]

theorem stagingOf_congr {s' : Repo} (hhead : s'.head = s.head)
    (hreal : s'.indexes.get "index" = s.indexes.get "index") (hworktree : s'.worktree = s.worktree) :
    stagingOf g repo skipBytes s' = stagingOf g repo skipBytes s := by
  have hindex : s'.index = s.index := by rw [Repo.index, hreal, Repo.index]
  unfold stagingOf seedTree addedPaths statusOf
  rw [statusRecords_congr hhead hindex hworktree, hreal, hhead, hworktree]

theorem within_run {α : Type} (body : String → GitM α) :
    (TempIndex.within g tag body).run s =
      (((body (s.tempName g tag)).run (s.afterTemp g tag)).1,
        ((body (s.tempName g tag)).run (s.afterTemp g tag)).2.removeIndex (s.tempName g tag)) := rfl

/-- What a snapshot returns, and that only the counter of the temporary indexes moves. -/
theorem snapshotWorktree_run {st : Staging} (hst : stagingOf g repo skipBytes s = some st)
    (haccepted : st.accepted g s.worktree = true) :
    (snapshotWorktree g repo tag skipBytes).run s =
      (.ok ⟨.tree (st.result g s.worktree), skippedPaths g skipBytes s⟩, s.afterTemp g tag) := by
  have hst' : stagingOf g repo skipBytes (s.afterTemp g tag) = some st := by
    rw [stagingOf_congr head_afterTemp realIndex_afterTemp worktree_afterTemp, hst]
  have hrun := snapshotInto_run (tempName_ne g tag s) hst' haccepted
  rw [snapshotWorktree, within_run, hrun, removeIndex_setIndex, removeIndex_setIndex, removeIndex_afterTemp,
    skippedPaths_congr head_afterTemp index_afterTemp worktree_afterTemp]
  rfl

theorem snapshotWorktree_run_error
    (hrefused : ∀ st, stagingOf g repo skipBytes s = some st → st.accepted g s.worktree = false) :
    ∃ e, (snapshotWorktree g repo tag skipBytes).run s = (.error e, s.afterTemp g tag) := by
  have hrefused' : ∀ st, stagingOf g repo skipBytes (s.afterTemp g tag) = some st →
      st.accepted g s.worktree = false := by
    rw [stagingOf_congr head_afterTemp realIndex_afterTemp worktree_afterTemp]
    exact hrefused
  obtain ⟨e, s', hrun, hs'⟩ := snapshotInto_run_error (tempName_ne g tag s) hrefused'
  refine ⟨e, ?_⟩
  rw [snapshotWorktree, within_run, hrun, hs', removeIndex_afterTemp]

/-- A snapshot that succeeds was accepted. -/
theorem snapshotWorktree_eq_ok {snap : Snapshot} {s' : Repo}
    (h : (snapshotWorktree g repo tag skipBytes).run s = (.ok snap, s')) :
    ∃ st, stagingOf g repo skipBytes s = some st ∧ st.accepted g s.worktree = true ∧
      snap = ⟨.tree (st.result g s.worktree), skippedPaths g skipBytes s⟩ ∧
      s' = s.afterTemp g tag := by
  by_cases hex : ∃ st, stagingOf g repo skipBytes s = some st ∧ st.accepted g s.worktree = true
  · obtain ⟨st, hst, haccepted⟩ := hex
    rw [snapshotWorktree_run hst haccepted] at h
    obtain ⟨hsnap, hs'⟩ := Prod.mk.inj h
    exact ⟨st, hst, haccepted, (Except.ok.inj hsnap).symm, hs'.symm⟩
  · have hrefused : ∀ st, stagingOf g repo skipBytes s = some st →
        st.accepted g s.worktree = false := fun st hst => by
      by_contra hne
      exact hex ⟨st, hst, by simpa using hne⟩
    obtain ⟨e, hrun⟩ : ∃ e, (snapshotWorktree g repo tag skipBytes).run s =
      (.error e, s.afterTemp g tag) := snapshotWorktree_run_error hrefused
    rw [hrun] at h
    cases h

end Run

/-! ## Faithful snapshots -/

section Faithful
variable (g : Rules) (repo : GitRepo) (skipBytes : Nat) (s : Repo)

/-- The file that a snapshot owes a path: what the worktree holds, for a tracked path or one
that is not ignored. -/
def owed (skipped : List String) (p : Path) : Option File :=
  if p.val ∈ skipped then none
  else if (s.index.get p).isSome || !g.ignored s.worktree p.val then s.worktree.get p
  else none

/-- The pathspecs take exactly what has to be taken. -/
structure Staging.Exact (st : Staging) : Prop where
  /-- There is nothing to add, or `git add` accepts every pathspec. -/
  accepted : st.accepted g s.worktree = true
  /-- A path whose seeded entry is out of date is selected, or gives way to a file that is. -/
  reached : ∀ p, st.seed.get p ≠ owed g s (skippedPaths g skipBytes s) p →
    st.picked p = true ∨ st.displaced g s.worktree p = true
  /-- A skipped path is neither selected nor seeded. -/
  spared : ∀ p : Path, p.val ∈ skippedPaths g skipBytes s →
    st.picked p = false ∧ st.seed.get p = none
  /-- An ignored file of the worktree is not seeded from HEAD. -/
  unignored : ∀ p, s.index.get p = none → g.ignored s.worktree p.val = true →
    st.seed.get p ≠ none → s.worktree.get p = none

end Faithful

section Faithful
variable {g : Rules} {repo : GitRepo} {skipBytes : Nat} {s : Repo} {st : Staging}

/-- Only an untracked path is skipped. -/
theorem isUntracked_of_mem_skippedPaths {p : Path} (h : p.val ∈ skippedPaths g skipBytes s) :
    isUntracked g s p = true := by
  obtain ⟨entry, hentry, hpath⟩ := List.mem_map.mp h
  obtain ⟨hstatus, hskips⟩ := List.mem_filter.mp hentry
  obtain ⟨r, hr, rfl⟩ := List.mem_map.mp hstatus
  obtain rfl : r.path = p := Subtype.ext ((path_entry r).symm.trans hpath)
  rcases List.mem_append.mp hr with hr | hr
  · -- a changed path is not skipped
    obtain ⟨q, _, hq⟩ := List.mem_filterMap.mp hr
    simp only [changedRecord] at hq
    split_ifs at hq
    cases hq
    simp [skips, StatusRecord.entry] at hskips
  · obtain ⟨q, hq, rfl⟩ := List.mem_map.mp hr
    exact (List.mem_filter.mp hq).2

/-- A file of the worktree gives way to none. -/
theorem get_eq_none_of_displaced {p : Path} (h : st.displaced g s.worktree p = true) :
    s.worktree.get p = none := by
  obtain ⟨q, hq, _, hclash⟩ := FileTree.covered_eq_true.mp h
  refine FileTree.get_eq_none_of_clash (q := q) (fun hnone => hq ?_) hclash
  simp [Staging.available, hnone]

/-- An entry of the real index is seeded. -/
theorem seed_of_index (hst : stagingOf g repo skipBytes s = some st) {p : Path}
    (h : s.index.get p ≠ none) : st.seed.get p = s.index.get p := by
  obtain ⟨seed, hseed, hst⟩ := Option.bind_eq_some_iff.mp hst
  obtain ⟨specs, _, rfl⟩ := Option.map_eq_some_iff.mp hst
  unfold seedTree at hseed
  unfold Repo.index at h ⊢
  cases hindex : s.indexes.get "index" with
  | none => simp [hindex] at h
  | some index =>
    rw [hindex] at hseed
    cases hseed
    rfl

/-- The staged tree is what the snapshot owes if and only if the pathspecs take exactly what has
to be taken. -/
theorem result_eq_owed_iff (hst : stagingOf g repo skipBytes s = some st)
    (haccepted : st.accepted g s.worktree = true) :
    (∀ p, (st.result g s.worktree).get p = owed g s (skippedPaths g skipBytes s) p) ↔
      st.Exact g skipBytes s := by
  have haddable : ∀ p, addable g st.seed s.worktree p =
      ((st.seed.get p).isSome || !g.ignored s.worktree p.val) := fun _ => rfl
  have hkept : ∀ p, s.worktree.get p ≠ none → st.displaced g s.worktree p = false := fun p hp => by
    by_contra hdisplaced
    exact hp (get_eq_none_of_displaced (by simpa using hdisplaced))
  constructor
  · intro heq
    refine ⟨haccepted, fun p hseed => ?_, fun p hskipped => ?_, fun p hindex hignored hseed => ?_⟩
    · by_contra hne
      simp only [not_or, Bool.not_eq_true] at hne
      have heq := heq p
      rw [Staging.get_result, hne.1, hne.2] at heq
      exact hseed heq
    · have huntracked := isUntracked_of_mem_skippedPaths hskipped
      simp only [isUntracked, Bool.and_eq_true, Bool.not_eq_true', decide_eq_true_eq] at huntracked
      have heq := heq p
      rw [Staging.get_result, haddable, owed, if_pos hskipped] at heq
      grind
    · by_contra hfile
      have heq := heq p
      have howed : owed g s (skippedPaths g skipBytes s) p = none := by
        simp [owed, hindex, hignored]
      rw [Staging.get_result, haddable, howed, hkept p hfile,
        Option.isSome_iff_ne_none.mpr hseed] at heq
      grind
  · rintro ⟨-, hreached, hspared, hunignored⟩ p
    rw [Staging.get_result, haddable]
    cases hpicked : st.picked p with
    | true =>
      have hskipped : p.val ∉ skippedPaths g skipBytes s := fun hskipped => by
        simp [(hspared p hskipped).1] at hpicked
      have hindexed := seed_of_index hst (p := p)
      have hunignored := hunignored p
      rw [owed, if_neg hskipped]
      cases hignored : g.ignored s.worktree p.val with
      | false => simp
      | true => cases hindex : s.index.get p <;> cases hseed : st.seed.get p <;> simp_all
    | false =>
      cases hdisplaced : st.displaced g s.worktree p with
      | true =>
        have hnone := get_eq_none_of_displaced hdisplaced
        simp [owed, hnone]
      | false =>
        by_contra hne
        have hreached := hreached p (by simpa using hne)
        simp [hpicked, hdisplaced] at hreached

end Faithful

/-! ## A staged deletion -/

/-- Git on names without magic and wildcards, in a repository without ignore files whose files
are all empty. -/
def plainRules : Rules where
  ignored _ _ := false
  pathspec text := some ⟨false, text, text, names text.toList⟩
  blobOid _ := ⟨"e69de29bb2d1d6434b8b29ae775ad8c2e48c5391", by decide⟩
  revision head _ text := if text = "HEAD" then head else none
  checkRefFormat _ := true
  pid := 1

/-- There is nothing to report where there are no files. -/
theorem statusRecords_empty {s : Repo} (hhead : s.headTree = .empty) (hindex : s.index = .empty)
    (hworktree : s.worktree = .empty) : statusRecords plainRules s = [] := by
  have htracked : s.trackedPaths = [] := by
    rw [Repo.trackedPaths, hhead, hindex]
    exact List.mergeSort_nil
  rw [statusRecords, htracked, hworktree]
  rfl

def emptyFile : File := ⟨.regular, []⟩

/-- A file that HEAD has was removed with `git rm`. -/
def removedFile : Repo where
  head := some (.root (.single ⟨"a", by decide⟩ emptyFile) 0 "base")
  refs := .empty
  indexes := .ofList [("index", .empty)]
  worktree := .empty
  tempIndexCounter := 0
  now := 0

end Tethys.Git
