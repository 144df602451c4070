import Tethys.Git.Apply
import Tethys.Git.Effects
import Tethys.Git.Summary
import Tethys.Lib.Batches

/-!
# Discarding hunks

`discard` groups the references to hunks by path, renders one patch for each path and has git take
it back, path after path, in the order in which a hash map gives them. Each patch is checked before
it is applied, but the patches that went before it stay when it is refused. `allOrNothing_iff_batch`
says so of the batch of these patches; what becomes of each of them is left to the next module.
-/

namespace Tethys.Git

open Lib

inductive DiffSource where
  | baseLatestEnd (threadId base : String)
  | baseWorktree (threadId base : String)
  | turnStartEnd (threadId : String) (turn : Nat)
  | turnStartWorktree (threadId : String) (turn : Nat)
  | headIndex (threadId : String)
  | headWorktree (threadId : String)
  | indexWorktree (threadId : String)

/-- Identifies one hunk for discard operations. -/
structure HunkRef where
  path : Path
  hunkIndex : Nat

inductive DiscardError where
  | invalidArgument (text : String)
  | patchFailed (text : String)
  | git (error : GitError)
  | tooManyLines

def DiffFileStatus.debug : DiffFileStatus → String
  | .added => "Added"
  | .modified => "Modified"
  | .deleted => "Deleted"
  | .renamed => "Renamed"
  | .copied => "Copied"
  | .typeChanged => "TypeChanged"
  | .unmerged => "Unmerged"
  | .other => "Other"

/-! ## The live trees -/

/-- Whether a live source is about the index; the others have no live tree to change. -/
def DiffSource.cached : DiffSource → Option Bool
  | .headIndex _ => some true
  | .indexWorktree _ => some false
  | .baseLatestEnd _ _ | .baseWorktree _ _ | .turnStartEnd _ _ | .turnStartWorktree _ _
  | .headWorktree _ => none

section Trees
variable (cached : Bool) (s : Repo)

def Repo.target : Tree := if cached then s.index else s.worktree

def Repo.setTarget (t : Tree) : Repo :=
  if cached then s.setIndex "index" t else { s with worktree := t }

/-- Turns a live source into the two trees it anchors. -/
def resolveLive (g : Rules) (engine : GitRepo) (skipBytes : Nat) : GitM (Tree × Tree) := do
  let s ← get
  if cached then return (s.headTree, s.index)
  else
    let snapshot ← snapshotWorktree g engine "diff_live" skipBytes
    return (s.index, snapshot.tree.peel)

end Trees

/-! ## Discarding -/

def selectHunks (path : Path) (hunks : List ComputedHunk) (indices : List Nat) :
    Except DiscardError (List ComputedHunk) :=
  indices.mapM fun index =>
    match hunks[index]? with
    | some hunk => .ok hunk
    | none =>
      .error (.patchFailed ("hunk " ++ toString index ++ " out of range for " ++ path.val))

/-- The patch of the hunks with these numbers. -/
def patchOf (path : Path) (indices : List Nat) : LoadedFile → Except DiscardError Text
  | .text context => do
    let selected ← selectHunks path context.hunks indices
    let status := context.entry.status
    let patch := renderPatch (pathBytes path) status (bytesOf context.entry.oldMode)
      (bytesOf context.entry.newMode) context.oldTokens context.newTokens selected
    if status = .added ∨ status = .deleted ∨ status = .modified then return patch
    else throw (.patchFailed ("cannot discard " ++ status.debug ++ " file: " ++ path.val))
  | _ => .error (.patchFailed ("cannot discard hunks of non-text file: " ++ path.val))

/-- A dry run, and then the patch. -/
def applyReverse (git : GitApply) (patch : Text) (t : Tree) : Except DiscardError Tree :=
  match git.check patch t with
  | .error message => .error (.patchFailed message)
  | .ok _ => (git.apply patch t).mapError .patchFailed

section Discard
variable {diff : LineDiff} (git : GitApply) (numstat : GitDiff) (old new : Tree) (cached : Bool)

def discardHunks (path : Path) (indices : List Nat) (cache : DiffCache diff) (s : Repo) :
    Except DiscardError Unit × DiffCache diff × Repo :=
  match loadFile numstat old new path cache with
  | none => (.error .tooManyLines, cache, s)
  | some (loaded, cache) =>
    match (patchOf path indices loaded).bind fun patch => applyReverse git patch (s.target cached) with
    | .ok t => (.ok (), cache, s.setTarget cached t)
    | .error e => (.error e, cache, s)

/-- One path after the other; the first error ends it. -/
def discardPaths : List (Path × List Nat) → DiffCache diff → Repo →
    Except DiscardError Unit × DiffCache diff × Repo
  | [], cache, s => (.ok (), cache, s)
  | (path, indices) :: paths, cache, s =>
    match discardHunks git numstat old new cached path indices cache s with
    | (.ok _, cache, s) => discardPaths paths cache s
    | (.error e, cache, s) => (.error e, cache, s)

/-- The hunks of a path that are referenced, as they are listed. -/
def referenced (hunks : List HunkRef) (path : Path) : List Nat :=
  (hunks.filter (·.path = path)).map (·.hunkIndex)

/-- The references by path, in the order in which the hash map gives the paths. -/
def byPath (hunks : List HunkRef) (order : List Path) : List (Path × List Nat) :=
  order.map fun path => (path, referenced hunks path)

/-- Discards selected hunks of a live source. -/
def discard (g : Rules) (engine : GitRepo) (source : DiffSource) (hunks : List HunkRef)
    (order : List Path) (cache : DiffCache diff) (skipBytes : Nat) (s : Repo) :
    Except DiscardError Unit × DiffCache diff × Repo :=
  match source.cached with
  | none =>
    (.error (.invalidArgument "discard requires a HEAD/index or index/worktree source"), cache, s)
  | some cached =>
    match (resolveLive cached g engine skipBytes).run s with
    | (.error e, s) => (.error (.git e), cache, s)
    | (.ok (old, new), s) =>
      discardPaths git numstat old new cached (byPath hunks order) cache s

end Discard

/-! ## What a path holds afterwards -/

/-- The lines of a blob with these hunks taken back. -/
def revertedLines (oldLines newLines : List Text) (hunks : List ComputedHunk) (chosen : List Nat) :
    List Text :=
  replaceFrom newLines 0 ((hunks.zipIdx.filter (·.2 ∈ chosen)).map fun (hunk, _) =>
    (hunk.change.after, slice oldLines hunk.change.before.start hunk.change.before.stop))

/-- A file with these hunks taken back. A new file goes with its lines, and a deleted one comes back
with its mode. -/
def revertedFile (old new : Option File) (hunks : List ComputedHunk) (chosen : List Nat) : Option File :=
  let lines := revertedLines (fileLines old) (fileLines new) hunks chosen
  match old, new with
  | none, none => none
  | some f, none => some ⟨f.mode, lines.flatten⟩
  | none, some f => if lines = [] then none else some ⟨f.mode, lines.flatten⟩
  | some _, some f => some ⟨f.mode, lines.flatten⟩

section Effect
variable (diff : LineDiff) (old new : Tree)

/-- The numbers are those of hunks of the path, and the file is the one with these taken back. -/
def Reverted (path : Path × List Nat) (file : Option File) : Prop :=
  path.1 ∈ changedPaths old new ∧
    ∃ hunks, compute diff (textOf (oidAt old path.1)) (textOf (oidAt new path.1)) = some hunks ∧
      (∀ i ∈ path.2, i < hunks.length) ∧
        file = revertedFile (old.get path.1) (new.get path.1) hunks path.2

end Effect

/-! ## The patches that git is given -/

section Patches
variable {diff : LineDiff} {git : GitApply} {numstat : GitDiff} {old new : Tree} {path : Path}
  {indices : List Nat} {cache cache' : DiffCache diff} {context : FilePatchContext} {t t' : Tree}

theorem newline_notMem_mode (file : Option File) : newline ∉ bytesOf (modeWord file).val := by
  rcases file with _ | ⟨_ | _ | _, bytes⟩
  · decide
  · exact (by decide : newline ∉ bytesOf "100644")
  · exact (by decide : newline ∉ bytesOf "100755")
  · exact (by decide : newline ∉ bytesOf "120000")

/-- A text that is loaded has the lines and the hunks of the blobs of its entry. -/
theorem loadFile_eq_text (h : loadFile numstat old new path cache = some (.text context, cache')) :
    (∃ p, context.entry = rawEntry old new p) ∧
      context.oldTokens = lineTokens (textOf context.entry.oldOid) ∧
      context.newTokens = lineTokens (textOf context.entry.newOid) ∧
      compute diff (textOf context.entry.oldOid) (textOf context.entry.newOid) = some context.hunks := by
  unfold loadFile at h
  cases hentry : fileEntry old new path with
  | none => simp [hentry] at h
  | some entry =>
    simp only [hentry] at h
    split_ifs at h
    · simp at h
    · simp at h
    · obtain ⟨⟨hunks, cache''⟩, hhunks, hloaded⟩ := Option.map_eq_some_iff.mp h
      obtain ⟨p, -, hp⟩ := List.mem_map.mp (List.mem_of_mem_head? (Option.mem_def.mpr hentry))
      have hcompute : compute diff (textOf entry.oldOid) (textOf entry.newOid) = some hunks := by
        rw [← cache.map_fst_hunks (entry.oldOid, entry.newOid), hhunks, Option.map_some]
      obtain rfl := LoadedFile.text.inj (Prod.mk.inj hloaded).1
      exact ⟨⟨p, hp.symm⟩, rfl, rfl, hcompute⟩

theorem mem_of_selectHunks {hunks selected : List ComputedHunk}
    (h : selectHunks path hunks indices = .ok selected) : ∀ hunk ∈ selected, hunk ∈ hunks := by
  intro hunk hhunk
  obtain ⟨index, -, hindex⟩ := (mem_of_mapM_eq_ok h).1 hunk hhunk
  split at hindex
  next found hfound =>
    obtain rfl := Except.ok.inj hindex
    exact List.mem_of_getElem? hfound
  next => cases hindex

/-- git reads a patch as one of the file that is asked for. -/
theorem readPatch_patchOf {loaded : LoadedFile} {patch : Text}
    (hload : loadFile numstat old new path cache = some (loaded, cache'))
    (h : patchOf path indices loaded = .ok patch) :
    ∃ read, readPatch patch = some read ∧ read.headerNames = (pathBytes path, pathBytes path) := by
  cases loaded with
  | text context =>
    obtain ⟨⟨p, hentry⟩, hold, hnew, hcompute⟩ := loadFile_eq_text hload
    obtain ⟨selected, hselected, h⟩ := bind_eq_ok h
    dsimp only at h
    split_ifs at h with hstatus
    · obtain rfl := Except.ok.inj h
      have hstatus' : context.entry.status = .added ∨ context.entry.status = .deleted ∨
          context.entry.status = .modified := hstatus
      have hmode : newline ∉ bytesOf context.entry.oldMode := by
        rw [hentry]
        exact newline_notMem_mode _
      have hmode' : newline ∉ bytesOf context.entry.newMode := by
        rw [hentry]
        exact newline_notMem_mode _
      obtain ⟨read, hread, -⟩ := readPatch_of_sound (fun hunk hhunk =>
        sound_of_compute hcompute hunk (mem_of_selectHunks hselected hunk hhunk)) (pathBytes path)
        hstatus' hmode hmode'
      rw [hold, hnew]
      exact ⟨_, hread, rfl⟩
  | absent | binary | collapsed => cases h

theorem applyReverse_eq_ok {patch : Text} (h : applyReverse git patch t = .ok t') :
    git.apply patch t = .ok t' := by
  unfold applyReverse at h
  split at h
  next => cases h
  next => exact mapError_eq_ok h

end Patches

/-! ## The paths as a batch -/

section Batch
variable (diff : LineDiff) (git : GitApply) (numstat : GitDiff) (old new : Tree)

/-- The tree after the hunks of a path are taken back. -/
def takeBackHunks (path : Path × List Nat) (t : Tree) : Except DiscardError Tree :=
  match loadFile numstat old new path.1 (.empty : DiffCache diff) with
  | none => .error .tooManyLines
  | some (loaded, _) => (patchOf path.1 path.2 loaded).bind fun patch => applyReverse git patch t

theorem frame_takeBackHunks {path : Path × List Nat} {t t' : Tree}
    (h : takeBackHunks diff git numstat old new path t = .ok t') (p : Path) (hp : p ≠ path.1) :
    t'.get p = t.get p := by
  unfold takeBackHunks at h
  split at h
  next => cases h
  next loaded cache hload =>
    obtain ⟨patch, hpatch, h⟩ := bind_eq_ok h
    obtain ⟨read, hread, hnames⟩ := readPatch_patchOf hload hpatch
    have happly := applyReverse_eq_ok h
    rw [GitApply.apply, hread] at happly
    refine git.frame happly p ?_ ?_ <;>
      · rw [hnames]
        exact fun heq => hp (pathBytes_injective heq)

/-- Discarding, path by path. -/
def takings : Batch (Path × List Nat) Tree Path (Option File) DiscardError where
  step := takeBackHunks diff git numstat old new
  place := Prod.fst
  get := FileTree.get
  ext := FileTree.ext_get
  frame h p hp := frame_takeBackHunks diff git numstat old new h p hp

end Batch

section Refinement
variable {diff : LineDiff} (git : GitApply) (numstat : GitDiff) (old new : Tree) (cached : Bool)

@[simp]
theorem target_setTarget (s : Repo) (t : Tree) : (s.setTarget cached t).target cached = t := by
  cases cached <;> simp [Repo.setTarget, Repo.target, Repo.index, Repo.setIndex]

@[simp]
theorem target_not_setTarget (s : Repo) (t : Tree) :
    (s.setTarget cached t).target (!cached) = s.target (!cached) := by
  cases cached <;> simp [Repo.setTarget, Repo.target, Repo.index, Repo.setIndex]

theorem discardHunks_eq (path : Path × List Nat) (cache : DiffCache diff) (s : Repo) :
    ∃ cache', discardHunks git numstat old new cached path.1 path.2 cache s =
      match takeBackHunks diff git numstat old new path (s.target cached) with
      | .ok t => (.ok (), cache', s.setTarget cached t)
      | .error e => (.error e, cache', s) := by
  have hcache : (loadFile numstat old new path.1 cache).map Prod.fst =
      (loadFile numstat old new path.1 (.empty : DiffCache diff)).map Prod.fst :=
    map_fst_loadFile numstat path.1 cache .empty
  unfold discardHunks takeBackHunks
  cases hload : loadFile numstat old new path.1 cache with
  | none =>
    rw [hload, Option.map_none, eq_comm, Option.map_eq_none_iff] at hcache
    rw [hcache]
    exact ⟨cache, rfl⟩
  | some loaded =>
    obtain ⟨loaded, cache'⟩ := loaded
    rw [hload, Option.map_some, eq_comm, Option.map_eq_some_iff] at hcache
    obtain ⟨⟨loaded', cache''⟩, hload', rfl⟩ := hcache
    rw [hload']
    exact ⟨cache', rfl⟩

/-- The loop runs the batch on the live tree, and leaves the other tree alone. -/
theorem discardPaths_eq (paths : List (Path × List Nat)) (cache : DiffCache diff) (s : Repo) :
    ∃ cache' s', discardPaths git numstat old new cached paths cache s =
        (((takings diff git numstat old new).run paths (s.target cached)).1, cache', s') ∧
      s'.target cached = ((takings diff git numstat old new).run paths (s.target cached)).2 ∧
      s'.target (!cached) = s.target (!cached) := by
  induction paths generalizing cache s with
  | nil => exact ⟨cache, s, rfl, rfl, rfl⟩
  | cons path paths ih =>
    obtain ⟨cache', hstep⟩ := discardHunks_eq git numstat old new cached path cache s
    cases htake : takeBackHunks diff git numstat old new path (s.target cached) with
    | ok t =>
      rw [htake] at hstep
      rw [Batch.run_cons_ok htake, discardPaths, hstep]
      obtain ⟨cache'', s', hrest, htarget, hother⟩ := ih cache' (s.setTarget cached t)
      rw [target_setTarget] at hrest htarget
      rw [target_not_setTarget] at hother
      exact ⟨cache'', s', hrest, htarget, hother⟩
    | error e =>
      rw [htake] at hstep
      rw [Batch.run_cons_error htake, discardPaths, hstep]
      exact ⟨cache', s, rfl, rfl, rfl⟩

end Refinement

/-! ## All or nothing -/

section AllOrNothing
variable {diff : LineDiff} (git : GitApply) (numstat : GitDiff) (g : Rules) (engine : GitRepo)
  (source : DiffSource) (hunks : List HunkRef) (order : List Path) (cache : DiffCache diff)
  (skipBytes : Nat) (s : Repo)

/-- The trees of a live source. -/
def liveTrees (cached : Bool) : Except GitError (Tree × Tree) :=
  ((resolveLive cached g engine skipBytes).run s).1

/-- The referenced hunks are taken back, each once, and nothing else is changed. -/
structure RevertsExactly (diff : LineDiff) (old new : Tree) (hunks : List HunkRef) (t t' : Tree) :
    Prop where
  reverted : ∀ ref ∈ hunks,
    Reverted diff old new (ref.path, referenced hunks ref.path) (t'.get ref.path)
  kept : ∀ p, (∀ ref ∈ hunks, ref.path ≠ p) → t'.get p = t.get p

/-- The referenced hunks are taken back, or an error leaves the index and the worktree as they were. -/
def AllOrNothing (cached : Bool) : Prop :=
  match discard git numstat g engine source hunks order cache skipBytes s with
  | (.ok _, _, s') => ∃ old new, liveTrees g engine skipBytes s cached = .ok (old, new) ∧
      RevertsExactly diff old new hunks (s.target cached) (s'.target cached) ∧
      s'.target (!cached) = s.target (!cached)
  | (.error _, _, s') => s'.index = s.index ∧ s'.worktree = s.worktree

/-- The order of a hash map with the paths that are referenced. -/
structure IsOrder (hunks : List HunkRef) (order : List Path) : Prop where
  nodup : order.Nodup
  mem : ∀ p, p ∈ order ↔ ∃ ref ∈ hunks, ref.path = p

end AllOrNothing

section Main
variable {diff : LineDiff} {git : GitApply} {numstat : GitDiff} {g : Rules} {engine : GitRepo}
  {source : DiffSource} {hunks : List HunkRef} {order : List Path} {cache : DiffCache diff}
  {skipBytes : Nat} {s s' : Repo} {cached : Bool} {old new : Tree}

theorem target_iff (cached : Bool) : s'.index = s.index ∧ s'.worktree = s.worktree ↔
    s'.target cached = s.target cached ∧ s'.target (!cached) = s.target (!cached) := by
  cases cached
  · exact and_comm
  · exact Iff.rfl

/-- Reading the live trees leaves them as they are. -/
theorem target_resolveLive (b : Bool) :
    ((resolveLive cached g engine skipBytes).run s).2.target b = s.target b := by
  have hstate : ((snapshotWorktree g engine "diff_live" skipBytes).run s).2 = s.afterTemp g "diff_live" :=
    snapshotWorktree_state "diff_live"
  have hkept : ((resolveLive cached g engine skipBytes).run s).2 = s ∨
      ((resolveLive cached g engine skipBytes).run s).2 = s.afterTemp g "diff_live" := by
    unfold resolveLive
    rw [run_get_bind]
    cases cached with
    | true => exact .inl rfl
    | false =>
      refine .inr ?_
      rw [if_neg (by decide)]
      rcases hrun : (snapshotWorktree g engine "diff_live" skipBytes).run s with ⟨r, t⟩
      rw [hrun] at hstate
      cases r with
      | ok snapshot => rw [run_bind_ok hrun]; exact hstate
      | error e => rw [run_bind_error hrun]; exact hstate
  rcases hkept with h | h
  · rw [h]
  · rw [h]
    cases b <;> simp [Repo.target]

@[simp]
theorem map_fst_byPath : (byPath hunks order).map Prod.fst = order := by
  rw [byPath, List.map_map]
  exact List.map_id _

theorem made_iff (horder : IsOrder hunks order) {t t' : Tree} :
    (takings diff git numstat old new).Made (Reverted diff old new) (byPath hunks order) t t' ↔
      RevertsExactly diff old new hunks t t' := by
  have hplaces : (byPath hunks order).map (takings diff git numstat old new).place = order :=
    map_fst_byPath
  have hout : ∀ p, p ∉ order ↔ ∀ ref ∈ hunks, ref.path ≠ p := fun p => by
    rw [horder.mem p]
    simp
  rw [Batch.Made, hplaces]
  constructor
  · rintro ⟨hmeets, hkept⟩
    refine ⟨fun ref href => ?_, fun p hp => hkept p ((hout p).mpr hp)⟩
    exact hmeets (ref.path, referenced hunks ref.path)
      (List.mem_map.mpr ⟨ref.path, (horder.mem _).mpr ⟨ref, href, rfl⟩, rfl⟩)
  · rintro ⟨hreverted, hkept⟩
    refine ⟨fun path hpath => ?_, fun p hp => hkept p ((hout p).mp hp)⟩
    obtain ⟨p, hp, rfl⟩ := List.mem_map.mp hpath
    obtain ⟨ref, href, rfl⟩ := (horder.mem p).mp hp
    exact hreverted ref href

variable (git numstat source hunks order cache) in
/-- Discarding runs the batch on the live tree, and leaves the other tree alone. -/
theorem discard_eq (hlive : source.cached = some cached)
    (htrees : liveTrees g engine skipBytes s cached = .ok (old, new)) :
    ∃ cache' s', discard git numstat g engine source hunks order cache skipBytes s =
        (((takings diff git numstat old new).run (byPath hunks order) (s.target cached)).1, cache', s') ∧
      s'.target cached =
        ((takings diff git numstat old new).run (byPath hunks order) (s.target cached)).2 ∧
      s'.target (!cached) = s.target (!cached) := by
  have hkept : ∀ b, ((resolveLive cached g engine skipBytes).run s).2.target b = s.target b :=
    target_resolveLive
  rw [discard, hlive]
  rw [liveTrees] at htrees
  dsimp only
  rcases hrun : (resolveLive cached g engine skipBytes).run s with ⟨r, s₁⟩
  rw [hrun] at hkept htrees
  obtain rfl : r = .ok (old, new) := htrees
  obtain ⟨cache', s', hpaths, htarget, hother⟩ :=
    discardPaths_eq git numstat old new cached (byPath hunks order) cache s₁
  rw [show s₁.target cached = s.target cached from hkept cached] at hpaths htarget
  exact ⟨cache', s', hpaths, htarget, hother.trans (hkept (!cached))⟩

/-- Where the live trees cannot be read, nothing is changed. -/
theorem allOrNothing_of_error {e : GitError} (hlive : source.cached = some cached)
    (htrees : liveTrees g engine skipBytes s cached = .error e) :
    AllOrNothing git numstat g engine source hunks order cache skipBytes s cached := by
  have hkept : ∀ b, ((resolveLive cached g engine skipBytes).run s).2.target b = s.target b :=
    target_resolveLive
  rw [AllOrNothing, discard, hlive]
  rw [liveTrees] at htrees
  dsimp only
  rcases hrun : (resolveLive cached g engine skipBytes).run s with ⟨r, s₁⟩
  rw [hrun] at hkept htrees
  obtain rfl : r = .error e := htrees
  exact (target_iff cached).mpr ⟨hkept cached, hkept (!cached)⟩

/-- The hunks are taken back as a whole or not at all if and only if each patch is taken and leaves
what is meant, or a path is refused before any path is changed. -/
theorem allOrNothing_iff_batch (hlive : source.cached = some cached) (horder : IsOrder hunks order) :
    AllOrNothing git numstat g engine source hunks order cache skipBytes s cached ↔
      ∀ old new, liveTrees g engine skipBytes s cached = .ok (old, new) →
        (takings diff git numstat old new).Every (Reverted diff old new) (byPath hunks order)
            (s.target cached) ∨
          (takings diff git numstat old new).Barred (byPath hunks order) (s.target cached) := by
  cases htrees : liveTrees g engine skipBytes s cached with
  | error e => exact iff_of_true (allOrNothing_of_error hlive htrees) nofun
  | ok trees =>
    obtain ⟨old, new⟩ := trees
    have hplaces : ((byPath hunks order).map (takings diff git numstat old new).place).Nodup :=
      (map_fst_byPath : (byPath hunks order).map Prod.fst = order).symm ▸ horder.nodup
    have hread : ∀ {Q : Tree → Tree → Prop}, (∀ old' new',
        (Except.ok (old, new) : Except GitError _) = .ok (old', new') → Q old' new') ↔ Q old new :=
      fun {Q} => ⟨fun h => h old new rfl, fun h old' new' heq => by cases heq; exact h⟩
    have hwhole : (takings diff git numstat old new).Whole (Reverted diff old new)
        (byPath hunks order) (s.target cached) ↔ _ := Batch.whole_iff hplaces
    obtain ⟨cache', s', hdiscard, htarget, hother⟩ :=
      discard_eq git numstat source hunks order cache hlive htrees
    rw [hread, ← hwhole, Batch.Whole, AllOrNothing, hdiscard]
    rcases hbatch : (takings diff git numstat old new).run (byPath hunks order) (s.target cached) with
      ⟨r, t⟩
    rw [hbatch] at htarget
    obtain rfl : s'.target cached = t := htarget
    dsimp only
    cases r with
    | ok u =>
      dsimp only
      rw [made_iff horder, htrees]
      constructor
      · rintro ⟨old', new', heq, hreverts, -⟩
        cases heq
        exact hreverts
      · exact fun hreverts => ⟨old, new, rfl, hreverts, hother⟩
    | error e =>
      dsimp only
      rw [target_iff cached, and_iff_left hother]

end Main

end Tethys.Git
