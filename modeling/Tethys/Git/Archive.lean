import Tethys.Lib.Runs
import Tethys.Lib.Text
import Tethys.Git.Effects

/-!
# Archiving the refs of a thread

Archive moves the turn refs of a thread one by one and then prunes the captures. Each update is
a command of its own that may be refused, and what was done before stays. `Checkpoints` runs the
operations on one thread and remembers the commit of the latest checkpoint of each turn edge.
-/

namespace Tethys.Git

open Lib

/-! ## Archive -/

inductive RefUpdate where
  | write (refname : String) (oid : Oid)
  | delete (refname : String)
  deriving DecidableEq

def RefUpdate.apply : RefUpdate → Repo → Repo
  | write refname oid, s => { s with refs := s.refs.insert refname oid }
  | delete refname, s => { s with refs := s.refs.erase refname }

section Operations
variable (g : Rules) (refuses : RefUpdate → Bool) (thread : String)

/-- Run `git update-ref`, which a lock or a full disk makes fail. -/
def updateRef (update : RefUpdate) : GitM Unit := do
  if refuses update then throw (.commandFailed "update-ref")
  modify update.apply

/-- The captures that were found, and the largest index of them. -/
structure Restores where
  newestRestore : Option Nat
  restoreRefs : List (Nat × String)

/-- One ref of the thread: a capture is put aside, a turn edge is moved. -/
def archiveEntry (restores : Restores) (entry : RefEntry) : GitM Restores :=
  match stripPrefix (restoreDir thread).toList entry.refname.toList with
  | some remainder =>
    match (splitOnce '/' remainder).bind fun parts => parseU32 parts.1 with
    | some index => return {
        newestRestore := some (restores.newestRestore.elim index (max · index))
        restoreRefs := restores.restoreRefs ++ [(index, entry.refname)] }
    | none => return restores
  | none =>
    match parseCheckpointRef entry.refname, entry.oid with
    | some (turn, phase), some oid => do
      updateRef refuses (.write (archivedRef thread turn phase) oid)
      updateRef refuses (.delete entry.refname)
      return restores
    | _, _ => return restores

def pruneRestore (newestRestore : Option Nat) (restore : Nat × String) : GitM Unit :=
  if some restore.1 ≠ newestRestore then updateRef refuses (.delete restore.2) else return ()

/-- Moves a thread's turn refs into the archived namespace, keeping the newest restore capture. -/
def archive : GitM Unit := do
  validateThread g thread
  let entries ← listRefs (threadDir thread)
  let restores ← entries.foldlM (archiveEntry refuses thread) ⟨none, []⟩
  restores.restoreRefs.forM (pruneRestore refuses restores.newestRestore)

end Operations

/-! ## What an archive does to the refs -/

/-- What the updates of an archive have in common, wherever it stops. -/
structure Archives (thread : String) (s t : Repo) : Prop where
  removed : ∀ name oid, inDir (threadDir thread) name = true →
    t.refs.get name = some oid → s.refs.get name = some oid
  moved : ∀ turn phase oid, s.unarchived thread turn phase = some oid →
    t.unarchived thread turn phase = some oid ∨
      t.unarchived thread turn phase = none ∧ t.archived thread turn phase = some oid
  kept : ∀ turn phase, s.unarchived thread turn phase = none →
    t.archived thread turn phase = s.archived thread turn phase

namespace Archives

variable {thread : String} {s t u : Repo} {turn : Nat} {phase : CheckpointPhase} {oid : Oid}

theorem refl (s : Repo) : Archives thread s s :=
  ⟨fun _ _ _ h => h, fun _ _ _ h => .inl h, fun _ _ _ => rfl⟩

theorem unarchived_eq_none (h : Archives thread s t) (hnone : s.unarchived thread turn phase = none) :
    t.unarchived thread turn phase = none := by
  by_contra hsome
  obtain ⟨oid, hoid⟩ := Option.ne_none_iff_exists'.mp hsome
  have hback := h.removed _ oid inDir_turnRef hoid
  rw [Repo.unarchived, hback] at hnone
  cases hnone

theorem trans (hst : Archives thread s t) (htu : Archives thread t u) : Archives thread s u where
  removed name oid hdir h := hst.removed name oid hdir (htu.removed name oid hdir h)
  moved turn phase oid h := by
    rcases hst.moved turn phase oid h with h | ⟨hnone, harchived⟩
    · exact htu.moved turn phase oid h
    · exact .inr ⟨htu.unarchived_eq_none hnone, (htu.kept turn phase hnone).trans harchived⟩
  kept turn phase h := (htu.kept turn phase (hst.unarchived_eq_none h)).trans (hst.kept turn phase h)

/-- The commit of a turn edge is written to its archived ref. -/
theorem write (h : s.unarchived thread turn phase = some oid) :
    Archives thread s ((RefUpdate.write (archivedRef thread turn phase) oid).apply s) where
  removed name oid' hdir hget := by
    have hne : name ≠ archivedRef thread turn phase := by
      rintro rfl
      rw [inDir_threadDir_of_archivedDir inDir_archivedRef] at hdir
      cases hdir
    simpa [RefUpdate.apply, hne] using hget
  moved turn' phase' oid' h' := by
    left
    simpa [Repo.unarchived, RefUpdate.apply, turnRef_ne_archivedRef] using h'
  kept turn' phase' h' := by
    have hne : archivedRef thread turn' phase' ≠ archivedRef thread turn phase := fun heq => by
      obtain ⟨rfl, rfl⟩ := archivedRef_injective heq
      rw [h] at h'
      cases h'
    simp [Repo.archived, RefUpdate.apply, hne]

/-- The ref of a turn edge is deleted after its commit has been archived. -/
theorem delete (h : s.archived thread turn phase = s.unarchived thread turn phase) :
    Archives thread s ((RefUpdate.delete (turnRef thread turn phase)).apply s) where
  removed name oid' _ hget := by
    simp only [RefUpdate.apply, OrdMap.get_erase] at hget
    split_ifs at hget
    exact hget
  moved turn' phase' oid' h' := by
    by_cases heq : turnRef thread turn' phase' = turnRef thread turn phase
    · obtain ⟨rfl, rfl⟩ := turnRef_injective heq
      refine .inr ⟨by simp [Repo.unarchived, RefUpdate.apply], ?_⟩
      rw [h'] at h
      simpa [Repo.archived, RefUpdate.apply, turnRef_ne_archivedRef.symm] using h
    · left
      simpa [Repo.unarchived, RefUpdate.apply, heq] using h'
  kept turn' phase' _ := by
    simp [Repo.archived, RefUpdate.apply, turnRef_ne_archivedRef.symm]

/-- A capture is deleted. -/
theorem prune {name : String} (h : inDir (restoreDir thread) name = true) :
    Archives thread s ((RefUpdate.delete name).apply s) where
  removed name oid' _ hget := by
    simp only [RefUpdate.apply, OrdMap.get_erase] at hget
    split_ifs at hget
    exact hget
  moved turn' phase' oid' h' := by
    have hne : turnRef thread turn' phase' ≠ name := by
      rintro rfl
      rw [inDir_restoreDir_turnRef] at h
      cases h
    left
    simpa [Repo.unarchived, RefUpdate.apply, hne] using h'
  kept turn' phase' _ := by
    have hne : archivedRef thread turn' phase' ≠ name := by
      rintro rfl
      have hdir := inDir_of_restoreDir h
      rw [inDir_threadDir_of_archivedDir inDir_archivedRef] at hdir
      cases hdir
    simp [Repo.archived, RefUpdate.apply, hne]

theorem named (h : Archives thread s t) (hnamed : s.Named thread) : t.Named thread :=
  fun name oid hget hdir => hnamed name oid (h.removed name oid hdir hget) hdir

end Archives

section Archive
variable {g : Rules} {refuses : RefUpdate → Bool} {thread : String} {s : Repo}

theorem updateRef_run (refuses : RefUpdate → Bool) (s : Repo) (update : RefUpdate) :
    (updateRef refuses update).run s =
      if refuses update then (.error (.commandFailed "update-ref"), s) else (.ok (), update.apply s) := by
  unfold updateRef
  split_ifs <;> rfl

/-- The two updates that move a turn edge. -/
theorem moveEdge_run (refuses : RefUpdate → Bool) {turn : Nat} {phase : CheckpointPhase} {oid : Oid} (restores : Restores)
    (hget : s.unarchived thread turn phase = some oid) :
    ∃ r t, (do
        updateRef refuses (.write (archivedRef thread turn phase) oid)
        updateRef refuses (.delete (turnRef thread turn phase))
        return restores : GitM Restores).run s = (r, t) ∧ Archives thread s t ∧
      (∀ name, inDir (threadDir thread) name = true → name ≠ turnRef thread turn phase →
        t.refs.get name = s.refs.get name) ∧
      ∀ restores', r = .ok restores' →
        restores' = restores ∧ t.refs.get (turnRef thread turn phase) = none := by
  have hother : ∀ name, inDir (threadDir thread) name = true →
      name ≠ archivedRef thread turn phase := by
    rintro name hdir rfl
    rw [inDir_threadDir_of_archivedDir inDir_archivedRef] at hdir
    cases hdir
  have hwrite := updateRef_run refuses s (.write (archivedRef thread turn phase) oid)
  split_ifs at hwrite
  · exact ⟨_, s, run_bind_error hwrite, .refl s, fun _ _ _ => rfl, nofun⟩
  · have hdelete := updateRef_run refuses
      ((RefUpdate.write (archivedRef thread turn phase) oid).apply s) (.delete (turnRef thread turn phase))
    rw [run_bind_ok hwrite]
    split_ifs at hdelete
    · refine ⟨_, _, run_bind_error hdelete, .write hget, fun name hdir _ => ?_, nofun⟩
      simp [RefUpdate.apply, hother name hdir]
    · refine ⟨_, _, run_bind_ok hdelete, (Archives.write hget).trans (.delete ?_),
        fun name hdir hne => ?_, fun restores' h => ?_⟩
      · rw [Repo.unarchived] at hget
        simp [Repo.archived, Repo.unarchived, RefUpdate.apply, turnRef_ne_archivedRef, hget]
      · simp [RefUpdate.apply, hother name hdir, hne]
      · exact ⟨(Except.ok.inj h).symm, by simp [RefUpdate.apply]⟩

/-- One ref is put aside or moved, and the others of the thread stay. -/
theorem archiveEntry_run (refuses : RefUpdate → Bool) (hvalid : validThread g thread = true) (hnamed : s.Named thread)
    {name : String} {oid : Oid} (hget : s.refs.get name = some oid)
    (hdir : inDir (threadDir thread) name = true) {restores : Restores}
    (hrestores : ∀ r ∈ restores.restoreRefs, inDir (restoreDir thread) r.2 = true) :
    ∃ r t, (archiveEntry refuses thread restores (refEntry name oid)).run s = (r, t) ∧
      Archives thread s t ∧
      (∀ name', inDir (threadDir thread) name' = true → name' ≠ name →
        t.refs.get name' = s.refs.get name') ∧
      ∀ restores', r = .ok restores' →
        (∀ r ∈ restores'.restoreRefs, inDir (restoreDir thread) r.2 = true) ∧
        (inDir (restoreDir thread) name = false → t.refs.get name = none) := by
  unfold archiveEntry
  rw [refname_refEntry, oid_refEntry]
  obtain ⟨turn, hturn, phase, rfl⟩ | ⟨index, hindex, kind, rfl⟩ := hnamed name oid hget hdir
  · have hstrip : stripPrefix (restoreDir thread).toList (turnRef thread turn phase).toList = none :=
      if_neg (by rw [← inDir, inDir_restoreDir_turnRef]; exact Bool.false_ne_true)
    simp only [hstrip, parseCheckpointRef_turnRef hvalid hturn]
    obtain ⟨r, t, hrun, harchives, hother, hdone⟩ := moveEdge_run refuses restores hget
    refine ⟨r, t, hrun, harchives, hother, fun restores' h => ?_⟩
    obtain ⟨rfl, hgone⟩ := hdone restores' h
    exact ⟨hrestores, fun _ => hgone⟩
  · have hstrip : stripPrefix (restoreDir thread).toList (restoreRef thread index kind).toList =
        some ((toString index).toList ++ '/' :: kind.toList) := by
      rw [stripPrefix, ← inDir, inDir_restoreRef, if_pos rfl, restoreRef_toList, List.drop_left]
    have hsplit : (splitOnce '/' ((toString index).toList ++ '/' :: kind.toList)).bind
        (fun parts => parseU32 parts.1) = some index := by
      rw [splitOnce, if_pos (by simp), Option.bind_some,
        takeWhile_append_slash (slash_notMem_toString index), parseU32_toString hindex]
    simp only [hstrip, hsplit]
    refine ⟨_, s, rfl, .refl s, fun _ _ _ => rfl, fun restores' h => ?_⟩
    obtain rfl := Except.ok.inj h
    refine ⟨fun r hr => ?_, fun hfalse => ?_⟩
    · rcases List.mem_append.mp hr with hr | hr
      · exact hrestores r hr
      · obtain rfl := List.mem_singleton.mp hr
        exact inDir_restoreRef
    · rw [inDir_restoreRef] at hfalse
      cases hfalse

/-- The loop over the refs, by induction on those that are left: they are as they were listed. -/
theorem archiveEntries_run (refuses : RefUpdate → Bool) (hvalid : validThread g thread = true)
    {entries : List (String × Oid)} (hdistinct : entries.Pairwise fun e e' => e.1 ≠ e'.1)
    (hcurrent : ∀ e ∈ entries, s.refs.get e.1 = some e.2 ∧ inDir (threadDir thread) e.1 = true)
    (hnamed : s.Named thread) (restores : Restores)
    (hrestores : ∀ r ∈ restores.restoreRefs, inDir (restoreDir thread) r.2 = true) :
    ∃ r t, ((entries.map fun e => refEntry e.1 e.2).foldlM (archiveEntry refuses thread)
        restores).run s = (r, t) ∧ Archives thread s t ∧
      ∀ restores', r = .ok restores' →
        (∀ r ∈ restores'.restoreRefs, inDir (restoreDir thread) r.2 = true) ∧
        ∀ e ∈ entries, inDir (restoreDir thread) e.1 = false → t.refs.get e.1 = none := by
  induction entries generalizing s restores with
  | nil =>
    refine ⟨_, s, rfl, .refl s, fun restores' h => ?_⟩
    obtain rfl := Except.ok.inj h
    exact ⟨hrestores, nofun⟩
  | cons e entries ih =>
    obtain ⟨hhead, htail⟩ := List.pairwise_cons.mp hdistinct
    obtain ⟨hget, hdir⟩ := hcurrent e List.mem_cons_self
    obtain ⟨r, t, hrun, harchives, hother, hdone⟩ :=
      archiveEntry_run refuses hvalid hnamed hget hdir hrestores
    rw [List.map_cons, List.foldlM_cons]
    cases r with
    | error error => exact ⟨_, t, run_bind_error hrun, harchives, nofun⟩
    | ok restores₁ =>
      obtain ⟨hrestores₁, hgone⟩ := hdone restores₁ rfl
      have hcurrent' : ∀ e' ∈ entries,
          t.refs.get e'.1 = some e'.2 ∧ inDir (threadDir thread) e'.1 = true := fun e' he' => by
        obtain ⟨hget', hdir'⟩ := hcurrent e' (List.mem_cons_of_mem e he')
        exact ⟨(hother e'.1 hdir' (hhead e' he').symm).trans hget', hdir'⟩
      obtain ⟨r, u, hrun', harchives', hdone'⟩ :=
        ih htail hcurrent' (harchives.named hnamed) restores₁ hrestores₁
      refine ⟨r, u, (run_bind_ok hrun).trans hrun', harchives.trans harchives',
        fun restores' h => ?_⟩
      obtain ⟨hrestores', hgone'⟩ := hdone' restores' h
      refine ⟨hrestores', fun e' he' hnot => ?_⟩
      rcases List.mem_cons.mp he' with rfl | he'
      · by_contra hsome
        obtain ⟨oid, hoid⟩ := Option.ne_none_iff_exists'.mp hsome
        rw [harchives'.removed _ oid hdir hoid] at hgone
        cases hgone hnot
      · exact hgone' e' he' hnot

/-- The loop that prunes the captures. -/
theorem pruneRestores_run {newest : Option Nat} {restoreRefs : List (Nat × String)}
    (hrestores : ∀ r ∈ restoreRefs, inDir (restoreDir thread) r.2 = true) :
    Archives thread s ((restoreRefs.forM (pruneRestore refuses newest)).run s).2 := by
  induction restoreRefs generalizing s with
  | nil => exact .refl s
  | cons restore restoreRefs ih =>
    obtain ⟨hhead, htail⟩ := List.forall_mem_cons.mp hrestores
    have hprune : ∃ r t, (pruneRestore refuses newest restore).run s = (r, t) ∧
        Archives thread s t := by
      unfold pruneRestore
      split_ifs
      · rw [updateRef_run]
        split_ifs
        · exact ⟨_, s, rfl, .refl s⟩
        · exact ⟨_, _, rfl, .prune hhead⟩
      · exact ⟨_, s, rfl, .refl s⟩
    obtain ⟨r, t, hrun, harchives⟩ := hprune
    change Archives thread s ((pruneRestore refuses newest restore >>= fun _ =>
      restoreRefs.forM (pruneRestore refuses newest)).run s).2
    cases r with
    | error e =>
      rw [run_bind_error hrun]
      exact harchives
    | ok _ =>
      rw [run_bind_ok hrun]
      exact harchives.trans (ih htail)

/-- Wherever an archive stops, no checkpoint is lost, and one that succeeds leaves none
unarchived. -/
theorem archive_run (g : Rules) (refuses : RefUpdate → Bool) (hnamed : s.Named thread) :
    ∃ r t, (archive g refuses thread).run s = (r, t) ∧ Archives thread s t ∧
      (r = .ok () → ∀ turn phase, t.unarchived thread turn phase = none) := by
  unfold archive
  cases hvalid : validThread g thread with
  | false => exact ⟨_, s, run_bind_error (validateThread_run_invalid hvalid), .refl s, nofun⟩
  | true =>
    have hlist : (listRefs (threadDir thread)).run s =
        (.ok ((s.refs.entries.filter fun e => inDir (threadDir thread) e.1).map
          fun e => refEntry e.1 e.2), s) := rfl
    have hcurrent : ∀ e ∈ s.refs.entries.filter (fun e => inDir (threadDir thread) e.1),
        s.refs.get e.1 = some e.2 ∧ inDir (threadDir thread) e.1 = true := fun e he => by
      obtain ⟨hmem, hdir⟩ := List.mem_filter.mp he
      exact ⟨OrdMap.get_eq_some.mpr hmem, hdir⟩
    obtain ⟨r, t, hrun, harchives, hdone⟩ :=
      archiveEntries_run refuses hvalid ((s.refs.sorted.filter _).imp ne_of_lt) hcurrent hnamed
        ⟨none, []⟩ nofun
    rw [run_bind_ok (validateThread_run hvalid), run_bind_ok hlist]
    cases r with
    | error e => exact ⟨_, t, run_bind_error hrun, harchives, nofun⟩
    | ok restores =>
      obtain ⟨hrestores, hgone⟩ := hdone restores rfl
      rw [run_bind_ok hrun]
      refine ⟨_, _, rfl, harchives.trans (pruneRestores_run hrestores), fun _ turn phase => ?_⟩
      refine (pruneRestores_run hrestores).unarchived_eq_none ?_
      by_contra hsome
      obtain ⟨oid, hoid⟩ := Option.ne_none_iff_exists'.mp hsome
      have hmem := OrdMap.get_eq_some.mp (harchives.removed _ oid inDir_turnRef hoid)
      rw [Repo.unarchived, hgone _ (List.mem_filter.mpr ⟨hmem, inDir_turnRef⟩)
        inDir_restoreDir_turnRef] at hoid
      cases hoid

end Archive

/-! ## Runs on one thread -/

/-- The refs that belong to a thread. -/
def Repo.threadRefs (s : Repo) (thread : String) : List (String × Oid) :=
  s.refs.entries.filter fun e => inDir (threadDir thread) e.1 || inDir (archivedDir thread) e.1

/-- Calls on a thread, with the engine that each is made on. -/
inductive CheckpointCall where
  | create (engine : GitRepo) (turn : UInt32) (phase : CheckpointPhase) (skipBytes : Nat)
  | restore (engine : GitRepo) (target : RestoreTarget) (policy : RestorePolicy) (skipBytes : Nat)
  | archive (refuses : RefUpdate → Bool)
  /-- Anything that leaves the refs of the thread alone: commits, edits, other threads. -/
  | outside (repo : Repo)

/-- The repository, and the commit that was created last for each turn edge. -/
structure Checkpoints where
  repo : Repo
  latest : Nat → CheckpointPhase → Option Oid

namespace Checkpoints

def new (repo : Repo) : Checkpoints := ⟨repo, fun _ _ => none⟩

def record (s : Checkpoints) (turn : Nat) (phase : CheckpointPhase) (oid : Oid) :
    Nat → CheckpointPhase → Option Oid :=
  fun turn' phase' => if turn' = turn ∧ phase' = phase then some oid else s.latest turn' phase'

def step (g : Rules) (thread : String) (s : Checkpoints) : CheckpointCall → Option Checkpoints
  | .create engine turn phase skipBytes =>
    match (create g engine thread turn.toNat phase skipBytes).run s.repo with
    | (.ok result, repo) => some ⟨repo, s.record turn.toNat phase result.commitOid⟩
    | (.error _, repo) => some { s with repo }
  | .restore engine target policy skipBytes =>
    if target.threadId = thread then
      some { s with repo := ((restore g engine target policy skipBytes).run s.repo).2 }
    else none
  | .archive refuses => some { s with repo := ((archive g refuses thread).run s.repo).2 }
  | .outside repo =>
    if repo.threadRefs thread = s.repo.threadRefs thread then some { s with repo } else none

/-- The latest checkpoint of every turn edge is referenced, and the list is exactly the turn
edges that are not archived, each with its latest checkpoint. -/
structure Kept (g : Rules) (thread : String) (s : Checkpoints) : Prop where
  referenced : ∀ turn phase oid, s.latest turn phase = some oid →
    s.repo.unarchived thread turn phase = some oid ∨ s.repo.archived thread turn phase = some oid
  listed : ∃ infos, (list g thread).run s.repo = (.ok infos, s.repo) ∧
    infos.Pairwise CheckpointInfo.Before ∧
    (∀ info, info ∈ infos ↔ ∃ turn phase oid, s.repo.unarchived thread turn phase = some oid ∧
      info = infoOf thread turn phase oid) ∧
    ∀ info ∈ infos, s.latest info.turn info.phase = some info.commitOid

/-- A restore stores its undo pair under an index that no capture has, or fails before it stores
anything. -/
def Unused (g : Rules) (thread : String) (s : Checkpoints) : CheckpointCall → Prop
  | .restore engine target policy skipBytes =>
    ∀ r t, (restore g engine target policy skipBytes).run s.repo = (r, t) →
      (∃ e, r = .error e) ∧ t.refs = s.repo.refs ∨
      ∃ index, ¬s.repo.Captured thread index ∧ StoresPair thread index s.repo t ∧
        ∀ outcome, r = .ok outcome →
          outcome.undo.worktreeRef = restoreRef thread index "worktree" ∧
          outcome.undo.indexRef = restoreRef thread index "index"
  | _ => True

/-- A restore does not find captures with the first index and with the last one. -/
def IndexLeft (thread : String) (s : Checkpoints) : CheckpointCall → Prop
  | .restore _ _ _ _ => ¬(s.repo.Captured thread (2 ^ 32 - 1) ∧ s.repo.Captured thread 0)
  | _ => True

/-- What every call keeps. -/
structure Held (thread : String) (s : Checkpoints) : Prop where
  named : s.repo.Named thread
  filed : ∀ turn phase oid, s.latest turn phase = some oid →
    s.repo.unarchived thread turn phase = some oid ∨
      s.repo.unarchived thread turn phase = none ∧ s.repo.archived thread turn phase = some oid
  created : ∀ turn phase oid, s.repo.unarchived thread turn phase = some oid →
    s.latest turn phase = some oid

section Runs
variable {g : Rules} {thread : String} {s t : Checkpoints}

theorem Held.kept (h : s.Held thread) (hvalid : validThread g thread = true) : s.Kept g thread where
  referenced turn phase oid hlatest := by
    rcases h.filed turn phase oid hlatest with hfiled | ⟨-, hfiled⟩
    · exact .inl hfiled
    · exact .inr hfiled
  listed := by
    refine ⟨_, list_run hvalid, pairwise_listed hvalid h.named,
      fun info => mem_listed hvalid h.named, fun info hinfo => ?_⟩
    obtain ⟨turn, phase, oid, hget, rfl⟩ := (mem_listed hvalid h.named).mp hinfo
    exact h.created turn phase oid hget

/-- A call that leaves the turn edges and the latest commits alone. -/
theorem Held.of_edges (h : s.Held thread) (hlatest : t.latest = s.latest)
    (hnamed : t.repo.Named thread)
    (hunarchived : t.repo.unarchived thread = s.repo.unarchived thread)
    (harchived : t.repo.archived thread = s.repo.archived thread) : t.Held thread := by
  refine ⟨hnamed, ?_, ?_⟩
  · rw [hlatest, hunarchived, harchived]
    exact h.filed
  · rw [hlatest, hunarchived]
    exact h.created

theorem Held.of_refs (h : s.Held thread) (hlatest : t.latest = s.latest)
    (hrefs : t.repo.refs = s.repo.refs) : t.Held thread := by
  refine h.of_edges hlatest ?_ ?_ ?_
  · intro name oid hget
    exact h.named name oid (hrefs ▸ hget)
  · funext turn phase
    rw [Repo.unarchived, hrefs, Repo.unarchived]
  · funext turn phase
    rw [Repo.archived, hrefs, Repo.archived]

/-- The refs of the thread are what their two directories hold. -/
theorem get_of_threadRefs {repo repo' : Repo} (h : repo'.threadRefs thread = repo.threadRefs thread)
    {name : String} (hdir : (inDir (threadDir thread) name || inDir (archivedDir thread) name) = true) :
    repo'.refs.get name = repo.refs.get name := by
  have hmem : ∀ (repo : Repo) (oid : Oid),
      repo.refs.get name = some oid ↔ (name, oid) ∈ repo.threadRefs thread := fun repo oid => by
    rw [OrdMap.get_eq_some, Repo.threadRefs, List.mem_filter]
    exact (and_iff_left hdir).symm
  refine Option.ext fun oid => ?_
  rw [hmem, hmem, h]

theorem Held.outside (h : s.Held thread) {repo : Repo}
    (hrefs : repo.threadRefs thread = s.repo.threadRefs thread) :
    Held thread { s with repo } := by
  refine h.of_edges rfl (fun name oid hget hdir => ?_) ?_ ?_
  · rw [get_of_threadRefs hrefs (by rw [hdir, Bool.true_or])] at hget
    exact h.named name oid hget hdir
  · funext turn phase
    exact get_of_threadRefs hrefs (by rw [inDir_turnRef, Bool.true_or])
  · funext turn phase
    exact get_of_threadRefs hrefs (by rw [inDir_archivedRef, Bool.or_true])

theorem Held.create (h : s.Held thread) {turn : Nat} (hturn : turn < 2 ^ 32)
    {phase : CheckpointPhase} {oid : Oid} {repo : Repo}
    (hrefs : repo.refs = s.repo.refs.insert (turnRef thread turn phase) oid) :
    Held thread ⟨repo, s.record turn phase oid⟩ := by
  have hedge : ∀ turn' phase', repo.unarchived thread turn' phase' =
      if turn' = turn ∧ phase' = phase then some oid
      else s.repo.unarchived thread turn' phase' := fun turn' phase' => by
    have hiff : turnRef thread turn' phase' = turnRef thread turn phase ↔
        turn' = turn ∧ phase' = phase :=
      ⟨turnRef_injective, fun ⟨hturn, hphase⟩ => by rw [hturn, hphase]⟩
    simp only [Repo.unarchived, hrefs, OrdMap.get_insert, hiff]
  refine ⟨fun name oid' hget hdir => ?_, fun turn' phase' oid' hlatest => ?_,
    fun turn' phase' oid' hget => ?_⟩
  · rw [hrefs, OrdMap.get_insert] at hget
    split_ifs at hget with hname
    · exact .inl ⟨turn, hturn, phase, hname⟩
    · exact h.named name oid' hget hdir
  · have harchived : repo.archived thread turn' phase' = s.repo.archived thread turn' phase' := by
      simp [Repo.archived, hrefs, turnRef_ne_archivedRef.symm]
    simp only [record] at hlatest
    rw [hedge, harchived]
    split_ifs at hlatest ⊢ with heq
    · exact .inl hlatest
    · exact h.filed turn' phase' oid' hlatest
  · rw [hedge] at hget
    simp only [record]
    split_ifs at hget ⊢ with heq
    · exact hget
    · exact h.created turn' phase' oid' hget

/-- The undo pair is stored beside the turn edges. -/
theorem edges_of_storesPair {index : Nat} {repo repo' : Repo}
    (h : StoresPair thread index repo repo') :
    repo'.unarchived thread = repo.unarchived thread ∧ repo'.archived thread = repo.archived thread := by
  obtain ⟨worktree, index', hrefs⟩ := h
  have hturn : ∀ turn phase kind, turnRef thread turn phase ≠ restoreRef thread index kind := by
    intro turn phase kind heq
    have hdir : inDir (restoreDir thread) (turnRef thread turn phase) = true :=
      heq ▸ inDir_restoreRef
    rw [inDir_restoreDir_turnRef] at hdir
    cases hdir
  have harchived : ∀ turn phase kind,
      archivedRef thread turn phase ≠ restoreRef thread index kind := by
    intro turn phase kind heq
    have hdir : inDir (threadDir thread) (archivedRef thread turn phase) = true :=
      heq ▸ inDir_of_restoreDir inDir_restoreRef
    rw [inDir_threadDir_of_archivedDir inDir_archivedRef] at hdir
    cases hdir
  constructor
  · funext turn phase
    simp [Repo.unarchived, hrefs, hturn]
  · funext turn phase
    simp [Repo.archived, hrefs, harchived]

theorem named_of_storesPair {index : Nat} (hindex : index < 2 ^ 32) {repo repo' : Repo}
    (hnamed : repo.Named thread) (h : StoresPair thread index repo repo') : repo'.Named thread := by
  obtain ⟨worktree, index', hrefs⟩ := h
  intro name oid hget hdir
  rw [hrefs, OrdMap.get_insert, OrdMap.get_insert] at hget
  split_ifs at hget with hname hname
  · exact .inr ⟨index, hindex, _, hname⟩
  · exact .inr ⟨index, hindex, _, hname⟩
  · exact hnamed name oid hget hdir

theorem Held.restore (h : s.Held thread) {index : Nat} (hindex : index < 2 ^ 32) {repo : Repo}
    (hstores : StoresPair thread index s.repo repo) : Held thread { s with repo } :=
  h.of_edges rfl (named_of_storesPair hindex h.named hstores) (edges_of_storesPair hstores).1
    (edges_of_storesPair hstores).2

theorem Held.archive (h : s.Held thread) {repo : Repo} (harchives : Archives thread s.repo repo) :
    Held thread { s with repo } where
  named := harchives.named h.named
  filed turn phase oid hlatest := by
    rcases h.filed turn phase oid hlatest with hfiled | ⟨hnone, hfiled⟩
    · exact harchives.moved turn phase oid hfiled
    · exact .inr ⟨harchives.unarchived_eq_none hnone, (harchives.kept turn phase hnone).trans hfiled⟩
  created turn phase oid hget :=
    h.created turn phase oid (harchives.removed _ oid inDir_turnRef hget)

theorem held_step {call : CheckpointCall} (h : s.Held thread) (hstep : s.step g thread call = some t) :
    t.Held thread := by
  cases call with
  | create engine turn phase skipBytes =>
    simp only [step] at hstep
    rcases hrun : (Git.create g engine thread turn.toNat phase skipBytes).run s.repo with ⟨r, repo⟩
    rw [hrun] at hstep
    cases r with
    | error e =>
      obtain rfl := Option.some.inj hstep
      exact h.of_refs rfl (create_eq_error hrun)
    | ok result =>
      obtain rfl := Option.some.inj hstep
      obtain ⟨-, -, hrefs, -⟩ := create_eq_ok hrun
      exact h.create turn.toNat_lt hrefs
  | restore engine target policy skipBytes =>
    simp only [step] at hstep
    split_ifs at hstep with htarget
    subst htarget
    obtain rfl := Option.some.inj hstep
    obtain ⟨r, repo, hrun, hcases⟩ := restore_cases g engine target policy skipBytes s.repo
    rw [hrun]
    rcases hcases with ⟨-, hrefs⟩ | ⟨hstores, -⟩
    · exact h.of_refs rfl hrefs
    · exact h.restore (nextIndex_lt _ _) hstores
  | archive refuses =>
    obtain rfl := Option.some.inj hstep
    obtain ⟨r, repo, hrun, harchives, -⟩ := archive_run g refuses h.named
    rw [hrun]
    exact h.archive harchives
  | outside repo =>
    simp only [step] at hstep
    split_ifs at hstep with hrefs
    obtain rfl := Option.some.inj hstep
    exact h.outside hrefs

/-- Only a checkpoint adds a turn edge. -/
theorem removed_step {call : CheckpointCall} (h : s.Held thread)
    (hcall : ∀ engine turn phase skipBytes, call ≠ .create engine turn phase skipBytes)
    (hstep : s.step g thread call = some t) {turn : Nat} {phase : CheckpointPhase} {oid : Oid}
    (hget : t.repo.unarchived thread turn phase = some oid) :
    s.repo.unarchived thread turn phase = some oid := by
  cases call with
  | create engine turn phase skipBytes => exact absurd rfl (hcall engine turn phase skipBytes)
  | restore engine target policy skipBytes =>
    simp only [step] at hstep
    split_ifs at hstep with htarget
    subst htarget
    obtain rfl := Option.some.inj hstep
    obtain ⟨r, repo, hrun, hcases⟩ := restore_cases g engine target policy skipBytes s.repo
    rw [hrun] at hget
    rcases hcases with ⟨-, hrefs⟩ | ⟨hstores, -⟩
    · rwa [Repo.unarchived, hrefs] at hget
    · rwa [(edges_of_storesPair hstores).1] at hget
  | archive refuses =>
    obtain rfl := Option.some.inj hstep
    obtain ⟨r, repo, hrun, harchives, -⟩ := archive_run g refuses h.named
    rw [hrun] at hget
    exact harchives.removed _ oid inDir_turnRef hget
  | outside repo =>
    simp only [step] at hstep
    split_ifs at hstep with hrefs
    obtain rfl := Option.some.inj hstep
    exact (get_of_threadRefs hrefs (by rw [inDir_turnRef, Bool.true_or])).symm.trans hget

theorem unused_of_indexLeft {call : CheckpointCall} (h : s.Held thread)
    (hleft : s.IndexLeft thread call) (hstep : s.step g thread call = some t) :
    s.Unused g thread call := by
  cases call with
  | restore engine target policy skipBytes =>
    simp only [step] at hstep
    split_ifs at hstep with htarget
    subst htarget
    intro r repo hrun
    obtain ⟨r', repo', hrun', hcases⟩ := restore_cases g engine target policy skipBytes s.repo
    obtain ⟨rfl, rfl⟩ := Prod.mk.inj (hrun.symm.trans hrun')
    rcases hcases with hfailed | ⟨hstores, hnames⟩
    · exact .inl hfailed
    · exact .inr ⟨_, nextIndex_free h.named hleft, hstores, hnames⟩
  | create | archive | outside => trivial

theorem held_new {repo : Repo} (h : repo.threadRefs thread = []) : (new repo).Held thread := by
  have hnone : ∀ name, (inDir (threadDir thread) name || inDir (archivedDir thread) name) = true →
      repo.refs.get name = none := fun name hdir => by
    have hempty : repo.threadRefs thread = ({ repo with refs := .empty } : Repo).threadRefs thread := h
    exact get_of_threadRefs hempty hdir
  refine ⟨fun name oid hget hdir => ?_, nofun, fun turn phase oid hget => ?_⟩
  · change repo.refs.get name = some oid at hget
    rw [hnone name (by rw [hdir, Bool.true_or])] at hget
    cases hget
  · change repo.refs.get (turnRef thread turn phase) = some oid at hget
    rw [hnone _ (by rw [inDir_turnRef, Bool.true_or])] at hget
    cases hget

/-- In every run of checkpoints, restores and archives on a new thread, whatever update of an
archive is refused, no checkpoint is lost and the list is exact; and every undo pair lies under
an index of its own if no restore finds captures with the first and the last index. -/
theorem checkpoints_kept (g : Rules) (thread : String) (hvalid : validThread g thread = true)
    (repo : Repo) (hnew : repo.threadRefs thread = []) (calls : List CheckpointCall) :
    Always (step g thread) (Kept g thread) (new repo) calls ∧
      (Meets (step g thread) (IndexLeft thread) (new repo) calls →
        Meets (step g thread) (Unused g thread) (new repo) calls) := by
  constructor
  · exact always_of_run (I := Held thread) (fun s h => h.kept hvalid)
      (fun s call t h hstep => held_step h hstep) (held_new hnew)
  · exact meets_of_meets (I := Held thread)
      (fun s call t h hleft hstep => unused_of_indexLeft h hleft hstep)
      (fun s call t h _ hstep => held_step h hstep) (held_new hnew)

end Runs

/-! ## More restores than indexes -/

/-- A repository without commits and files. -/
def emptyRepo : Repo where
  head := none
  refs := .empty
  indexes := .ofList [("index", .empty)]
  worktree := .empty
  tempIndexCounter := 0
  now := 0

/-- A restore of the empty tree. -/
def restoreEmpty : CheckpointCall :=
  .restore ⟨none⟩ (.trees "t1" (.oid (.tree .empty)) (.oid (.tree .empty))) .force 0

theorem checkpoints_kept_emptyRepo :
    emptyRepo.threadRefs "t1" = [] ∧
      Always (step plainRules "t1") (Kept plainRules "t1") (new emptyRepo)
        [.create ⟨none⟩ 1 .start 0, .create ⟨none⟩ 1 .final 0, restoreEmpty,
          .archive (· = .delete (turnRef "t1" 1 .final)), .create ⟨none⟩ 1 .final 0] := by
  refine ⟨rfl, ?_⟩
  exact (checkpoints_kept plainRules "t1" (by decide +kernel) emptyRepo rfl _).1

/-- The files are as in the beginning, and the captures have the indexes below `n`. -/
structure Restored (n : Nat) (s : Repo) : Prop where
  files : s.SameFiles emptyRepo
  named : s.Named "t1"
  captured : ∀ index, s.Captured "t1" index ↔ index < n

/-- There is nothing to stage where there are no files. -/
theorem stagingOf_empty (engine : GitRepo) {s : Repo} (hhead : s.headTree = .empty)
    (hindex : s.indexes.get "index" = some .empty) (hworktree : s.worktree = .empty) :
    stagingOf plainRules engine 0 s = some ⟨.empty, []⟩ := by
  have hreal : s.index = .empty := by rw [Repo.index, hindex]; rfl
  have hstatus := statusRecords_empty hhead hreal hworktree
  rw [stagingOf, addedPaths, statusOf, hstatus, seedTree, hindex]
  rfl

theorem restoreEmpty_run {s : Repo} (hfiles : s.SameFiles emptyRepo) :
    ∃ outcome t, (restore plainRules ⟨none⟩ (.trees "t1" (.oid (.tree .empty)) (.oid (.tree .empty)))
        .force 0).run s = (.ok outcome, t) ∧ t.SameFiles emptyRepo := by
  have hst : stagingOf plainRules ⟨none⟩ 0 s = some ⟨.empty, []⟩ :=
    stagingOf_empty ⟨none⟩ (by rw [Repo.headTree, hfiles.head]; rfl) hfiles.realIndex hfiles.worktree
  obtain ⟨outcome, t, hrun, hsame⟩ := restore_trees_run (.tree .empty) (.tree .empty)
    (by decide +kernel : validThread plainRules "t1" = true) hst rfl
  refine ⟨outcome, t, hrun, hsame.head.trans hfiles.head, ?_, ?_⟩
  · rw [hsame.worktree]
    have hreset := (hfiles.resetTo (Oid.peel (.tree .empty)) (Oid.peel (.tree .empty))).worktree
    rw [hreset]
    rfl
  · rw [hsame.realIndex]
    have hreset := (hfiles.resetTo (Oid.peel (.tree .empty)) (Oid.peel (.tree .empty))).realIndex
    rw [hreset]
    rfl

/-- One more restore takes the next index, as long as there is one. -/
theorem restored_succ {n : Nat} (hn : n < 2 ^ 32) {s : Checkpoints} (h : Restored n s.repo) :
    ∃ t, s.step plainRules "t1" restoreEmpty = some t ∧ Restored (n + 1) t.repo := by
  obtain ⟨outcome, repo, hrun, hfiles⟩ := restoreEmpty_run h.files
  obtain ⟨r, repo', hrun', hcases⟩ := restore_cases plainRules ⟨none⟩
    (.trees "t1" (.oid (.tree .empty)) (.oid (.tree .empty))) .force 0 s.repo
  obtain ⟨rfl, rfl⟩ := Prod.mk.inj (hrun.symm.trans hrun')
  rcases hcases with ⟨⟨e, he⟩, -⟩ | ⟨⟨worktree, index', hrefs⟩, -⟩
  · cases he
  rw [RestoreTarget.threadId, nextIndex_eq h.named (Nat.le_of_lt hn) h.captured,
    Nat.mod_eq_of_lt hn] at hrefs
  refine ⟨{ s with repo }, by simp only [step, restoreEmpty, RestoreTarget.threadId, if_true, hrun],
    hfiles, ?_, fun index => ?_⟩
  · exact named_of_storesPair hn h.named ⟨worktree, index', hrefs⟩
  · have hcaptured : repo.Captured "t1" index ↔ index = n ∨ s.repo.Captured "t1" index := by
      simp only [Repo.Captured, hrefs, OrdMap.get_insert]
      constructor
      · rintro ⟨kind, hget⟩
        split_ifs at hget with hname hname
        · exact .inl (restoreRef_injective hname).1
        · exact .inl (restoreRef_injective hname).1
        · exact .inr ⟨kind, hget⟩
      · rintro (rfl | ⟨kind, hget⟩)
        · exact ⟨"index", by simp⟩
        · refine ⟨kind, ?_⟩
          split_ifs
          · exact Option.some_ne_none _
          · exact Option.some_ne_none _
          · exact hget
    rw [hcaptured, h.captured]
    omega

theorem restored_run {n : Nat} (hn : n ≤ 2 ^ 32) :
    ∃ s, run (step plainRules "t1") (new emptyRepo) (List.replicate n restoreEmpty) = some s ∧
      Restored n s.repo := by
  induction n with
  | zero =>
    refine ⟨new emptyRepo, rfl, ⟨rfl, rfl, rfl⟩, (held_new rfl).named, fun index => ?_⟩
    exact iff_of_false (fun ⟨kind, hget⟩ => hget rfl) (Nat.not_lt_zero index)
  | succ n ih =>
    obtain ⟨s, hrun, hs⟩ := ih (by omega)
    obtain ⟨t, hstep, ht⟩ := restored_succ (by omega) hs
    refine ⟨t, ?_, ht⟩
    rw [List.replicate_succ', run_append, hrun, Option.bind_some, run_cons, hstep]
    rfl

/-- The restore after the last index stores its undo pair over the first one. -/
theorem capture_overwritten :
    ¬Meets (step plainRules "t1") (Unused plainRules "t1") (new emptyRepo)
      (List.replicate (2 ^ 32 + 1) restoreEmpty) := by
  intro hmeets
  obtain ⟨s, hrun, hs⟩ := restored_run (n := 2 ^ 32) (Nat.le_refl _)
  obtain ⟨outcome, repo, hrestore, -⟩ := restoreEmpty_run hs.files
  have hstep : s.step plainRules "t1" restoreEmpty = some { s with repo } := by
    simp only [step, restoreEmpty, RestoreTarget.threadId, if_true, hrestore]
  rw [List.replicate_succ'] at hmeets
  have hunused := Meets.last hmeets hrun hstep _ _ hrestore
  obtain ⟨r, repo', hrestore', hcases⟩ := restore_cases plainRules ⟨none⟩
    (.trees "t1" (.oid (.tree .empty)) (.oid (.tree .empty))) .force 0 s.repo
  obtain ⟨rfl, rfl⟩ := Prod.mk.inj (hrestore.symm.trans hrestore')
  rcases hunused with ⟨⟨e, he⟩, -⟩ | ⟨index, hfree, -, hnames⟩
  · cases he
  rcases hcases with ⟨⟨e, he⟩, -⟩ | ⟨-, hnext⟩
  · cases he
  have hindex := (hnames outcome rfl).1.symm.trans (hnext outcome rfl).1
  rw [RestoreTarget.threadId, nextIndex_eq hs.named (Nat.le_refl _) hs.captured, Nat.mod_self] at hindex
  obtain ⟨rfl, -⟩ := restoreRef_injective hindex
  exact hfree ((hs.captured 0).mpr (by omega))

end Checkpoints

end Tethys.Git
