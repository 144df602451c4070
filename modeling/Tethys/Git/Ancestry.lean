import Tethys.Git.Archive

/-!
# The parents of checkpoints

A checkpoint follows the start of its turn or the latest end checkpoint, and the first one of a
thread follows HEAD. HEAD was read when the engine was opened, and the registry keeps the engine.
`Ancestry` runs the calls on one engine while commits and branch moves change HEAD under it.
-/

namespace Tethys.Git

open Lib

/-- Calls on one engine. Turns do not go down. -/
inductive EngineCall where
  | reopen
  | create (turn : UInt32) (phase : CheckpointPhase) (skipBytes : Nat)
  | restore (target : RestoreTarget) (policy : RestorePolicy) (skipBytes : Nat)
  | archive (refuses : RefUpdate → Bool)
  | outside (repo : Repo)

/-- The calls so far: the engine, the turn of the last checkpoint, and the end checkpoints that
were created, the latest one in front. -/
structure Ancestry where
  checkpoints : Checkpoints
  engine : GitRepo
  lastTurn : Nat
  ends : List (Nat × Oid)

namespace Ancestry

/-- The engine is opened on a repository. -/
def discover (repo : Repo) : Ancestry := ⟨.new repo, ⟨repo.head⟩, 0, []⟩

def repo (s : Ancestry) : Repo := s.checkpoints.repo

/-- The end checkpoints after a checkpoint was created or failed. -/
def ended (s : Ancestry) (turn : Nat) :
    CheckpointPhase → Except GitError CheckpointResult → List (Nat × Oid)
  | .final, .ok result => (turn, result.commitOid) :: s.ends
  | _, _ => s.ends

section Machine
variable (g : Rules) (thread : String)

def step (s : Ancestry) : EngineCall → Option Ancestry
  | .reopen => some { s with engine := ⟨s.repo.head⟩ }
  | .create turn phase skipBytes =>
    if s.lastTurn ≤ turn.toNat then
      let result := ((create g s.engine thread turn.toNat phase skipBytes).run s.repo).1
      (s.checkpoints.step g thread (.create s.engine turn phase skipBytes)).map fun checkpoints =>
        { s with checkpoints, lastTurn := turn.toNat, ends := s.ended turn.toNat phase result }
    else none
  | .restore target policy skipBytes =>
    (s.checkpoints.step g thread (.restore s.engine target policy skipBytes)).map
      fun checkpoints => { s with checkpoints }
  | .archive refuses =>
    (s.checkpoints.step g thread (.archive refuses)).map fun checkpoints => { s with checkpoints }
  | .outside repo =>
    (s.checkpoints.step g thread (.outside repo)).map fun checkpoints => { s with checkpoints }

variable (s : Ancestry)

/-- The end checkpoint that was created last among those that are not archived. -/
def latestEnd : Option Oid :=
  (s.ends.find? fun e => s.repo.unarchived thread e.1 .final = some e.2).map Prod.snd

/-- The checkpoint that a new one has to follow. -/
def predecessor (turn : Nat) : CheckpointPhase → Option Oid
  | .start => s.latestEnd thread
  | .final => (s.repo.unarchived thread turn .start).or (s.latestEnd thread)

/-- A checkpoint has its predecessor as parent, or else the commit that HEAD points at. -/
def Follows : EngineCall → Prop
  | .create turn phase skipBytes => ∀ result t,
      (create g s.engine thread turn.toNat phase skipBytes).run s.repo = (.ok result, t) →
      result.commitOid.parent = (s.predecessor thread turn.toNat phase).or s.repo.head
  | _ => True

/-- The other refs that git looks for when it does not find one. -/
def shadows (name : String) : List String :=
  ["refs/" ++ name, "refs/tags/" ++ name, "refs/heads/" ++ name, "refs/remotes/" ++ name,
    "refs/remotes/" ++ name ++ "/HEAD"]

/-- HEAD is where it was when the engine was opened, unless the checkpoint has a predecessor; and
the start of a turn that has none is not found under another name. -/
def HeadCurrent : EngineCall → Prop
  | .create turn phase _ =>
    (s.predecessor thread turn.toNat phase = none → s.engine.headOid = s.repo.head) ∧
    (phase = .final → s.repo.unarchived thread turn.toNat .start = none →
      ∀ name ∈ shadows (turnRef thread turn.toNat .start), s.repo.refs.get name = none)
  | _ => True

/-- How git reads the name of a turn ref that does not exist. -/
def FindsShadows : Prop :=
  ∀ head refs turn, (∀ name ∈ shadows (turnRef thread turn .start), refs.get name = none) →
    g.revision head refs (turnRef thread turn .start) = none

end Machine

/-- What every call keeps. -/
structure Logged (thread : String) (s : Ancestry) : Prop where
  held : s.checkpoints.Held thread
  turns : s.ends.Pairwise fun e e' => e'.1 ≤ e.1
  bound : ∀ e ∈ s.ends, e.1 ≤ s.lastTurn
  logged : ∀ turn oid, s.repo.unarchived thread turn .final = some oid → (turn, oid) ∈ s.ends

section Runs
variable {g : Rules} {thread : String} {s t : Ancestry}

/-- The end checkpoint with the highest turn is the one that was created last. -/
theorem Logged.latestEnd_eq (h : s.Logged thread) (hvalid : validThread g thread = true) :
    (s.repo.latestEnd thread).map (·.commitOid) = s.latestEnd thread := by
  have hnamed : s.repo.Named thread := h.held.named
  unfold Ancestry.latestEnd
  cases hend : s.repo.latestEnd thread with
  | none =>
    have hnone : s.ends.find? (fun e => s.repo.unarchived thread e.1 .final = some e.2) = none := by
      rw [List.find?_eq_none]
      intro e _ hget
      rw [latestEnd_eq_none hvalid hnamed hend] at hget
      cases of_decide_eq_true hget
    rw [hnone]
    rfl
  | some info =>
    obtain ⟨turn, oid, hget, rfl, hmax⟩ := latestEnd_eq_some hvalid hnamed hend
    cases hfind : s.ends.find? (fun e => s.repo.unarchived thread e.1 .final = some e.2) with
    | none =>
      have hnot := List.find?_eq_none.mp hfind (turn, oid) (h.logged turn oid hget)
      exact absurd (decide_eq_true hget) hnot
    | some e =>
      -- nothing before the first one that is found is found, and turns only go down behind it
      obtain ⟨hfound, before, after, hends, hbefore⟩ := List.find?_eq_some_iff_append.mp hfind
      have hfound := of_decide_eq_true hfound
      have hmem := h.logged turn oid hget
      rw [hends] at hmem
      have hge : turn ≤ e.1 := by
        rcases List.mem_append.mp hmem with hmem | hmem
        · have hnot := hbefore _ hmem
          simp [hget] at hnot
        · rcases List.mem_cons.mp hmem with rfl | hmem
          · exact Nat.le_refl _
          · have hturns := h.turns
            rw [hends] at hturns
            have htail := (List.pairwise_append.mp hturns).2.1
            exact (List.pairwise_cons.mp htail).1 _ hmem
      obtain rfl : e.1 = turn := Nat.le_antisymm (hmax e.1 e.2 hfound) hge
      rw [hfound] at hget
      obtain rfl := Option.some.inj hget
      rfl

/-- The code finds the predecessor. -/
theorem Logged.follows_eq (h : s.Logged thread) (hvalid : validThread g thread = true)
    (hgit : FindsShadows g thread) {turn : Nat} {phase : CheckpointPhase}
    (hshadow : phase = .final → s.repo.unarchived thread turn .start = none →
      ∀ name ∈ shadows (turnRef thread turn .start), s.repo.refs.get name = none) :
    s.repo.follows g thread turn phase = s.predecessor thread turn phase := by
  cases phase with
  | start => exact h.latestEnd_eq hvalid
  | final =>
    have hstart : s.repo.revParse g (.text (turnRef thread turn .start)) =
        s.repo.unarchived thread turn .start := by
      rw [Repo.revParse, ← Repo.unarchived]
      cases hget : s.repo.unarchived thread turn .start with
      | some oid => rfl
      | none => exact hgit _ _ _ (hshadow rfl hget)
    rw [Repo.follows, hstart, h.latestEnd_eq hvalid]
    rfl

/-- Where there is nothing to follow, the parent is HEAD if and only if HEAD has not moved. -/
theorem Logged.parent_eq_iff (h : s.Logged thread) (hvalid : validThread g thread = true)
    (hgit : FindsShadows g thread) {turn skipBytes : Nat} {phase : CheckpointPhase}
    (hshadow : phase = .final → s.repo.unarchived thread turn .start = none →
      ∀ name ∈ shadows (turnRef thread turn .start), s.repo.refs.get name = none)
    {result : CheckpointResult} {repo : Repo}
    (hrun : (create g s.engine thread turn phase skipBytes).run s.repo = (.ok result, repo)) :
    result.commitOid.parent = (s.predecessor thread turn phase).or s.repo.head ↔
      (s.predecessor thread turn phase = none → s.engine.headOid = s.repo.head) := by
  obtain ⟨-, hparent, -, -⟩ := create_eq_ok hrun
  rw [hparent, h.follows_eq hvalid hgit hshadow]
  cases s.predecessor thread turn phase <;> simp

theorem logged_discover {repo : Repo} (h : repo.threadRefs thread = []) :
    (discover repo).Logged thread := by
  have hheld := Checkpoints.held_new h
  exact ⟨hheld, .nil, nofun, fun turn oid hget => nomatch hheld.created turn .final oid hget⟩

/-- A call that creates no checkpoint. -/
theorem Logged.of_step (h : s.Logged thread) {call : CheckpointCall} {checkpoints : Checkpoints}
    (hcall : ∀ engine turn phase skipBytes, call ≠ .create engine turn phase skipBytes)
    (hstep : s.checkpoints.step g thread call = some checkpoints) :
    Logged thread { s with checkpoints } :=
  ⟨Checkpoints.held_step h.held hstep, h.turns, h.bound, fun turn oid hget =>
    h.logged turn oid (Checkpoints.removed_step h.held hcall hstep hget)⟩

theorem Logged.create (h : s.Logged thread) {turn : UInt32} {phase : CheckpointPhase}
    {skipBytes : Nat} {checkpoints : Checkpoints} (hle : s.lastTurn ≤ turn.toNat)
    (hstep : s.checkpoints.step g thread (.create s.engine turn phase skipBytes) = some checkpoints) :
    Logged thread { s with
      checkpoints
      lastTurn := turn.toNat
      ends := s.ended turn.toNat phase
        ((Git.create g s.engine thread turn.toNat phase skipBytes).run s.repo).1 } := by
  have hheld := Checkpoints.held_step h.held hstep
  have hbound : ∀ e ∈ s.ends, e.1 ≤ turn.toNat := fun e he => (h.bound e he).trans hle
  rcases hrun : (Git.create g s.engine thread turn.toNat phase skipBytes).run s.repo with ⟨r, repo⟩
  have hrun' : (Git.create g s.engine thread turn.toNat phase skipBytes).run s.checkpoints.repo =
      (r, repo) := hrun
  simp only [Checkpoints.step, hrun'] at hstep
  cases r with
  | error e =>
    obtain rfl := Option.some.inj hstep
    have hended : s.ended turn.toNat phase (.error e) = s.ends := by cases phase <;> rfl
    rw [hended]
    refine ⟨hheld, h.turns, hbound, fun turn' oid hget => h.logged turn' oid ?_⟩
    change repo.refs.get _ = some oid at hget
    rwa [create_eq_error hrun] at hget
  | ok result =>
    obtain rfl := Option.some.inj hstep
    obtain ⟨-, -, hrefs, -⟩ := create_eq_ok hrun
    have hget : ∀ turn' oid, repo.unarchived thread turn' .final = some oid →
        turn' = turn.toNat ∧ phase = .final ∧ oid = result.commitOid ∨
          s.repo.unarchived thread turn' .final = some oid := by
      intro turn' oid hget
      rw [Repo.unarchived, hrefs, OrdMap.get_insert] at hget
      split_ifs at hget with hname
      · obtain ⟨rfl, rfl⟩ := turnRef_injective hname
        exact .inl ⟨rfl, rfl, (Option.some.inj hget).symm⟩
      · exact .inr hget
    cases phase with
    | start =>
      refine ⟨hheld, h.turns, hbound, fun turn' oid hget' => ?_⟩
      rcases hget turn' oid hget' with ⟨-, hphase, -⟩ | hget'
      · cases hphase
      · exact h.logged turn' oid hget'
    | final =>
      refine ⟨hheld, List.pairwise_cons.mpr ⟨hbound, h.turns⟩, ?_, fun turn' oid hget' => ?_⟩
      · exact List.forall_mem_cons.mpr ⟨Nat.le_refl _, hbound⟩
      · rcases hget turn' oid hget' with ⟨rfl, -, rfl⟩ | hget'
        · exact List.mem_cons_self
        · exact List.mem_cons_of_mem _ (h.logged turn' oid hget')

theorem logged_step {call : EngineCall} (h : s.Logged thread) (hstep : s.step g thread call = some t) :
    t.Logged thread := by
  cases call with
  | reopen =>
    obtain rfl := Option.some.inj hstep
    exact ⟨h.held, h.turns, h.bound, h.logged⟩
  | create turn phase skipBytes =>
    simp only [step] at hstep
    split_ifs at hstep with hle
    obtain ⟨checkpoints, hcheckpoints, rfl⟩ := Option.map_eq_some_iff.mp hstep
    exact h.create hle hcheckpoints
  | restore target policy skipBytes =>
    obtain ⟨checkpoints, hcheckpoints, rfl⟩ := Option.map_eq_some_iff.mp hstep
    exact h.of_step (by rintro _ _ _ _ ⟨⟩) hcheckpoints
  | archive refuses =>
    simp only [step] at hstep
    obtain ⟨checkpoints, hcheckpoints, rfl⟩ := Option.map_eq_some_iff.mp hstep
    exact h.of_step (by rintro _ _ _ _ ⟨⟩) hcheckpoints
  | outside repo =>
    obtain ⟨checkpoints, hcheckpoints, rfl⟩ := Option.map_eq_some_iff.mp hstep
    exact h.of_step (by rintro _ _ _ _ ⟨⟩) hcheckpoints

theorem create_enabled (g : Rules) (thread : String) (s : Ancestry) (turn : UInt32)
    (hle : s.lastTurn ≤ turn.toNat) (phase : CheckpointPhase) (skipBytes : Nat) :
    ∃ t, s.step g thread (.create turn phase skipBytes) = some t := by
  have hsome : ∃ t, s.checkpoints.step g thread (.create s.engine turn phase skipBytes) = some t := by
    simp only [Checkpoints.step]
    split <;> exact ⟨_, rfl⟩
  obtain ⟨t, ht⟩ := hsome
  simp only [step, if_pos hle, ht]
  exact ⟨_, rfl⟩

theorem repo_of_create {turn : UInt32} {phase : CheckpointPhase} {skipBytes : Nat}
    (hstep : s.step g thread (.create turn phase skipBytes) = some t) :
    t.repo = ((create g s.engine thread turn.toNat phase skipBytes).run s.repo).2 ∧
      t.engine = s.engine ∧ t.lastTurn = turn.toNat := by
  simp only [step] at hstep
  split_ifs at hstep
  obtain ⟨checkpoints, hcheckpoints, rfl⟩ := Option.map_eq_some_iff.mp hstep
  refine ⟨?_, rfl, rfl⟩
  change checkpoints.repo = ((create g s.engine thread turn.toNat phase skipBytes).run
    s.checkpoints.repo).2
  simp only [Checkpoints.step] at hcheckpoints
  split at hcheckpoints <;> obtain rfl := Option.some.inj hcheckpoints
  next hrun => rw [hrun]
  next hrun => rw [hrun]

/-- In every run of checkpoints with turns that do not go down, in which commits, branch moves,
restores and archives come in between, every checkpoint has its parent, if HEAD is where it was
when the engine was opened whenever a checkpoint has no other one to follow. -/
theorem parents_follow (g : Rules) (thread : String) (hvalid : validThread g thread = true)
    (hgit : FindsShadows g thread) (repo : Repo) (hnew : repo.threadRefs thread = [])
    (calls : List EngineCall)
    (hcurrent : Meets (step g thread) (HeadCurrent thread) (discover repo) calls) :
    Meets (step g thread) (Follows g thread) (discover repo) calls := by
  refine meets_of_meets (I := Logged thread) ?_ (fun s call t h _ hstep => logged_step h hstep)
    (logged_discover hnew) hcurrent
  intro s call t h hcall _
  cases call with
  | create turn phase skipBytes =>
    intro result repo hrun
    exact (h.parent_eq_iff hvalid hgit hcall.2 hrun).mpr hcall.1
  | reopen | restore | archive | outside => trivial

end Runs

/-! ## A commit after the engine was opened -/

/-- A repository with a commit and without files. -/
def committed (message : String) : Repo :=
  { Checkpoints.emptyRepo with head := some (.root .empty 0 message) }

/-- A commit moves HEAD before the first checkpoint. -/
def commitFirst : List EngineCall := [.outside (committed "second"), .create 1 .start 0]

theorem findsShadows_plainRules : FindsShadows plainRules "t1" := by
  intro head refs turn _
  change (if turnRef "t1" turn .start = "HEAD" then head else none) = none
  refine if_neg fun heq => ?_
  have hdir : inDir (threadDir "t1") "HEAD" = true := heq ▸ inDir_turnRef
  exact absurd hdir (by decide +kernel)

/-- The repository after the first checkpoint, -/
def started : Repo :=
  ((create plainRules ⟨(committed "first").head⟩ "t1" 1 .start 0).run (committed "first")).2

/-- and after a commit during the turn. -/
def startedMoved : Repo := { started with head := some (.root .empty 0 "second") }

/-- A commit moves HEAD between the checkpoints of a turn. -/
def commitBetween : List EngineCall := [.create 1 .start 0, .outside startedMoved, .create 1 .final 0]

theorem startedMoved_start : startedMoved.unarchived "t1" 1 .start ≠ none := by decide +kernel

theorem headCurrent_commitBetween :
    Meets (step plainRules "t1") (HeadCurrent "t1") (discover (committed "first")) commitBetween := by
  refine fun s _ => ⟨⟨fun _ => rfl, by rintro ⟨⟩⟩, fun t hmoved => ⟨trivial, fun u _ => ⟨?_, trivial⟩⟩⟩
  have hrepo : t.repo = startedMoved := by
    obtain ⟨checkpoints, hcheckpoints, rfl⟩ := Option.map_eq_some_iff.mp hmoved
    simp only [Checkpoints.step] at hcheckpoints
    split_ifs at hcheckpoints
    obtain rfl := Option.some.inj hcheckpoints
    rfl
  have hthere : t.repo.unarchived "t1" 1 .start ≠ none := hrepo ▸ startedMoved_start
  refine ⟨fun hnone => absurd (Option.or_eq_none_iff.mp hnone).1 hthere, fun _ hnone => ?_⟩
  exact absurd hnone hthere

/-- The end of the turn follows its start. -/
theorem parents_follow_committed :
    Meets (step plainRules "t1") (HeadCurrent "t1") (discover (committed "first")) commitBetween ∧
      Meets (step plainRules "t1") (Follows plainRules "t1") (discover (committed "first"))
        commitBetween ∧
      ∃ result t, (create plainRules ⟨(committed "first").head⟩ "t1" 1 .final 0).run startedMoved =
          (.ok result, t) ∧
        startedMoved.unarchived "t1" 1 .start ≠ none ∧
        result.commitOid.parent = startedMoved.unarchived "t1" 1 .start := by
  have hfollows := parents_follow plainRules "t1" (by decide +kernel) findsShadows_plainRules
    (committed "first") rfl commitBetween headCurrent_commitBetween
  have hst := Checkpoints.stagingOf_empty ⟨(committed "first").head⟩ (s := startedMoved) rfl
    (by decide +kernel) (by decide +kernel)
  obtain ⟨result, t, hrun⟩ : ∃ result t, (create plainRules ⟨(committed "first").head⟩ "t1" 1 .final
      0).run startedMoved = (.ok result, t) := create_run (by decide +kernel) hst (by decide +kernel)
  refine ⟨headCurrent_commitBetween, hfollows, result, t, hrun, startedMoved_start, ?_⟩
  obtain ⟨s, hs⟩ := create_enabled plainRules "t1" (discover (committed "first")) 1 (Nat.zero_le _)
    .start 0
  obtain ⟨hrepo, hengine, hlast⟩ := repo_of_create hs
  have hmoved : s.step plainRules "t1" (.outside startedMoved) =
      some { s with checkpoints := { s.checkpoints with repo := startedMoved } } := by
    have hrefs : startedMoved.threadRefs "t1" = s.checkpoints.repo.threadRefs "t1" := by
      rw [show s.checkpoints.repo = started from hrepo]
      rfl
    simp only [step, Checkpoints.step, if_pos hrefs, Option.map_some]
  obtain ⟨u, hu⟩ := create_enabled plainRules "t1"
    { s with checkpoints := { s.checkpoints with repo := startedMoved } } 1 hlast.le .final 0
  have hparent := (((hfollows s hs).2 _ hmoved).2 u hu).1 result t
    (by rw [← hrun, show s.engine = _ from hengine]; rfl)
  obtain ⟨oid, hoid⟩ := Option.ne_none_iff_exists'.mp startedMoved_start
  have hpredecessor : startedMoved.unarchived "t1" 1 .start = some oid := hoid
  rw [hparent, predecessor]
  change ((startedMoved.unarchived "t1" 1 .start).or _).or _ = _
  rw [hpredecessor]
  rfl

/-- The first checkpoint follows the commit that HEAD pointed at when the engine was opened. -/
theorem parent_outdated :
    ¬Meets (step plainRules "t1") (Follows plainRules "t1") (discover (committed "first"))
      commitFirst := by
  intro hmeets
  have hst := Checkpoints.stagingOf_empty ⟨(committed "first").head⟩ (s := committed "second") rfl rfl rfl
  obtain ⟨result, repo, hrun⟩ : ∃ result t, (create plainRules ⟨(committed "first").head⟩ "t1" 1 .start
      0).run (committed "second") = (.ok result, t) := create_run (by decide +kernel) hst rfl
  let moved : Ancestry := { discover (committed "first") with checkpoints := .new (committed "second") }
  have hcommit : (discover (committed "first")).step plainRules "t1" (.outside (committed "second")) =
      some moved := rfl
  have hmoved : moved.Logged "t1" := logged_step (logged_discover rfl) hcommit
  obtain ⟨t, hstep⟩ := create_enabled plainRules "t1" moved 1 (Nat.zero_le _) .start 0
  have hfollows := ((hmeets moved hcommit).2 t hstep).1 result repo hrun
  have hshadow : CheckpointPhase.start = .final → moved.repo.unarchived "t1" 1 .start = none →
      ∀ name ∈ shadows (turnRef "t1" 1 .start), moved.repo.refs.get name = none := by rintro ⟨⟩
  have hnone : moved.predecessor "t1" 1 .start = none := rfl
  have hhead := (hmoved.parent_eq_iff (by decide +kernel) findsShadows_plainRules hshadow hrun).mp
    hfollows hnone
  have hmessage : "first" = "second" := (Oid.root.inj (Option.some.inj hhead)).2.2
  exact absurd hmessage (by decide)

end Ancestry

end Tethys.Git
