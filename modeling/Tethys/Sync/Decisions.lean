import Tethys.Sync.Review

/-!
# Decisions on skills

`set_enabled` decides whether a skill is in use. Trust, list and every refresh load the whole
row of a skill and write the whole row back, so that they also write the flag back as they read
it. `Decisions` runs the calls side by side and remembers, for each skill, the flag of the
latest `set_enabled` until an import or an update of the skill. `decisions_kept_iff` says when
the table keeps it.
-/

namespace Tethys.Sync

open Lib Schema

variable {Root Dir Hash : Type}

/-! ## Writes and what they mean -/

/-- What a write of a row is: the decision of a `set_enabled`, the end of an import or of an
update, or a row that is written back. -/
inductive RowWrite where
  | decides (enabled : Bool)
  | replaces
  | writesBack

/-- The last write of a `set_enabled` or of an update that succeeds, and the write of an import. -/
def SkillCall.rowWrite (call : SkillCall Root Dir) (last : Bool) : RowWrite :=
  match call with
  | .setEnabled _ _ _ enabled => if last then .decides enabled else .writesBack
  | .updateApply _ _ _ _ => if last then .replaces else .writesBack
  | .install _ _ _ _ _ _ _ => .replaces
  | .list _ | .trust _ _ _ | .updateCheck _ _ _ => .writesBack

/-- The call has nothing left to do, and has succeeded. -/
def succeeds : SkillProgram Root Dir Hash → Bool
  | .ret (.ok _) => true
  | .ret (.error _) | .call _ _ => false

/-- The flag of the row that a call read last. A row that is missing is read as enabled. -/
def flagRead : (op : SkillOp Root Hash Dir) → op.Res → Option Bool → Option Bool
  | .skill _, row, _ => some (match row with
    | some row => row.enabled
    | none => true)
  | .discover _, _, flag => flag
  | .isDir _, _, flag => flag
  | .inspect _ _, _, flag => flag
  | .upsertSkill _ _, _, flag => flag
  | .swapIntoPlace _ _, _, flag => flag

/-- The decisions in force after an operation. -/
def decided (call : SkillCall Root Dir) (inForce : String → Option Bool) :
    (op : SkillOp Root Hash Dir) → (op.Res → SkillProgram Root Dir Hash) → String → Option Bool
  | .upsertSkill _ row, next =>
    match call.rowWrite (succeeds (next ())) with
    | .decides enabled => Function.update inForce row.skillId (some enabled)
    | .replaces => Function.update inForce row.skillId none
    | .writesBack => inForce
  | _, _ => inForce

/-! ## Calls side by side -/

/-- The calls with the flag that each of them read last, and the flag of the latest
`set_enabled` of each skill. -/
structure Decisions (Root Dir Hash : Type) where
  machine : SkillMachine Root Dir Hash
  callers : List (SkillCall Root Dir × Option Bool)
  inForce : String → Option Bool

namespace Decisions

def new : Decisions Root Dir Hash := ⟨⟨.empty, []⟩, [], fun _ => none⟩

/-- Every flag that is in force is the one in the table. -/
def Kept (s : Decisions Root Dir Hash) : Prop :=
  ∀ id flag, s.inForce id = some flag →
    ∃ row, s.machine.shared.rows id = some row ∧ row.enabled = flag

/-- A call that writes a row back, while a decision on the skill is in force, has read the flag
that is in the table now. -/
def Fresh (s : Decisions Root Dir Hash) :
    Move (Root → OrdMap String Dir) (SkillCall Root Dir) → Prop
  | .step i => ∀ call flag root row next,
      s.machine.threads[i]? = some (.call (.upsertSkill root row) next) →
      s.callers[i]? = some (call, flag) → call.rowWrite (succeeds (next ())) = .writesBack →
      (s.inForce row.skillId).isSome = true →
      ∀ old, s.machine.shared.rows row.skillId = some old → flag = some old.enabled
  | _ => True

variable [DecidableEq Root] [Inhabited Dir] [DecidableEq Hash]

/-- The call at `i` performs its next operation. -/
def perform (s : Decisions Root Dir Hash) (i : Nat) (machine : SkillMachine Root Dir Hash) :
    Decisions Root Dir Hash :=
  match s.machine.threads[i]?, s.callers[i]? with
  | some (.call op next), some (call, flag) => {
      machine
      callers := s.callers.set i
        (call, flagRead op (SkillsWorld.perform op s.machine.shared).1 flag)
      inForce := decided call s.inForce op next }
  | _, _ => { s with machine }

variable (inspect : Dir → SkillFacts Hash)

def step (s : Decisions Root Dir Hash) (a : Move (Root → OrdMap String Dir) (SkillCall Root Dir)) :
    Option (Decisions Root Dir Hash) :=
  (skillStep inspect s.machine a).map fun machine =>
    match a with
    | .env _ => { s with machine }
    | .spawn call => { s with machine, callers := s.callers ++ [(call, none)] }
    | .step i => s.perform i machine

end Decisions

/-! ## A row is written back with the flag that was read -/

/-- A decision is written as it was made, and what is written back has the flag that was read. -/
def WritesFlag (call : SkillCall Root Dir) (flag : Option Bool) :
    (op : SkillOp Root Hash Dir) → (op.Res → SkillProgram Root Dir Hash) → Prop
  | .upsertSkill _ row, next =>
    match call.rowWrite (succeeds (next ())) with
    | .decides enabled => row.enabled = enabled
    | .replaces => True
    | .writesBack => flag = some row.enabled
  | _, _ => True

/-- The program writes back the flags that it reads, whatever it reads. -/
def Carries (call : SkillCall Root Dir) : Option Bool → SkillProgram Root Dir Hash → Prop
  | _, .ret _ => True
  | flag, .call op next =>
    WritesFlag call flag op next ∧ ∀ r, Carries call (flagRead op r flag) (next r)

section Carries
variable {call : SkillCall Root Dir} {flag : Option Bool} {next : SkillProgram Root Dir Hash}
  {info : SkillInfo Root Hash}

theorem carries_record {root : Root} (info : SkillInfo Root Hash)
    (hback : call.rowWrite (succeeds next) = .writesBack)
    (hnext : Carries call (some info.enabled) next) :
    Carries call (some info.enabled) (record root info next) := by
  refine ⟨?_, fun _ => hnext⟩
  simp only [WritesFlag, hback]
  rfl

variable [DecidableEq Hash] {inspect : Dir → SkillFacts Hash} {home : SkillHome Root}
  {scope : Scope} {name : String}

/-- A row that is loaded has the flag that was read. -/
theorem existing_enabled {facts : SkillFacts Hash} {row : Option (SkillRow Hash)}
    (h : existing home scope name facts row = .ok info) :
    flagRead (.skill (skillId scope name) : SkillOp Root Hash Dir) row flag =
      some info.enabled := by
  cases row with
  | none =>
    obtain rfl := Except.ok.inj h
    rfl
  | some row =>
    simp only [existing, infoFromRow] at h
    split at h
    · cases h
    · obtain rfl := Except.ok.inj h
      rfl

theorem carries_loadOrRecord {review : Bool}
    {next : SkillInfo Root Hash → Dir → SkillProgram Root Dir Hash}
    (hback : ∀ info files, call.rowWrite (succeeds (next info files)) = .writesBack)
    (hnext : ∀ info files, Carries call (some info.enabled) (next info files)) :
    Carries call flag (loadOrRecord inspect home scope name review next) := by
  refine ⟨trivial, fun files => ⟨trivial, fun row => ?_⟩⟩
  beta_reduce
  cases hexisting : existing home scope name (inspect files) row with
  | error e => trivial
  | ok info =>
    rw [existing_enabled hexisting]
    dsimp only
    split_ifs with hchanged
    · exact carries_record _ (hback _ _) (hnext (refreshed (inspect files) info) files)
    · exact hnext info files

theorem carries_loadRequired {review : Bool}
    {next : SkillInfo Root Hash → Dir → SkillProgram Root Dir Hash}
    (hback : ∀ info files, call.rowWrite (succeeds (next info files)) = .writesBack)
    (hnext : ∀ info files, Carries call (some info.enabled) (next info files)) :
    Carries call flag (loadRequired inspect home scope name review next) := by
  refine ⟨trivial, fun isDir => ?_⟩
  beta_reduce
  split_ifs
  · exact carries_loadOrRecord hback hnext
  · trivial

/-- The loop of `list`, by induction on the names that are left. -/
theorem carries_loads {names : List String} {byName : OrdMap String (SkillReport Root Dir Hash)}
    {next : OrdMap String (SkillReport Root Dir Hash) → SkillProgram Root Dir Hash}
    (hback : ∀ last, call.rowWrite last = .writesBack)
    (hnext : ∀ flag byName, Carries call flag (next byName)) :
    Carries call flag (loads inspect home scope names byName next) := by
  induction names generalizing flag byName with
  | nil => exact hnext flag byName
  | cons name names ih => exact carries_loadOrRecord (fun _ _ => hback _) fun _ _ => ih

theorem carries_list (hback : ∀ last, call.rowWrite last = .writesBack) :
    Carries call flag (list inspect home) := by
  refine ⟨trivial, fun names => carries_loads hback fun flag byName => ?_⟩
  exact ⟨trivial, fun names => carries_loads hback fun _ _ => trivial⟩

theorem carries_program (call : SkillCall Root Dir) :
    Carries call flag (call.program inspect) := by
  cases call with
  | list home => exact carries_list fun _ => rfl
  | trust home scope name =>
    exact carries_loadRequired (fun _ _ => rfl) fun info files =>
      carries_record { info with trusted := true } rfl trivial
  | setEnabled home scope name enabled =>
    exact carries_loadRequired (fun _ _ => rfl) fun info files => ⟨rfl, fun _ => trivial⟩
  | updateCheck home scope name => exact carries_loadRequired (fun _ _ => rfl) fun _ _ => trivial
  | updateApply home scope name upstream =>
    refine carries_loadRequired (fun info files => ?_) fun info files => ?_ <;> split
    · rfl
    · rfl
    · rfl
    · trivial
    · trivial
    · exact ⟨trivial, fun _ => ⟨trivial, fun _ => ⟨trivial, fun _ => trivial⟩⟩⟩
  | install home scope explicitName found staged source pinnedSha =>
    change Carries _ flag (install inspect home scope explicitName found staged source pinnedSha)
    unfold install
    split
    · trivial
    · split
      · trivial
      · exact ⟨trivial, fun _ => ⟨trivial, fun _ => ⟨trivial, fun _ => trivial⟩⟩⟩

end Carries

/-! ## Runs -/

namespace Decisions

section Runs
variable [DecidableEq Root] [Inhabited Dir] [DecidableEq Hash] {inspect : Dir → SkillFacts Hash}
  {s t : Decisions Root Dir Hash} {a : Move (Root → OrdMap String Dir) (SkillCall Root Dir)}

/-- Every call on its way writes back the flag that it read last. -/
structure Carried (s : Decisions Root Dir Hash) : Prop where
  length : s.callers.length = s.machine.threads.length
  carries : ∀ (i : Nat) call flag p, s.callers[i]? = some (call, flag) →
    s.machine.threads[i]? = some p → Carries call flag p

omit [DecidableEq Root] [Inhabited Dir] [DecidableEq Hash] in
theorem Carried.caller (h : s.Carried) {i : Nat} {p : SkillProgram Root Dir Hash}
    (hget : s.machine.threads[i]? = some p) : ∃ call flag, s.callers[i]? = some (call, flag) := by
  obtain ⟨hlt, -⟩ := List.getElem?_eq_some_iff.mp hget
  exact ⟨_, _, List.getElem?_eq_getElem (h.length ▸ hlt)⟩

theorem step_cases (h : s.step inspect a = some t) :
    (∃ disk, a = .env disk ∧
      t = { s with machine := { s.machine with shared := s.machine.shared.edit disk } }) ∨
    (∃ call, a = .spawn call ∧ t = { s with
      machine := { s.machine with threads := s.machine.threads ++ [call.program inspect] },
      callers := s.callers ++ [(call, none)] }) ∨
    ∃ i op next, a = .step i ∧ s.machine.threads[i]? = some (.call op next) ∧
      t = s.perform i ⟨(SkillsWorld.perform op s.machine.shared).2,
        s.machine.threads.set i (next (SkillsWorld.perform op s.machine.shared).1)⟩ := by
  obtain ⟨machine, hmachine, rfl⟩ := Option.map_eq_some_iff.mp h
  cases a with
  | env disk =>
    obtain rfl := Option.some.inj hmachine
    exact .inl ⟨disk, rfl, rfl⟩
  | spawn call =>
    obtain rfl := Option.some.inj hmachine
    exact .inr (.inl ⟨call, rfl, rfl⟩)
  | step i =>
    simp only [skillStep, Machine.step] at hmachine
    split at hmachine
    · next op next hget =>
      obtain rfl := Option.some.inj hmachine
      exact .inr (.inr ⟨i, op, next, rfl, hget, rfl⟩)
    · cases hmachine

omit [DecidableEq Hash] in
/-- A step of a call, with the flag that it has read. -/
theorem perform_eq {i : Nat} {op : SkillOp Root Hash Dir} {next : op.Res → SkillProgram Root Dir Hash}
    {call : SkillCall Root Dir} {flag : Option Bool} (machine : SkillMachine Root Dir Hash)
    (hget : s.machine.threads[i]? = some (.call op next)) (hcaller : s.callers[i]? = some (call, flag)) :
    s.perform i machine = {
      machine
      callers := s.callers.set i
        (call, flagRead op (SkillsWorld.perform op s.machine.shared).1 flag)
      inForce := decided call s.inForce op next } := by
  simp only [perform, hget, hcaller]

theorem Carried.step (h : s.Carried) (hstep : s.step inspect a = some t) : t.Carried := by
  obtain ⟨disk, -, rfl⟩ | ⟨call, -, rfl⟩ | ⟨i, op, next, -, hget, rfl⟩ := step_cases hstep
  · exact ⟨h.length, h.carries⟩
  · refine ⟨by simp [h.length], fun i call' flag p hcaller hp => ?_⟩
    rcases Nat.lt_or_ge i s.callers.length with hlt | hge
    · rw [List.getElem?_append_left hlt] at hcaller
      rw [List.getElem?_append_left (h.length ▸ hlt)] at hp
      exact h.carries i call' flag p hcaller hp
    · rw [List.getElem?_append_right hge] at hcaller
      rw [List.getElem?_append_right (h.length ▸ hge), ← h.length] at hp
      rw [List.getElem?_singleton] at hcaller hp
      split_ifs at hcaller hp
      obtain ⟨rfl, rfl⟩ := Prod.mk.inj (Option.some.inj hcaller)
      obtain rfl := Option.some.inj hp
      exact carries_program _
  · obtain ⟨call, flag, hcaller⟩ := h.caller hget
    rw [perform_eq _ hget hcaller]
    refine ⟨by simp [h.length], fun j call' flag' p hcaller' hp => ?_⟩
    by_cases hij : i = j
    · subst hij
      obtain ⟨hlt, -⟩ := List.getElem?_eq_some_iff.mp hget
      obtain ⟨hlt', -⟩ := List.getElem?_eq_some_iff.mp hcaller
      rw [List.getElem?_set_self hlt'] at hcaller'
      rw [List.getElem?_set_self hlt] at hp
      obtain ⟨rfl, rfl⟩ := Prod.mk.inj (Option.some.inj hcaller')
      obtain rfl := Option.some.inj hp
      exact (h.carries i _ flag _ hcaller hget).2 _
    · simp only [List.getElem?_set_ne hij] at hcaller' hp
      exact h.carries j call' flag' p hcaller' hp

omit [DecidableEq Root] [Inhabited Dir] [DecidableEq Hash] in
/-- A step that leaves the rows alone. -/
theorem kept_of_rows (h : s.Kept) (hrows : t.machine.shared.rows = s.machine.shared.rows)
    (hforce : t.inForce = s.inForce) : t.Kept := by
  intro id flag hflag
  rw [hrows]
  exact h id flag (hforce ▸ hflag)

omit [DecidableEq Root] [Inhabited Dir] [DecidableEq Hash] in
/-- A step that writes a row keeps the decisions on other skills, and the one on its own if the
row has it. -/
theorem kept_write (row : SkillRow Hash) (h : s.Kept)
    (hrows : t.machine.shared.rows =
      Function.update s.machine.shared.rows row.skillId (some row))
    (hforce : ∀ id ≠ row.skillId, t.inForce id = s.inForce id) :
    t.Kept ↔ ∀ flag, t.inForce row.skillId = some flag → row.enabled = flag := by
  constructor
  · intro hkept flag hflag
    obtain ⟨row', hrow', henabled⟩ := hkept row.skillId flag hflag
    rw [hrows, Function.update_self] at hrow'
    rw [Option.some.inj hrow', henabled]
  · intro hown id flag hflag
    rw [hrows]
    by_cases hid : id = row.skillId
    · subst hid
      exact ⟨row, Function.update_self .., hown flag hflag⟩
    · rw [Function.update_of_ne hid]
      exact h id flag (hforce id hid ▸ hflag)

/-- A step keeps the decisions exactly when it is fresh. -/
theorem kept_step (hcarried : s.Carried) (hkept : s.Kept) (hstep : s.step inspect a = some t) :
    t.Kept ↔ s.Fresh a := by
  obtain ⟨disk, rfl, rfl⟩ | ⟨call, rfl, rfl⟩ | ⟨i, op, next, rfl, hget, rfl⟩ := step_cases hstep
  · exact iff_of_true (kept_of_rows hkept rfl rfl) trivial
  · exact iff_of_true (kept_of_rows hkept rfl rfl) trivial
  obtain ⟨call, flag, hcaller⟩ := hcarried.caller hget
  have hcarries := (hcarried.carries i call flag _ hcaller hget).1
  rw [perform_eq _ hget hcaller]
  cases op with
  | discover dir | isDir dir | skill id | swapIntoPlace destination source =>
    refine iff_of_true (kept_of_rows hkept rfl rfl) ?_
    intro _ _ _ _ _ hget'
    cases hget.symm.trans hget'
  | inspect dir review =>
    refine iff_of_true (kept_of_rows hkept ?_ rfl) ?_
    · cases review <;> rfl
    · intro _ _ _ _ _ hget'
      cases hget.symm.trans hget'
  | upsertSkill root row =>
    have hfresh : s.Fresh (.step i) ↔ (call.rowWrite (succeeds (next ())) = .writesBack →
        (s.inForce row.skillId).isSome = true →
        ∀ old, s.machine.shared.rows row.skillId = some old → flag = some old.enabled) := by
      refine ⟨fun h => h call flag root row next hget hcaller, ?_⟩
      intro h call' flag' root' row' next' hget' hcaller'
      obtain ⟨rfl, rfl⟩ := Prod.mk.inj (Option.some.inj (hcaller.symm.trans hcaller'))
      cases hget.symm.trans hget'
      exact h
    rw [hfresh, kept_write row hkept rfl]
    · cases hwrite : call.rowWrite (succeeds (next ())) with
      | decides enabled =>
        refine iff_of_true (fun flag' hflag' => ?_) nofun
        simp only [WritesFlag, hwrite] at hcarries
        simpa [decided, hwrite, hcarries] using hflag'
      | replaces =>
        refine iff_of_true (fun flag' hflag' => ?_) nofun
        simp [decided, hwrite] at hflag'
      | writesBack =>
        -- the row that is written has the flag that was read
        simp only [WritesFlag, hwrite] at hcarries
        subst hcarries
        simp only [decided, hwrite, forall_const]
        constructor
        · intro hown hsome old hold
          obtain ⟨flag, hflag⟩ := Option.isSome_iff_exists.mp hsome
          obtain ⟨row', hrow', henabled⟩ := hkept row.skillId flag hflag
          obtain rfl : old = row' := Option.some.inj (hold.symm.trans hrow')
          rw [henabled, hown flag hflag]
        · intro hold flag hflag
          obtain ⟨row', hrow', henabled⟩ := hkept row.skillId flag hflag
          rw [← henabled]
          exact Option.some.inj (hold (by rw [hflag]; rfl) row' hrow')
    · intro id hid
      cases hwrite : call.rowWrite (succeeds (next ())) <;>
        simp [decided, hwrite, Function.update_of_ne hid]

/-- In every state of a run, the latest decision on each skill is the one in the table, until
an import or an update of the skill, if and only if every row that is written back in the run
was read with the flag that the table has at that time. -/
theorem decisions_kept_iff (inspect : Dir → SkillFacts Hash)
    (as : List (Move (Root → OrdMap String Dir) (SkillCall Root Dir))) :
    Always (step inspect) Kept (new : Decisions Root Dir Hash) as ↔
      Meets (step inspect) Fresh (new : Decisions Root Dir Hash) as := by
  have hnew : (new : Decisions Root Dir Hash).Carried ∧ (new : Decisions Root Dir Hash).Kept :=
    ⟨⟨rfl, fun i call flag p hcaller => by simp [new] at hcaller⟩,
      fun id flag hflag => by simp [new] at hflag⟩
  refine always_iff_meets (I := fun s => s.Carried ∧ s.Kept) (fun s h => h.2) ?_ ?_ hnew
  · intro s a t ⟨hcarried, hkept⟩ hfresh hstep
    exact ⟨hcarried.step hstep, (kept_step hcarried hkept hstep).mpr hfresh⟩
  · intro s a t ⟨hcarried, hkept⟩ hstep hafter
    exact (kept_step hcarried hkept hstep).mp hafter

end Runs

/-! ## A trust call that writes a decision over -/

/-- A trust call reads the row, a `set_enabled` turns the skill off, and the trust call writes
the row. -/
def trustAfterDisable : List (Move (Unit → OrdMap String Nat) (SkillCall Unit Nat)) :=
  [.env fun _ => .ofList [("pdf", 7)], .spawn (.trust ⟨(), ()⟩ .workspace "pdf"),
    .spawn (.setEnabled ⟨(), ()⟩ .workspace "pdf" false), .step 0, .step 0, .step 0,
    .step 1, .step 1, .step 1, .step 1, .step 0]

/-- The `set_enabled` is acknowledged, and the skill is enabled afterwards. -/
theorem decision_reverted :
    ∃ s : Decisions Unit Nat Nat,
      run (step fun files => ⟨files, true⟩) new trustAfterDisable = some s ∧
      s.inForce "workspace:pdf" = some false ∧
      (s.machine.shared.rows "workspace:pdf").map SkillRow.enabled = some true ∧ ¬ s.Kept := by
  refine ⟨_, rfl, rfl, rfl, fun hkept => ?_⟩
  obtain ⟨row, hrow, henabled⟩ := hkept "workspace:pdf" false rfl
  obtain rfl := Option.some.inj hrow
  cases henabled

end Decisions

end Tethys.Sync
