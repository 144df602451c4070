import Tethys.Sync.Skills

/-!
# Skills of several workspaces

All workspaces share the table `skills_state`, and the id of a skill has its scope and its name
but not its workspace. Calls of different workspaces therefore meet in the rows of skills with
the same name. `reportsOf_eq_without` says what is left: as long as no call loads a row that a
call of another workspace recorded last, it is as if the calls of that workspace had not been
made.
-/

namespace Tethys.Sync

open Lib Schema

variable {Root Dir Hash : Type}

namespace SkillCall

def home : SkillCall Root Dir → SkillHome Root
  | .list home | .trust home _ _ | .setEnabled home _ _ _ | .updateCheck home _ _
  | .updateApply home _ _ _ | .install home _ _ _ _ _ _ => home

/-- The call is about skills of the workspace scope. A list shows both scopes. -/
def OnWorkspace : SkillCall Root Dir → Prop
  | .list _ => True
  | .trust _ scope _ | .setEnabled _ scope _ _ | .updateCheck _ scope _
  | .updateApply _ scope _ _ | .install _ scope _ _ _ _ _ => scope = .workspace

/-- The call, run as a whole. -/
def exec [DecidableEq Root] [Inhabited Dir] [DecidableEq Hash] (inspect : Dir → SkillFacts Hash) (call : SkillCall Root Dir)
    (w : SkillsWorld Root Dir Hash) :
    Except SkillError (List (SkillReport Root Dir Hash)) × SkillsWorld Root Dir Hash :=
  (call.program inspect).exec SkillsWorld.perform w

/-- The skills of the workspace scope whose rows the call loads. -/
def loadedNames (call : SkillCall Root Dir) (w : SkillsWorld Root Dir Hash) : List String :=
  match call with
  | .list home => w.discover home.root
  | .trust home _ name | .setEnabled home _ name _ | .updateCheck home _ name
  | .updateApply home _ name _ => if ((w.disk home.root).get name).isSome then [name] else []
  | .install .. => []

end SkillCall

/-- What a call says about skills of the workspace scope. -/
def visible (result : Except SkillError (List (SkillReport Root Dir Hash))) :
    Except SkillError (List (SkillInfo Root Hash)) :=
  result.map fun reports => (reports.map (·.info)).filter fun info => info.scope = .workspace

/-! ## Two runs -/

/-- Every row stands where its scope and name say. -/
def SkillsWorld.Keyed (w : SkillsWorld Root Dir Hash) : Prop :=
  ∀ id row, w.rows id = some row → row.Keyed id

/-- A world with the calls of one root and a world without them. They agree on the skills
directories of the other roots, and on the rows of workspace skills that the root did not record
last; the given names are among these. -/
structure Same (root : Root) (names : List String) (w w' : SkillsWorld Root Dir Hash) : Prop where
  disk : ∀ r, r ≠ root → w.disk r = w'.disk r
  rows : ∀ name, w.recordedBy (skillId .workspace name) ≠ some root →
    w.rows (skillId .workspace name) = w'.rows (skillId .workspace name)
  untouched : ∀ name ∈ names, w.recordedBy (skillId .workspace name) ≠ some root
  keyed : w.Keyed
  keyed' : w'.Keyed

namespace Same

variable {root : Root} {names : List String} {w w' : SkillsWorld Root Dir Hash}

theorem files [Inhabited Dir] (h : Same root names w w') {dir : Root × String} (hdir : dir.1 ≠ root) :
    w.files dir = w'.files dir := by
  rw [SkillsWorld.files, SkillsWorld.files, h.disk dir.1 hdir]

theorem discover (h : Same root names w w') {dir : Root} (hdir : dir ≠ root) :
    w.discover dir = w'.discover dir := by
  rw [SkillsWorld.discover, SkillsWorld.discover, h.disk dir hdir]

end Same

theorem SkillsWorld.Keyed.upsertSkill [DecidableEq Root] [Inhabited Dir] {w : SkillsWorld Root Dir Hash} (h : w.Keyed)
    {row : SkillRow Hash} (hrow : row.Keyed row.skillId) (r : Root) :
    (perform (.upsertSkill r row) w).2.Keyed := by
  intro id row' hget
  by_cases hid : id = row.skillId
  · subst hid
    obtain rfl : row = row' := by simpa [perform] using hget
    exact hrow
  · exact h id row' (by simpa [perform, Function.update_of_ne hid] using hget)

/-! ## What the calls do -/

/-- The answers that can come from a table in order. -/
def keyedAnswer : (op : SkillOp Root Hash Dir) → op.Res → Prop
  | .skill id, row => ∀ r, row = some r → r.Keyed id
  | .discover _, _ | .isDir _, _ | .inspect _ _, _ | .upsertSkill _ _, _ | .swapIntoPlace _ _, _ => True

section Load
variable [DecidableEq Hash] {inspect : Dir → SkillFacts Hash} {home : SkillHome Root} {scope : Scope} {name : String}
  {review : Bool} {next : SkillInfo Root Hash → Dir → SkillProgram Root Dir Hash}
  {allowed : SkillOp Root Hash Dir → Prop}
  {post : Except SkillError (List (SkillReport Root Dir Hash)) → Prop}

/-- Loading looks and records, and hands over the skill under its own name. -/
theorem within_loadOrRecord (hinspect : ∀ dir review, allowed (.inspect dir review))
    (hskill : ∀ id, allowed (.skill id))
    (hrecord : ∀ info : SkillInfo Root Hash, info.scope = scope →
      allowed (.upsertSkill home.root (.ofInfo info)))
    (hnext : ∀ info files, info.scope = scope → info.path = skillDir home scope name →
      (next info files).Within allowed keyedAnswer post) :
    (loadOrRecord inspect home scope name review next).Within allowed keyedAnswer post := by
  refine ⟨hinspect _ _, fun files _ => ⟨hskill _, fun row hrow => ?_⟩⟩
  obtain ⟨info, hinfo, hscope, -, hpath⟩ := exists_existing home (inspect files) hrow
  simp only [hinfo]
  split_ifs
  · exact ⟨hrecord _ hscope, fun _ _ => hnext _ files hscope hpath⟩
  · exact hnext info files hscope hpath

/-- The loop of `list`, with an invariant of the reports that are gathered. -/
theorem within_loads {names : List String} {byName : OrdMap String (SkillReport Root Dir Hash)}
    {after : OrdMap String (SkillReport Root Dir Hash) → SkillProgram Root Dir Hash}
    (inv : OrdMap String (SkillReport Root Dir Hash) → Prop)
    (hinspect : ∀ dir review, allowed (.inspect dir review))
    (hskill : ∀ id, allowed (.skill id))
    (hrecord : ∀ info : SkillInfo Root Hash, info.scope = scope →
      allowed (.upsertSkill home.root (.ofInfo info)))
    (hinsert : ∀ byName name info files, inv byName → byName.get name = none → info.scope = scope →
      inv (byName.insert name ⟨info, files⟩))
    (hafter : ∀ byName, inv byName → (after byName).Within allowed keyedAnswer post)
    (hbyName : inv byName) :
    (loads inspect home scope names byName after).Within allowed keyedAnswer post := by
  induction names generalizing byName with
  | nil => exact hafter byName hbyName
  | cons name names ih =>
    refine within_loadOrRecord hinspect hskill hrecord fun info files hscope _ => ih ?_
    split_ifs with hnone
    · exact hinsert byName name info files hbyName hnone hscope
    · exact hbyName

end Load

/-! ## The calls that are left out -/

/-- What a call of the root may do: it records under its name and puts skills in its directory. -/
def ownOp (root : Root) : SkillOp Root Hash Dir → Prop
  | .upsertSkill r row => r = root ∧ row.Keyed row.skillId
  | .swapIntoPlace destination _ => destination.1 = root
  | .discover _ | .isDir _ | .inspect _ _ | .skill _ => True

theorem same_ownOp [DecidableEq Root] [Inhabited Dir] {root : Root} {w' : SkillsWorld Root Dir Hash} (op : SkillOp Root Hash Dir)
    (w : SkillsWorld Root Dir Hash) (h : Same root [] w w') (hop : ownOp root op) :
    keyedAnswer op (SkillsWorld.perform op w).1 ∧ Same root [] (SkillsWorld.perform op w).2 w' := by
  obtain ⟨hdisk, hrows, huntouched, hkeyed, hkeyed'⟩ := h
  cases op with
  | discover dir => exact ⟨trivial, hdisk, hrows, huntouched, hkeyed, hkeyed'⟩
  | isDir dir => exact ⟨trivial, hdisk, hrows, huntouched, hkeyed, hkeyed'⟩
  | inspect dir review =>
    cases review <;> exact ⟨trivial, hdisk, hrows, huntouched, hkeyed, hkeyed'⟩
  | skill id => exact ⟨hkeyed id, hdisk, hrows, huntouched, hkeyed, hkeyed'⟩
  | upsertSkill r row =>
    obtain ⟨rfl, hrow⟩ := hop
    refine ⟨trivial, hdisk, fun name hne => ?_, by simp, hkeyed.upsertSkill hrow r, hkeyed'⟩
    by_cases hid : skillId .workspace name = row.skillId
    · simp [SkillsWorld.perform, hid] at hne
    · simp only [SkillsWorld.perform, Function.update_of_ne hid] at hne ⊢
      exact hrows name hne
  | swapIntoPlace destination source =>
    refine ⟨trivial, fun r hr => ?_, hrows, huntouched, hkeyed, hkeyed'⟩
    have hne : r ≠ destination.1 := fun heq => hr (heq.trans hop)
    simpa [SkillsWorld.perform, Function.update_of_ne hne] using hdisk r hr

section Own
variable {inspect : Dir → SkillFacts Hash} {home : SkillHome Root} {scope : Scope} {name : String}

theorem ownOp_record (info : SkillInfo Root Hash) :
    ownOp home.root (.upsertSkill home.root (.ofInfo info) : SkillOp Root Hash Dir) :=
  ⟨rfl, SkillRow.ofInfo_keyed info⟩

/-- The operations of a program are its root's own. -/
abbrev Own (root : Root) (p : SkillProgram Root Dir Hash) : Prop :=
  p.Within (ownOp root) keyedAnswer fun _ => True

theorem own_record {info : SkillInfo Root Hash} {next : SkillProgram Root Dir Hash}
    (h : Own home.root next) : Own home.root (record home.root info next) :=
  ⟨ownOp_record info, fun _ _ => h⟩

theorem own_install {explicitName found : Option String} {staged : Dir} {source : SkillSource}
    {pinnedSha : Option String} :
    Own home.root (install inspect home .workspace explicitName found staged source pinnedSha) := by
  unfold install
  split
  · trivial
  · split
    · trivial
    · exact ⟨rfl, fun _ _ => ⟨trivial, fun files _ => own_record trivial⟩⟩

variable [DecidableEq Hash]

theorem own_loadRequired {review : Bool}
    {next : SkillInfo Root Hash → Dir → SkillProgram Root Dir Hash}
    (hnext : ∀ info files, info.path = skillDir home scope name → Own home.root (next info files)) :
    Own home.root (loadRequired inspect home scope name review next) := by
  refine ⟨trivial, fun isDir _ => ?_⟩
  beta_reduce
  split_ifs
  · exact within_loadOrRecord (fun _ _ => trivial) (fun _ => trivial)
      (fun info _ => ownOp_record info) fun info files _ hpath => hnext info files hpath
  · trivial

theorem own_loads {names : List String} {byName : OrdMap String (SkillReport Root Dir Hash)}
    {after : OrdMap String (SkillReport Root Dir Hash) → SkillProgram Root Dir Hash}
    (hafter : ∀ byName, Own home.root (after byName)) :
    Own home.root (loads inspect home scope names byName after) :=
  within_loads (fun _ => True) (fun _ _ => trivial) (fun _ => trivial)
    (fun info _ => ownOp_record info) (fun _ _ _ _ _ _ _ => trivial) (fun byName _ => hafter byName)
    trivial

theorem own_list : Own home.root (list inspect home : SkillProgram Root Dir Hash) :=
  ⟨trivial, fun _ _ => own_loads fun _ => ⟨trivial, fun _ _ => own_loads fun _ => trivial⟩⟩

theorem own_updateApply {upstream : SkillSource → Except SkillError (String × Dir)} :
    Own home.root (updateApply inspect home .workspace name upstream) := by
  refine own_loadRequired fun info files hpath => ?_
  split
  · trivial
  · trivial
  · refine ⟨?_, fun _ _ => ⟨trivial, fun files _ => own_record trivial⟩⟩
    rw [ownOp, hpath]
    rfl

theorem own_program {call : SkillCall Root Dir} (h : call.OnWorkspace) :
    Own call.home.root (call.program inspect) := by
  cases call with
  | list home => exact own_list
  | trust home scope name => exact own_loadRequired fun _ _ _ => own_record trivial
  | setEnabled home scope name enabled => exact own_loadRequired fun _ _ _ => own_record trivial
  | updateCheck home scope name => exact own_loadRequired fun _ _ _ => trivial
  | updateApply home scope name upstream =>
    obtain rfl : scope = .workspace := h
    exact own_updateApply
  | install home scope explicitName found staged source pinnedSha =>
    obtain rfl : scope = .workspace := h
    exact own_install

/-- A call of the root is not seen by the others. -/
theorem same_exec_own [DecidableEq Root] [Inhabited Dir] {call : SkillCall Root Dir} {w w' : SkillsWorld Root Dir Hash}
    (hcall : call.OnWorkspace) (h : Same call.home.root [] w w') :
    Same call.home.root [] (call.exec inspect w).2 w' :=
  ((own_program hcall).exec same_ownOp h).2

end Own

/-! ## The calls that stay -/

/-- The loop over the global skills looks and records global rows. -/
def globalOp : SkillOp Root Hash Dir → Prop
  | .upsertSkill _ row => row.Keyed row.skillId ∧ ∃ name, row.skillId = skillId .global name
  | .swapIntoPlace _ _ => False
  | .discover _ | .isDir _ | .inspect _ _ | .skill _ => True

/-- What workspace skills depend on stayed. -/
structure KeepsWorkspace (w v : SkillsWorld Root Dir Hash) : Prop where
  disk : v.disk = w.disk
  rows : ∀ name, v.rows (skillId .workspace name) = w.rows (skillId .workspace name)
  recordedBy : ∀ name, v.recordedBy (skillId .workspace name) = w.recordedBy (skillId .workspace name)
  keyed : v.Keyed

theorem keepsWorkspace_globalOp [DecidableEq Root] [Inhabited Dir] {w : SkillsWorld Root Dir Hash} (op : SkillOp Root Hash Dir)
    (v : SkillsWorld Root Dir Hash) (h : KeepsWorkspace w v) (hop : globalOp op) :
    keyedAnswer op (SkillsWorld.perform op v).1 ∧ KeepsWorkspace w (SkillsWorld.perform op v).2 := by
  obtain ⟨hdisk, hrows, hrecorded, hkeyed⟩ := h
  cases op with
  | discover dir => exact ⟨trivial, hdisk, hrows, hrecorded, hkeyed⟩
  | isDir dir => exact ⟨trivial, hdisk, hrows, hrecorded, hkeyed⟩
  | inspect dir review => cases review <;> exact ⟨trivial, hdisk, hrows, hrecorded, hkeyed⟩
  | skill id => exact ⟨hkeyed id, hdisk, hrows, hrecorded, hkeyed⟩
  | swapIntoPlace destination source => exact hop.elim
  | upsertSkill r row =>
    obtain ⟨hrow, name, hid⟩ := hop
    have hne : ∀ name', skillId .workspace name' ≠ row.skillId := by
      intro name' heq
      exact absurd (skillId_inj (heq.trans hid)).1 (by decide)
    refine ⟨trivial, hdisk, fun name' => ?_, fun name' => ?_, hkeyed.upsertSkill hrow r⟩
    · simpa [SkillsWorld.perform, Function.update_of_ne (hne name')] using hrows name'
    · simpa [SkillsWorld.perform, Function.update_of_ne (hne name')] using hrecorded name'

theorem Same.keepsWorkspace {root : Root} {names : List String} {w w' v v' : SkillsWorld Root Dir Hash} (h : Same root names w w')
    (hv : KeepsWorkspace w v) (hv' : KeepsWorkspace w' v') : Same root names v v' where
  disk r hr := by rw [hv.disk, hv'.disk, h.disk r hr]
  rows name hne := by
    rw [hv.recordedBy] at hne
    rw [hv.rows, hv'.rows, h.rows name hne]
  untouched name hmem := by
    rw [hv.recordedBy]
    exact h.untouched name hmem
  keyed := hv.keyed
  keyed' := hv'.keyed

/-- The workspace skills among the gathered reports. -/
def shown (byName : OrdMap String (SkillReport Root Dir Hash)) : List (SkillInfo Root Hash) :=
  ((byName.entries.map Prod.snd).map (·.info)).filter fun info => info.scope = .workspace

theorem shown_insert_global {name : String} {byName : OrdMap String (SkillReport Root Dir Hash)}
    {info : SkillInfo Root Hash} {files : Dir} (hnone : byName.get name = none)
    (hscope : info.scope = .global) : shown (byName.insert name ⟨info, files⟩) = shown byName := by
  obtain ⟨before, after, hentries, hinsert⟩ := insertSorted_eq_append (v := ⟨info, files⟩) hnone
  have hins : (byName.insert name ⟨info, files⟩).entries = before ++ (name, ⟨info, files⟩) :: after :=
    hinsert
  simp [shown, hentries, hins, hscope]

theorem within_globalLoads [DecidableEq Hash] {inspect : Dir → SkillFacts Hash} {home : SkillHome Root}
    (byName : OrdMap String (SkillReport Root Dir Hash)) :
    Program.Within globalOp keyedAnswer (fun result => visible result = .ok (shown byName))
      (.call (.discover home.home) fun names =>
        loads inspect home .global names byName fun byName =>
        .ret (.ok (byName.entries.map Prod.snd)) : SkillProgram Root Dir Hash) := by
  refine ⟨trivial, fun names _ => ?_⟩
  refine within_loads (fun byName' => shown byName' = shown byName) (fun _ _ => trivial)
    (fun _ => trivial) ?_ ?_ ?_ rfl
  · exact fun info hscope => ⟨SkillRow.ofInfo_keyed info, info.name, by rw [← hscope]; rfl⟩
  · intro byName' name info files hshown hnone hscope
    rw [← hshown, shown_insert_global hnone hscope]
  · intro byName' hshown
    rw [← hshown]
    rfl

section Stay
variable [DecidableEq Root] [Inhabited Dir] {root : Root} {names : List String}

/-- Run in both worlds, the programs say the same about workspace skills and leave the worlds
alike. -/
def Agrees (root : Root) (names : List String) (p p' : SkillProgram Root Dir Hash) : Prop :=
  ∀ w w', Same root names w w' →
    visible (p.exec SkillsWorld.perform w).1 = visible (p'.exec SkillsWorld.perform w').1 ∧
      Same root names (p.exec SkillsWorld.perform w).2 (p'.exec SkillsWorld.perform w').2

theorem agrees_ret {result : Except SkillError (List (SkillReport Root Dir Hash))} :
    Agrees root names (.ret result) (.ret result) :=
  fun _ _ h => ⟨rfl, h⟩

/-- An operation with the same answer in both worlds. -/
theorem agrees_call {op : SkillOp Root Hash Dir} {next : op.Res → SkillProgram Root Dir Hash}
    (hop : ∀ w w', Same root names w w' →
      (SkillsWorld.perform op w).1 = (SkillsWorld.perform op w').1 ∧
        Same root names (SkillsWorld.perform op w).2 (SkillsWorld.perform op w').2)
    (hnext : ∀ r, Agrees root names (next r) (next r)) :
    Agrees root names (.call op next) (.call op next) := by
  intro w w' h
  obtain ⟨hanswer, hsame⟩ := hop w w' h
  simpa only [Program.exec, hanswer] using hnext _ _ _ hsame

theorem agrees_inspect {dir : Root × String} {review : Option String}
    {next : Dir → SkillProgram Root Dir Hash} (hdir : dir.1 ≠ root)
    (hnext : ∀ files, Agrees root names (next files) (next files)) :
    Agrees root names (.call (.inspect dir review) next) (.call (.inspect dir review) next) := by
  refine agrees_call (fun w w' h => ?_) hnext
  obtain ⟨hdisk, hrows, huntouched, hkeyed, hkeyed'⟩ := id h
  cases review <;> exact ⟨h.files hdir, hdisk, hrows, huntouched, hkeyed, hkeyed'⟩

theorem agrees_skill {name : String} {next : Option (SkillRow Hash) → SkillProgram Root Dir Hash}
    (hname : name ∈ names) (hnext : ∀ row, Agrees root names (next row) (next row)) :
    Agrees root names (.call (.skill (skillId .workspace name)) next)
      (.call (.skill (skillId .workspace name)) next) :=
  agrees_call (fun _ _ h => ⟨h.rows name (h.untouched name hname), h⟩) hnext

theorem agrees_record {r : Root} {info : SkillInfo Root Hash} {next : SkillProgram Root Dir Hash}
    (hr : r ≠ root) (hnext : Agrees root names next next) :
    Agrees root names (record r info next) (record r info next) := by
  refine agrees_call (fun w w' h => ⟨rfl, h.disk, fun name hne => ?_, fun name hmem => ?_, ?_, ?_⟩)
    fun _ => hnext
  · by_cases hid : skillId .workspace name = (SkillRow.ofInfo info).skillId
    · simp [SkillsWorld.perform, hid]
    · simp only [SkillsWorld.perform, Function.update_of_ne hid] at hne ⊢
      exact h.rows name hne
  · by_cases hid : skillId .workspace name = (SkillRow.ofInfo info).skillId
    · simpa [SkillsWorld.perform, hid] using hr
    · simpa [SkillsWorld.perform, Function.update_of_ne hid] using h.untouched name hmem
  · exact h.keyed.upsertSkill (SkillRow.ofInfo_keyed info) r
  · exact h.keyed'.upsertSkill (SkillRow.ofInfo_keyed info) r

theorem agrees_swapIntoPlace {destination : Root × String} {source : Dir}
    {next : Unit → SkillProgram Root Dir Hash} (hdir : destination.1 ≠ root)
    (hnext : Agrees root names (next ()) (next ())) :
    Agrees root names (.call (.swapIntoPlace destination source) next)
      (.call (.swapIntoPlace destination source) next) := by
  refine agrees_call (fun w w' h => ⟨rfl, fun r hr => ?_, h.rows, h.untouched, h.keyed, h.keyed'⟩)
    fun _ => hnext
  simp only [SkillsWorld.perform, h.disk destination.1 hdir]
  by_cases hr' : r = destination.1
  · simp [hr']
  · simpa [Function.update_of_ne hr'] using h.disk r hr

variable [DecidableEq Hash] {inspect : Dir → SkillFacts Hash} {home : SkillHome Root} {name : String}

theorem agrees_loadOrRecord {review : Bool}
    {next : SkillInfo Root Hash → Dir → SkillProgram Root Dir Hash} (hroot : home.root ≠ root)
    (hname : name ∈ names)
    (hnext : ∀ info files, info.path = skillDir home .workspace name →
      Agrees root names (next info files) (next info files)) :
    Agrees root names (loadOrRecord inspect home .workspace name review next)
      (loadOrRecord inspect home .workspace name review next) := by
  refine agrees_inspect hroot fun files => agrees_skill hname fun row => ?_
  split
  · exact agrees_ret
  · rename_i info hexisting
    have hpath := existing_path hexisting
    split_ifs
    · exact agrees_record hroot (hnext _ files hpath)
    · exact hnext info files hpath

/-- A skill is only loaded if its directory is there. -/
theorem loadRequired_agrees {review : Bool}
    {next : SkillInfo Root Hash → Dir → SkillProgram Root Dir Hash} (hroot : home.root ≠ root)
    {w w' : SkillsWorld Root Dir Hash} (h : Same root names w w')
    (hname : ((w.disk home.root).get name).isSome = true → name ∈ names)
    (hnext : ∀ info files, info.path = skillDir home .workspace name →
      Agrees root names (next info files) (next info files)) :
    let p := loadRequired inspect home .workspace name review next
    visible (p.exec SkillsWorld.perform w).1 = visible (p.exec SkillsWorld.perform w').1 ∧
      Same root names (p.exec SkillsWorld.perform w).2 (p.exec SkillsWorld.perform w').2 := by
  simp only [loadRequired, Program.exec, SkillsWorld.perform, skillDir, skillsDir,
    ← h.disk home.root hroot]
  by_cases hdir : ((w.disk home.root).get name).isSome = true
  · simp only [hdir, if_true]
    exact agrees_loadOrRecord hroot (hname hdir) hnext w w' h
  · simp only [hdir]
    exact ⟨rfl, h⟩

/-- The loop over the workspace skills, whose continuation may come to differ. -/
theorem agrees_loads {todo : List String} {byName : OrdMap String (SkillReport Root Dir Hash)}
    {after : OrdMap String (SkillReport Root Dir Hash) → SkillProgram Root Dir Hash}
    (hroot : home.root ≠ root) (htodo : ∀ name ∈ todo, name ∈ names)
    (hafter : ∀ byName, Agrees root names (after byName) (after byName)) :
    Agrees root names (loads inspect home .workspace todo byName after)
      (loads inspect home .workspace todo byName after) := by
  induction todo generalizing byName with
  | nil => exact hafter byName
  | cons name todo ih =>
    exact agrees_loadOrRecord hroot (htodo name (by simp)) fun info files _ =>
      ih fun name' hmem => htodo name' (List.mem_cons_of_mem _ hmem)

theorem agrees_globalLoads (byName : OrdMap String (SkillReport Root Dir Hash)) :
    let p : SkillProgram Root Dir Hash := .call (.discover home.home) fun names =>
      loads inspect home .global names byName fun byName => .ret (.ok (byName.entries.map Prod.snd))
    Agrees root names p p := by
  intro p w w' h
  obtain ⟨hresult, hkeeps⟩ := (within_globalLoads byName).exec keepsWorkspace_globalOp
    (⟨rfl, fun _ => rfl, fun _ => rfl, h.keyed⟩ : KeepsWorkspace w w)
  obtain ⟨hresult', hkeeps'⟩ := (within_globalLoads byName).exec keepsWorkspace_globalOp
    (⟨rfl, fun _ => rfl, fun _ => rfl, h.keyed'⟩ : KeepsWorkspace w' w')
  exact ⟨hresult.trans hresult'.symm, h.keepsWorkspace hkeeps hkeeps'⟩

theorem list_agrees {w w' : SkillsWorld Root Dir Hash} (hroot : home.root ≠ root)
    (h : Same root (w.discover home.root) w w') :
    let p : SkillProgram Root Dir Hash := list inspect home
    visible (p.exec SkillsWorld.perform w).1 = visible (p.exec SkillsWorld.perform w').1 ∧
      Same root (w.discover home.root) (p.exec SkillsWorld.perform w).2
        (p.exec SkillsWorld.perform w').2 := by
  simp only [list, Program.exec, SkillsWorld.perform, skillsDir, ← h.discover hroot]
  exact agrees_loads hroot (fun _ hmem => hmem) agrees_globalLoads w w' h

/-- A call of another root that loads no row which the root recorded last. -/
theorem exec_agrees {call : SkillCall Root Dir} {w w' : SkillsWorld Root Dir Hash}
    (hroot : call.home.root ≠ root) (hcall : call.OnWorkspace)
    (h : Same root (call.loadedNames w) w w') :
    visible (call.exec inspect w).1 = visible (call.exec inspect w').1 ∧
      Same root (call.loadedNames w) (call.exec inspect w).2 (call.exec inspect w').2 := by
  cases call with
  | list home => exact list_agrees hroot h
  | trust home scope name =>
    obtain rfl : scope = .workspace := hcall
    exact loadRequired_agrees hroot h (fun hdir => by simpa [SkillCall.loadedNames, SkillCall.home] using hdir)
      fun _ _ _ => agrees_record hroot agrees_ret
  | setEnabled home scope name enabled =>
    obtain rfl : scope = .workspace := hcall
    exact loadRequired_agrees hroot h (fun hdir => by simpa [SkillCall.loadedNames, SkillCall.home] using hdir)
      fun _ _ _ => agrees_record hroot agrees_ret
  | updateCheck home scope name =>
    obtain rfl : scope = .workspace := hcall
    exact loadRequired_agrees hroot h (fun hdir => by simpa [SkillCall.loadedNames, SkillCall.home] using hdir)
      fun _ _ _ => agrees_ret
  | updateApply home scope name upstream =>
    obtain rfl : scope = .workspace := hcall
    refine loadRequired_agrees hroot h (fun hdir => by simpa [SkillCall.loadedNames, SkillCall.home] using hdir)
      fun info _ hpath => ?_
    have hdir : info.path.1 ≠ root := by rwa [hpath]
    split
    · exact agrees_ret
    · exact agrees_ret
    · exact agrees_swapIntoPlace hdir (agrees_inspect hdir fun files =>
        agrees_record hroot agrees_ret)
  | install home scope explicitName found staged source pinnedSha =>
    obtain rfl : scope = .workspace := hcall
    have hagrees : Agrees root (SkillCall.loadedNames (.install home .workspace explicitName found
        staged source pinnedSha) w) (install inspect home .workspace explicitName found staged source pinnedSha)
        (install inspect home .workspace explicitName found staged source pinnedSha) := by
      unfold install
      split
      · exact agrees_ret
      · split
        · exact agrees_ret
        · exact agrees_swapIntoPlace hroot (agrees_inspect hroot fun files =>
            agrees_record hroot agrees_ret)
    exact hagrees w w' h

end Stay

/-! ## Histories -/

/-- A call is made, or the skills directory of a root changes. -/
inductive SkillEvent (Root Dir : Type) where
  | edit (root : Root) (dirs : OrdMap String Dir)
  | call (c : SkillCall Root Dir)

section Histories
variable [DecidableEq Root] [Inhabited Dir] [DecidableEq Hash] (inspect : Dir → SkillFacts Hash)

namespace SkillEvent

def apply (w : SkillsWorld Root Dir Hash) : SkillEvent Root Dir → SkillsWorld Root Dir Hash
  | .edit root dirs => { w with disk := Function.update w.disk root dirs }
  | .call c => (c.exec inspect w).2

/-- The event is a call of the root. -/
def isOf (root : Root) : SkillEvent Root Dir → Bool
  | .edit _ _ => false
  | .call c => c.home.root = root

def OnWorkspace : SkillEvent Root Dir → Prop
  | .edit _ _ => True
  | .call c => c.OnWorkspace

/-- A call of another root loads no row that a call of the root recorded last. -/
def Unshared (root : Root) (w : SkillsWorld Root Dir Hash) : SkillEvent Root Dir → Prop
  | .edit _ _ => True
  | .call c => c.home.root ≠ root →
    ∀ name ∈ c.loadedNames w, w.recordedBy (skillId .workspace name) ≠ some root

end SkillEvent

/-- What the calls of a root say about their workspace skills, call by call. -/
def reportsOf (root : Root) : SkillsWorld Root Dir Hash → List (SkillEvent Root Dir) →
    List (Except SkillError (List (SkillInfo Root Hash)))
  | _, [] => []
  | w, .edit r dirs :: events => reportsOf root ((SkillEvent.edit r dirs).apply inspect w) events
  | w, .call call :: events =>
    (if call.home.root = root then [visible (call.exec inspect w).1] else []) ++
      reportsOf root (call.exec inspect w).2 events

/-- The history without the calls of a root. -/
def without (root : Root) (events : List (SkillEvent Root Dir)) : List (SkillEvent Root Dir) :=
  events.filter fun event => !event.isOf root

variable {inspect}

theorem reportsOf_eq_of_same {A B : Root} (hne : A ≠ B) {w w' : SkillsWorld Root Dir Hash}
    (h : Same A [] w w') {events : List (SkillEvent Root Dir)}
    (hworkspace : ∀ event ∈ events, event.OnWorkspace)
    (hunshared : Meets (fun w event => some (event.apply inspect w)) (SkillEvent.Unshared A) w events) :
    reportsOf inspect B w events = reportsOf inspect B w' (without A events) := by
  induction events generalizing w w' with
  | nil => rfl
  | cons event events ih =>
    obtain ⟨hevent, hevents⟩ := List.forall_mem_cons.mp hworkspace
    obtain ⟨hok, hrest⟩ := hunshared _ rfl
    cases event with
    | edit r dirs =>
      refine ih ⟨fun r' hr' => ?_, h.rows, h.untouched, h.keyed, h.keyed'⟩ hevents hrest
      by_cases hr : r' = r
      · simp [SkillEvent.apply, hr]
      · simpa [SkillEvent.apply, Function.update_of_ne hr] using h.disk r' hr'
    | call call =>
      by_cases hroot : call.home.root = A
      · have hB : call.home.root ≠ B := fun heq => hne (hroot.symm.trans heq)
        have hsame : Same A [] (call.exec inspect w).2 w' := by
          subst hroot
          exact same_exec_own hevent h
        have hwithout : without A (.call call :: events) = without A events :=
          List.filter_cons_of_neg (by simp [SkillEvent.isOf, hroot])
        rw [hwithout, reportsOf, if_neg hB, List.nil_append]
        exact ih hsame hevents hrest
      · obtain ⟨hvisible, hsame⟩ := exec_agrees hroot hevent
          (⟨h.disk, h.rows, hok hroot, h.keyed, h.keyed'⟩ : Same A (call.loadedNames w) w w')
        have hsame : Same A [] (call.exec inspect w).2 (call.exec inspect w').2 :=
          ⟨hsame.disk, hsame.rows, by simp, hsame.keyed, hsame.keyed'⟩
        have hwithout : without A (.call call :: events) = .call call :: without A events :=
          List.filter_cons_of_pos (by simp [SkillEvent.isOf, hroot])
        rw [hwithout, reportsOf, reportsOf, hvisible]
        exact congrArg _ (ih hsame hevents hrest)

/-- As long as no call of another workspace loads a row that a call of `A` recorded last, the
calls of `B` say the same as without the calls of `A`. -/
theorem reportsOf_eq_without {A B : Root} (hne : A ≠ B) (events : List (SkillEvent Root Dir))
    (hworkspace : ∀ event ∈ events, event.OnWorkspace)
    (hunshared : Meets (fun w event => some (event.apply inspect w)) (SkillEvent.Unshared A)
      (.empty : SkillsWorld Root Dir Hash) events) :
    reportsOf inspect B .empty events = reportsOf inspect B .empty (without A events) := by
  have hkeyed : SkillsWorld.Keyed (.empty : SkillsWorld Root Dir Hash) := fun _ _ h => nomatch h
  exact reportsOf_eq_of_same hne ⟨fun _ _ => rfl, fun _ _ => rfl, by simp, hkeyed, hkeyed⟩
    hworkspace hunshared

instance (root : Root) (w : SkillsWorld Root Dir Hash) (event : SkillEvent Root Dir) :
    Decidable (event.Unshared root w) :=
  match event with
  | .edit _ _ => isTrue trivial
  | .call c => inferInstanceAs (Decidable (c.home.root ≠ root → ∀ name ∈ c.loadedNames w, _))

end Histories

/-- Two workspaces have a skill with these files, under these names; the first one trusts and
disables its own, and the second one lists. -/
def historyOf (name name' : String) : List (SkillEvent Nat SkillDir) :=
  let files : SkillDir := .single fileA ⟨ascii "x", false⟩
  [.edit 1 (.ofList [(name, files)]), .edit 2 (.ofList [(name', files)]),
    .call (.trust ⟨1, 0⟩ .workspace name), .call (.setEnabled ⟨1, 0⟩ .workspace name false),
    .call (.list ⟨2, 0⟩)]

/-- With different names the second workspace does not notice. -/
theorem names_apart_reports :
    reportsOf (inspect id) 2 .empty (historyOf "pdf" "csv") =
      reportsOf (inspect id) 2 .empty (without 1 (historyOf "pdf" "csv")) :=
  reportsOf_eq_without (by decide) _ (by simp [historyOf, SkillEvent.OnWorkspace, SkillCall.OnWorkspace])
    (by decide +kernel)

/-- With one name it does: the skill is reported as trusted and disabled. -/
theorem shared_name_interferes :
    ¬ ∀ events : List (SkillEvent Nat SkillDir), (∀ event ∈ events, event.OnWorkspace) →
      reportsOf (inspect id) 2 .empty events = reportsOf (inspect id) 2 .empty (without 1 events) := by
  intro h
  have hreports := h (historyOf "pdf" "pdf")
    (by simp [historyOf, SkillEvent.OnWorkspace, SkillCall.OnWorkspace])
  have hflags := congrArg (List.map fun report => report.toOption.map
    (List.map fun info => (info.trusted, info.enabled))) hreports
  revert hflags
  decide +kernel

end Tethys.Sync
