import Tethys.Sync.Skills

/-!
# Trust follows content

The calls of the skill library run side by side, and the skills directories change at any time.
A row that carries a trusted hash carries one that a trust call inspected for the same skill
id, and every program on its way keeps it so. From this: a skill that is reported as trusted
has files with a digest that a trust call inspected.
-/

namespace Tethys.Sync

open Lib Schema

variable {Root Dir Hash : Type} (inspect : Dir → SkillFacts Hash)

/-- A trust call for the skill inspected files with this digest. -/
def Reviewed (w : SkillsWorld Root Dir Hash) (id : String) (hash : Hash) : Prop :=
  ∃ files, (id, files) ∈ w.reviewed ∧ (inspect files).contentHash = hash

/-- What has an upstream repository was installed, under a name that was checked. -/
def Named (source : SkillSource) (name : String) : Prop :=
  source.repo.isSome = true → validateName name = .ok ()

/-- The row stands where its scope and name say, and its trust was given. -/
structure RowOk (w : SkillsWorld Root Dir Hash) (id : String) (row : SkillRow Hash) : Prop where
  keyed : row.Keyed id
  named : Named row.source row.name
  reviewed : ∀ hash, row.trustedHash = some hash → Reviewed inspect w id hash

def TableOk (w : SkillsWorld Root Dir Hash) : Prop :=
  ∀ id row, w.rows id = some row → RowOk inspect w id row

/-- What a call may say of a skill. -/
structure InfoOk (w : SkillsWorld Root Dir Hash) (info : SkillInfo Root Hash) (files : Dir) : Prop where
  named : Named info.source info.name
  contentHash : info.contentHash = (inspect files).contentHash
  reviewed : info.trusted = true → Reviewed inspect w (skillId info.scope info.name) info.contentHash

/-- Reviews are never taken back. -/
def Later (w w' : SkillsWorld Root Dir Hash) : Prop := w.reviewed ⊆ w'.reviewed

def ReportsOk (w : SkillsWorld Root Dir Hash) :
    Except SkillError (List (SkillReport Root Dir Hash)) → Prop
  | .ok reports => ∀ report ∈ reports, InfoOk inspect w report.info report.files
  | .error _ => True

variable {inspect} {w w' : SkillsWorld Root Dir Hash} {id : String} {info : SkillInfo Root Hash}
  {files : Dir} {hash : Hash}

theorem Later.refl (w : SkillsWorld Root Dir Hash) : Later w w := fun _ h => h

theorem Later.trans {w'' : SkillsWorld Root Dir Hash} (h : Later w w') (h' : Later w' w'') :
    Later w w'' :=
  fun _ hmem => h' (h hmem)

theorem Reviewed.mono (h : Reviewed inspect w id hash) (hle : Later w w') :
    Reviewed inspect w' id hash := by
  obtain ⟨files, hmem, heq⟩ := h
  exact ⟨files, hle hmem, heq⟩

theorem InfoOk.mono (h : InfoOk inspect w info files) (hle : Later w w') :
    InfoOk inspect w' info files :=
  ⟨h.named, h.contentHash, fun ht => (h.reviewed ht).mono hle⟩

theorem ReportsOk.mono {result : Except SkillError (List (SkillReport Root Dir Hash))}
    (h : ReportsOk inspect w result) (hle : Later w w') : ReportsOk inspect w' result := by
  cases result with
  | error e => trivial
  | ok reports => exact fun report hmem => (h report hmem).mono hle

/-- The table only asks for reviews. -/
theorem TableOk.mono (h : TableOk inspect w) (hrows : w'.rows = w.rows) (hle : Later w w') :
    TableOk inspect w' := by
  intro id row hrow
  rw [hrows] at hrow
  obtain ⟨hkeyed, hnamed, hreviewed⟩ := h id row hrow
  exact ⟨hkeyed, hnamed, fun hash ht => (hreviewed hash ht).mono hle⟩

theorem InfoOk.rowOk (h : InfoOk inspect w info files) :
    RowOk inspect w (skillId info.scope info.name) (.ofInfo info) := by
  refine ⟨SkillRow.ofInfo_keyed info, h.named, ?_⟩
  intro hash hsome
  simp only [SkillRow.ofInfo, Option.ite_none_right_eq_some, Option.some.injEq] at hsome
  obtain ⟨ht, rfl⟩ := hsome
  exact h.reviewed ht

/-- What is known of a skill, if its digest is the one of the files. -/
theorem infoOk_of_existing [DecidableEq Hash] {home : SkillHome Root} {scope : Scope} {name : String}
    {row : Option (SkillRow Hash)} (hrow : ∀ r, row = some r → RowOk inspect w (skillId scope name) r)
    (h : existing home scope name (inspect files) row = .ok info) :
    info.scope = scope ∧ info.name = name ∧ Named info.source info.name ∧
      (info.contentHash = (inspect files).contentHash → InfoOk inspect w info files) := by
  cases row with
  | none =>
    obtain rfl := Except.ok.inj h
    have hnamed : Named { origin := .folder } name := fun h => nomatch h
    exact ⟨rfl, rfl, hnamed, fun hcontent => ⟨hnamed, hcontent, fun ht => nomatch ht⟩⟩
  | some row =>
    obtain ⟨hkeyed, hnamed, hreviewed⟩ := hrow row rfl
    obtain ⟨info', hinfo, hscope, hname, -⟩ := exists_infoFromRow hkeyed (skillDir home scope name)
    obtain rfl : info' = info := Except.ok.inj (hinfo.symm.trans h)
    simp only [infoFromRow] at hinfo
    split at hinfo
    · cases hinfo
    · obtain rfl := Except.ok.inj hinfo
      refine ⟨hscope, hname, hnamed, fun hcontent => ⟨hnamed, hcontent, fun ht => ?_⟩⟩
      rw [hscope, hname]
      exact hreviewed _ (of_decide_eq_true ht)

/-! ## Every call is safe -/

section Safe
variable [DecidableEq Root] [Inhabited Dir]

variable (inspect) in
/-- The program keeps the table in order, whatever the others do. -/
abbrev Keeps (w : SkillsWorld Root Dir Hash) (p : SkillProgram Root Dir Hash) : Prop :=
  p.Safe SkillsWorld.perform (TableOk inspect) Later (ReportsOk inspect) w

variable {next : SkillProgram Root Dir Hash}

theorem keeps_record {root : Root} (h : InfoOk inspect w info files)
    (hnext : ∀ w', Later w w' → Keeps inspect w' next) :
    Keeps inspect w (record root info next) := by
  intro w' hle hok
  let after := (SkillsWorld.perform (.upsertSkill root (.ofInfo info)) w').2
  have hafter : Later w' after := Later.refl w'
  refine ⟨?_, hafter, hnext after hle⟩
  intro id row hrow
  by_cases hid : id = skillId info.scope info.name
  · subst hid
    obtain rfl : row = .ofInfo info := by simpa [after, SkillsWorld.perform, SkillRow.ofInfo] using hrow.symm
    exact (h.mono (hle.trans hafter)).rowOk
  · have hrow : w'.rows id = some row := by
      simpa [after, SkillsWorld.perform, SkillRow.ofInfo, Function.update_of_ne hid] using hrow
    obtain ⟨hkeyed, hnamed, hreviewed⟩ := hok id row hrow
    exact ⟨hkeyed, hnamed, hreviewed⟩

/-- Recording a skill and reporting it. -/
theorem keeps_report {root : Root} (h : InfoOk inspect w info files) :
    Keeps inspect w (record root info (.ret (.ok [⟨info, files⟩]))) := by
  refine keeps_record h fun w' hle report hmem => ?_
  obtain rfl := List.mem_singleton.mp hmem
  exact h.mono hle

/-- Steps that look at the directories or put one in place leave the table alone. -/
theorem keeps_swapIntoPlace {destination : Root × String} {source : Dir}
    {next : Unit → SkillProgram Root Dir Hash}
    (hnext : ∀ w', Later w w' → Keeps inspect w' (next ())) :
    Keeps inspect w (.call (.swapIntoPlace destination source) next) := by
  intro w' hle hok
  have hafter : Later w' (SkillsWorld.perform (.swapIntoPlace destination source) w').2 :=
    Later.refl w'
  exact ⟨hok.mono rfl hafter, hafter, hnext _ (hle.trans hafter)⟩

theorem keeps_inspect {dir : Root × String} {review : Option String}
    {next : Dir → SkillProgram Root Dir Hash}
    (hnext : ∀ w' files, Later w w' → (∀ id, review = some id → (id, files) ∈ w'.reviewed) →
      Keeps inspect w' (next files)) :
    Keeps inspect w (.call (.inspect dir review) next) := by
  intro w' hle hok
  cases review with
  | none => exact ⟨hok, Later.refl w', hnext w' _ hle (fun id h => nomatch h)⟩
  | some id =>
    have hafter : Later w' (SkillsWorld.perform (.inspect dir (some id)) w').2 :=
      List.subset_cons_self _ _
    refine ⟨hok.mono rfl hafter, hafter, hnext _ _ (hle.trans hafter) ?_⟩
    intro id' hid
    obtain rfl := Option.some.inj hid
    exact List.mem_cons_self

theorem keeps_skill {next : Option (SkillRow Hash) → SkillProgram Root Dir Hash}
    (hnext : ∀ w' row, Later w w' → (∀ r, row = some r → RowOk inspect w' id r) →
      Keeps inspect w' (next row)) :
    Keeps inspect w (.call (.skill id) next) := by
  intro w' hle hok
  exact ⟨hok, Later.refl w', hnext w' _ hle fun r hr => hok id r hr⟩

variable [DecidableEq Hash]

variable {home : SkillHome Root} {scope : Scope} {name : String}

/-- Loading a skill hands over what may be said of it. -/
theorem keeps_loadOrRecord {review : Bool}
    {next : SkillInfo Root Hash → Dir → SkillProgram Root Dir Hash}
    (hnext : ∀ w' info files, Later w w' → InfoOk inspect w' info files →
      (review = true → (skillId info.scope info.name, files) ∈ w'.reviewed) →
      Keeps inspect w' (next info files)) :
    Keeps inspect w (loadOrRecord inspect home scope name review next) := by
  refine keeps_inspect fun w₁ files hle₁ hreview => keeps_skill fun w₂ row hle₂ hrow => ?_
  split
  · trivial
  · rename_i info hexisting
    obtain ⟨rfl, rfl, hnamed, hinfo⟩ := infoOk_of_existing hrow hexisting
    have hreviewed : ∀ w', Later w₂ w' → review = true →
        (skillId info.scope info.name, files) ∈ w'.reviewed := by
      intro w' hle ht
      exact hle (hle₂ (hreview _ (by simp [ht])))
    split_ifs with hchanged
    · have hrefreshed : InfoOk inspect w₂ (refreshed (inspect files) info) files :=
        ⟨hnamed, rfl, fun ht => nomatch ht⟩
      refine keeps_record hrefreshed fun w₃ hle₃ => ?_
      exact hnext w₃ _ files ((hle₁.trans hle₂).trans hle₃) (hrefreshed.mono hle₃)
        (hreviewed w₃ hle₃)
    · simp only [not_or, ne_eq, not_not] at hchanged
      exact hnext w₂ info files (hle₁.trans hle₂) (hinfo hchanged.1) (hreviewed w₂ (Later.refl w₂))

theorem keeps_loadRequired {review : Bool}
    {next : SkillInfo Root Hash → Dir → SkillProgram Root Dir Hash}
    (hnext : ∀ w' info files, Later w w' → InfoOk inspect w' info files →
      (review = true → (skillId info.scope info.name, files) ∈ w'.reviewed) →
      Keeps inspect w' (next info files)) :
    Keeps inspect w (loadRequired inspect home scope name review next) := by
  intro w₁ hle hok
  refine ⟨hok, Later.refl w₁, ?_⟩
  beta_reduce
  split_ifs
  · exact keeps_loadOrRecord fun w' info files hle' => hnext w' info files (hle.trans hle')
  · trivial

/-- The reports that a list has gathered. -/
def GatheredOk (inspect : Dir → SkillFacts Hash) (w : SkillsWorld Root Dir Hash)
    (byName : OrdMap String (SkillReport Root Dir Hash)) : Prop :=
  ∀ name report, byName.get name = some report → InfoOk inspect w report.info report.files

/-- The loop of `list`, by induction on the names that are left. -/
theorem keeps_loads {names : List String} {byName : OrdMap String (SkillReport Root Dir Hash)}
    {next : OrdMap String (SkillReport Root Dir Hash) → SkillProgram Root Dir Hash}
    (hbyName : GatheredOk inspect w byName)
    (hnext : ∀ w' byName, Later w w' → GatheredOk inspect w' byName → Keeps inspect w' (next byName)) :
    Keeps inspect w (loads inspect home scope names byName next) := by
  induction names generalizing w byName with
  | nil => exact hnext w byName (Later.refl w) hbyName
  | cons name names ih =>
    refine keeps_loadOrRecord fun w' info files hle hinfo _ => ih ?_ fun w'' byName' hle' => ?_
    · intro name' report hget
      split_ifs at hget
      · rw [OrdMap.get_insert] at hget
        split_ifs at hget
        · obtain rfl := Option.some.inj hget
          exact hinfo
        · exact (hbyName name' report hget).mono hle
      · exact (hbyName name' report hget).mono hle
    · exact hnext w'' byName' (hle.trans hle')

theorem keeps_list : Keeps inspect w (list inspect home) := by
  intro w₁ hle₁ hok₁
  refine ⟨hok₁, Later.refl w₁, keeps_loads (fun name report hget => nomatch hget) ?_⟩
  intro w₂ byName hle₂ hbyName w₃ hle₃ hok₃
  refine ⟨hok₃, Later.refl w₃, keeps_loads (fun name report hget => ?_) ?_⟩
  · exact (hbyName name report hget).mono hle₃
  · intro w₄ byName hle₄ hbyName report hmem
    obtain ⟨⟨name, report'⟩, hentry, rfl⟩ := List.mem_map.mp hmem
    exact hbyName name report' (OrdMap.get_eq_some.mpr hentry)

theorem keeps_trust : Keeps inspect w (trust inspect home scope name) := by
  refine keeps_loadRequired fun w' info files _ hinfo hreviewed => keeps_report ?_
  exact ⟨hinfo.named, hinfo.contentHash, fun _ => ⟨files, hreviewed rfl, hinfo.contentHash.symm⟩⟩

theorem keeps_updateApply {upstream : SkillSource → Except SkillError (String × Dir)} :
    Keeps inspect w (updateApply inspect home scope name upstream) := by
  refine keeps_loadRequired fun w' info _ _ hinfo _ => ?_
  split
  · trivial
  · trivial
  · refine keeps_swapIntoPlace fun w₁ _ => keeps_inspect fun w₂ files _ _ => keeps_report ?_
    exact ⟨hinfo.named, rfl, fun ht => nomatch ht⟩

omit [DecidableEq Hash] in
theorem keeps_install {explicitName found : Option String} {staged : Dir} {source : SkillSource}
    {pinnedSha : Option String} :
    Keeps inspect w (install inspect home scope explicitName found staged source pinnedSha) := by
  unfold install
  split
  · trivial
  · split
    · trivial
    · rename_i hname
      refine keeps_swapIntoPlace fun w₁ _ => keeps_inspect fun w₂ files _ _ => keeps_report ?_
      exact ⟨fun _ => hname, rfl, fun ht => nomatch ht⟩

theorem keeps_program (call : SkillCall Root Dir) : Keeps inspect w (call.program inspect) := by
  cases call with
  | list home => exact keeps_list
  | trust home scope name => exact keeps_trust
  | setEnabled home scope name enabled =>
    exact keeps_loadRequired fun w' info files _ hinfo _ =>
      keeps_report ⟨hinfo.named, hinfo.contentHash, hinfo.reviewed⟩
  | updateCheck home scope name =>
    exact keeps_loadRequired fun _ _ _ _ _ _ report hmem => nomatch hmem
  | updateApply home scope name upstream => exact keeps_updateApply
  | install home scope explicitName found staged source pinnedSha => exact keeps_install

end Safe

/-! ## Runs -/

section Runs
variable [DecidableEq Root] [Inhabited Dir] [DecidableEq Hash]

/-- The calls side by side. The surroundings replace the skills directories as they like. -/
abbrev SkillMachine (Root Dir Hash : Type) :=
  Machine (SkillOp Root Hash Dir) SkillOp.Res
    (Except SkillError (List (SkillReport Root Dir Hash))) (SkillsWorld Root Dir Hash)

/-- Files change behind the back of the calls. -/
def SkillsWorld.edit (disk : Root → OrdMap String Dir) (w : SkillsWorld Root Dir Hash) :
    SkillsWorld Root Dir Hash :=
  { w with disk }

variable (inspect) in
def skillStep : SkillMachine Root Dir Hash → Move (Root → OrdMap String Dir) (SkillCall Root Dir) →
    Option (SkillMachine Root Dir Hash) :=
  Machine.step SkillsWorld.perform SkillsWorld.edit (SkillCall.program inspect)

/-- A call that nothing comes between is its program run as a whole. -/
theorem run_call_alone (m : SkillMachine Root Dir Hash) (call : SkillCall Root Dir) :
    ∃ n, run (skillStep inspect) m (.spawn call :: List.replicate n (.step m.threads.length)) =
      some ⟨((call.program inspect).exec SkillsWorld.perform m.shared).2,
        m.threads ++ [.ret ((call.program inspect).exec SkillsWorld.perform m.shared).1]⟩ := by
  let m' : SkillMachine Root Dir Hash := { m with threads := m.threads ++ [call.program inspect] }
  have hget : m'.threads[m.threads.length]? = some (call.program inspect) := by simp [m']
  obtain ⟨n, hn⟩ := Machine.run_alone SkillsWorld.perform SkillsWorld.edit (SkillCall.program inspect) hget
  refine ⟨n, ?_⟩
  have hspawn : skillStep inspect m (.spawn call) = some m' := rfl
  rw [run_cons, hspawn]
  simpa [skillStep, m'] using hn

/-- A finished call reported the skill. -/
def Reported (m : SkillMachine Root Dir Hash) (report : SkillReport Root Dir Hash) : Prop :=
  ∃ reports, .ret (.ok reports) ∈ m.threads ∧ report ∈ reports

/-- The table stays in order, and every call that is on its way keeps it so. -/
theorem keeps_of_run (as : List (Move (Root → OrdMap String Dir) (SkillCall Root Dir))) :
    Always (skillStep inspect) (fun m => TableOk inspect m.shared ∧
      ∀ p ∈ m.threads, Keeps inspect m.shared p) ⟨.empty, []⟩ as := by
  have hempty : TableOk inspect (.empty : SkillsWorld Root Dir Hash) := fun id row h => nomatch h
  have hedit : ∀ (disk : Root → OrdMap String Dir) (w : SkillsWorld Root Dir Hash),
      TableOk inspect w → TableOk inspect (w.edit disk) ∧ Later w (w.edit disk) :=
    fun disk w h => ⟨h.mono rfl (Later.refl w), Later.refl w⟩
  exact Machine.safe_of_run Later.refl (fun _ _ _ => Later.trans) (fun _ _ _ hle h => h.mono hle)
    hedit (fun call w _ => keeps_program call) hempty as

/-- A skill that is reported as trusted has, at the inspection of that call, the digest of
files that a trust call for it inspected; with an injective digest they are those files. -/
theorem trusted_follows_content (as : List (Move (Root → OrdMap String Dir) (SkillCall Root Dir))) :
    Always (skillStep inspect) (fun m => ∀ report, Reported m report → report.info.trusted = true →
      (∃ files, (skillId report.info.scope report.info.name, files) ∈ m.shared.reviewed ∧
        (inspect files).contentHash = (inspect report.files).contentHash) ∧
      ((∀ files files', (inspect files).contentHash = (inspect files').contentHash → files = files') →
        (skillId report.info.scope report.info.name, report.files) ∈ m.shared.reviewed))
      ⟨.empty, []⟩ as := by
  refine (keeps_of_run as).imp ?_
  rintro m ⟨-, hthreads⟩ report ⟨reports, hthread, hreport⟩ htrusted
  have hinfo : InfoOk inspect m.shared report.info report.files := hthreads _ hthread report hreport
  obtain ⟨files, hmem, heq⟩ := hinfo.reviewed htrusted
  rw [hinfo.contentHash] at heq
  refine ⟨⟨files, hmem, heq⟩, fun hinj => ?_⟩
  rwa [← hinj files report.files heq]

end Runs

end Tethys.Sync
