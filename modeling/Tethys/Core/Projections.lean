import Tethys.Core.Attachments

/-!
# The plan behind the grid

`build_projection_plan` and `compute_projection_states_for_target` of
`tethys-core/src/mcp.rs` build the same plan for the config file of a target, each with its
own choice of the file. The first takes the scope that is asked for, the second always asks
`detect` for a workspace file and takes every server as pending where there is none.
-/

namespace Tethys.Core

open Schema Lib Sync
open Acp (NormalizedCapabilities)
open AgentServers (ConnectionKey)

/-! ## The files of a target -/

structure TargetFile where
  path : String
  scope : Scope
  deriving DecidableEq

/-- The `.json` file, unless only the `.jsonc` file exists. -/
def pickConfig (disk : Disk) (dir defaultName : String) : String :=
  let json := dir ++ "/" ++ defaultName
  let jsonc := dir ++ "/" ++ defaultName ++ "c"
  if (disk.files json).isSome then json
  else if (disk.files jsonc).isSome then jsonc
  else json

/-- `Projector::detect`, for each of the projectors. -/
def detect (disk : Disk) (root home : String) : ProjectionTarget → List TargetFile
  | .claudeCode => [⟨root ++ "/.mcp.json", .workspace⟩]
  | .codex => [⟨home ++ "/.codex/config.toml", .global⟩]
  | .openCode =>
    [⟨pickConfig disk root "opencode.json", .workspace⟩,
     ⟨pickConfig disk (home ++ "/.config/opencode") "opencode.json", .global⟩]

def targetPath (disk : Disk) (root home : String) (target : ProjectionTarget) (scope : Scope) :
    Option String :=
  ((detect disk root home target).find? fun file => file.scope = scope).map (·.path)

section Scope
variable {disk : Disk} {root home path : String} {target : ProjectionTarget} {scope : Scope}

/-- Only Codex has no file in the workspace. -/
theorem targetPath_workspace : targetPath disk root home target .workspace = none ↔ target = .codex := by
  cases target <;> simp [targetPath, detect]

theorem targetPath_codex (hpath : targetPath disk root home .codex scope = some path) :
    path = home ++ "/.codex/config.toml" := by
  cases scope <;> simp_all [targetPath, detect]

/-- The scope of a plan that is asked for the workspace, or for the only scope of the target. -/
theorem scope_of_targetPath
    (hscope : scope = .workspace ∨ ∀ file ∈ detect disk root home target, file.scope = scope)
    (hpath : targetPath disk root home target scope = some path) (hcodex : target ≠ .codex) :
    scope = .workspace := by
  cases target <;> cases scope <;> simp_all [targetPath, detect]

end Scope

/-- The names that `{:?}` prints. -/
def debugTarget : ProjectionTarget → String
  | .claudeCode => "ClaudeCode"
  | .codex => "Codex"
  | .openCode => "OpenCode"

def debugScope : Scope → String
  | .global => "Global"
  | .workspace => "Workspace"

inductive PlanError where
  | invalidConfig (message : String)
  | api (error : ApiError)
  deriving DecidableEq

namespace Providers

variable {Hash : Type} (h : Providers Hash)

/-- The workspace files of the targets are those that `detect` finds. -/
def detecting (root : String) : Providers Hash :=
  { h with targetPath := fun target => Core.targetPath h.disk root h.home target .workspace }

/-- The entries that the manifest row of a file says Tethys owns. -/
def owned (target : ProjectionTarget) (path : String) : Except ApiError (OrdMap String Hash) :=
  (h.row target path).map fun
    | some row => row.entries
    | none => .empty

section Plan
variable [DecidableEq Hash] (S : SerdeJson) (D : Digests Hash) (F : Formats) (root : String)

/-- The plan for a file of the target. -/
def planFile (target : ProjectionTarget) (scope : Scope) (path : String) :
    Except ApiError (ProjectionPlan Hash) := do
  let registry ← (h.load S root).mapError .internal
  let desired := registry.effective target.targetId []
  let owned ← h.owned target path
  let planned ← (plan D F ⟨projectors F target, path, scope, h.disk.files path, desired,
    owned⟩).mapError .internal
  return { planned with
    providers := (h.profiles.entries.filter fun e => e.2.2.projectionTarget = some target).map
      Prod.fst }

/-- Builds the authoritative projection plan for a workspace. -/
def buildProjectionPlan (target : ProjectionTarget) (scope : Scope) :
    Except PlanError (ProjectionPlan Hash) :=
  match Core.targetPath h.disk root h.home target scope with
  | none => .error (.invalidConfig
      (debugTarget target ++ " has no " ++ debugScope scope ++ "-scope config"))
  | some path => (h.planFile S D F root target scope path).mapError .api

end Plan

/-! ## The two copies -/

section Copies
variable [DecidableEq Hash] {h} {S : SerdeJson} {D : Digests Hash} {F : Formats} {root : String}
  {target : ProjectionTarget} {scope : Scope} {path : String} {planned : ProjectionPlan Hash}

/-- What a plan says of each entry that the registry makes effective. -/
theorem planFile_eq_ok (hplan : h.planFile S D F root target scope path = .ok planned) :
    ∃ registry owned, h.load S root = .ok registry ∧ h.owned target path = .ok owned ∧
      planned.entries = (registry.effective target.targetId []).map
        (project D target.targetId owned (entriesRead F target ((h.disk.files path).getD ""))) := by
  obtain ⟨registry, hload, hplan⟩ := bind_eq_ok hplan
  obtain ⟨owned, howned, hplan⟩ := bind_eq_ok hplan
  obtain ⟨planned', hplanned, hplan⟩ := bind_eq_ok hplan
  obtain rfl := Except.ok.inj hplan
  have hentries := planEntries_projections (plan_eq_ok (mapError_eq_ok hplanned)).1
  rw [projectors_target] at hentries
  exact ⟨registry, owned, mapError_eq_ok hload, howned, hentries⟩

theorem planFile_of_plan {registry : Registry} {owned : OrdMap String Hash}
    (hload : h.load S root = .ok registry) (howned : h.owned target path = .ok owned)
    (hplan : plan D F ⟨projectors F target, path, scope, h.disk.files path,
      registry.effective target.targetId [], owned⟩ = .ok planned) :
    h.planFile S D F root target scope path = .ok { planned with
      providers := (h.profiles.entries.filter fun e => e.2.2.projectionTarget = some target).map
        Prod.fst } := by
  rw [planFile, hload, howned]
  change (plan D F ⟨projectors F target, path, scope, h.disk.files path,
    registry.effective target.targetId [], owned⟩).mapError ApiError.internal >>= _ = _
  rw [hplan]
  rfl

/-- Where there is a workspace file, the grid takes its states from the plan for that file. -/
theorem computeProjectionStatesForTarget_eq (hpath : h.targetPath target = some path) :
    h.computeProjectionStatesForTarget S D F root target =
      (h.planFile S D F root target .workspace path).map fun planned =>
        .ofList (planned.entries.map fun e => (e.name, e.state)) := by
  change _ = (fun planned : ProjectionPlan Hash =>
    OrdMap.ofList (planned.entries.map fun e => (e.name, e.state))) <$>
      h.planFile S D F root target .workspace path
  simp only [computeProjectionStatesForTarget, hpath, planFile, map_bind, map_pure]
  refine bind_congr fun registry => ?_
  cases hrow : h.row target path with
  | error e =>
    simp only [owned, hrow]
    rfl
  | ok row =>
    simp only [owned, hrow]
    rfl

/-- The state of an effective entry, as the grid looks it up. -/
theorem get_states (hplan : h.planFile S D F root target scope path = .ok planned)
    {registry : Registry} (hload : h.load S root = .ok registry) {owned : OrdMap String Hash}
    (howned : h.owned target path = .ok owned) {e : String × RegistryEntry}
    (he : e ∈ registry.effective target.targetId []) :
    (OrdMap.ofList (planned.entries.map fun e => (e.name, e.state))).get e.1 =
      some (project D target.targetId owned (entriesRead F target ((h.disk.files path).getD ""))
        e).state := by
  obtain ⟨registry', owned', hload', howned', hentries⟩ := planFile_eq_ok hplan
  obtain rfl := Except.ok.inj (hload'.symm.trans hload)
  obtain rfl := Except.ok.inj (howned'.symm.trans howned)
  refine OrdMap.get_ofList_of_mem ?_ ?_
  · rw [hentries, List.map_map, List.map_map]
    have hkeys : (Prod.fst ∘ fun e : EntryProjection => (e.name, e.state)) ∘
        project D target.targetId owned' (entriesRead F target ((h.disk.files path).getD "")) =
          Prod.fst := funext fun e => project_name e
    rw [hkeys]
    exact Registry.nodup_effective _ _ _
  · rw [hentries, List.map_map]
    exact List.mem_map.mpr ⟨e, he, by simp [project_name]⟩

end Copies

/-! ## What the grid shows -/

/-- A connected provider that takes no transport. -/
def Unnegotiated (key : ConnectionKey) : Prop :=
  ∃ e caps, h.entry key = some e ∧ exposed e.state = some .connected ∧
    e.capabilities = some caps ∧ (caps.mcp.stdio || caps.mcp.http || caps.mcp.sse) = false

/-- The file projection states that the grid shows for a provider are those of the plan, for
the given servers. -/
def ShowsPlan (grid : AttachmentGrid) (id : String) (target : ProjectionTarget)
    (planned : ProjectionPlan Hash) (servers : List (String × RegistryEntry)) : Prop :=
  ∀ e ∈ servers, ∀ target' state, ⟨e.1, id, .fileProjection target' state⟩ ∈ grid.cells →
    target' = target ∧ ∃ p ∈ planned.entries, p.name = e.1 ∧ p.state = state

/-- The entry is still to be written to the file, with all of its secrets. -/
def Outstanding [DecidableEq Hash] (D : Digests Hash) (F : Formats) (target : ProjectionTarget)
    (path : String) (e : String × RegistryEntry) : Prop :=
  ∀ owned, h.owned target path = .ok owned →
    writes D target.targetId (owned.get e.1)
      ((entriesRead F target ((h.disk.files path).getD "")).get e.1) e.2 ∧
    omitsSecrets target.targetId e.2 = false

section Shown
variable [DecidableEq Hash] {h} {S : SerdeJson} {D : Digests Hash} {F : Formats} {root : String}
  {grid : AttachmentGrid} {registry : Registry} {id : String} {key : ConnectionKey}
  {compat : AgentCompat} {target : ProjectionTarget} {scope : Scope} {path : String}
  {planned : ProjectionPlan Hash}

theorem cellState_unnegotiated {name : String} {server : RegistryEntry} {p : ProviderInput}
    {caps : NormalizedCapabilities} (hcaps : p.capabilities = some caps)
    (hconnected : p.connected = true)
    (hnone : (caps.mcp.stdio || caps.mcp.http || caps.mcp.sse) = false)
    (htarget : p.projectionTarget = some target) :
    cellState name server p =
      if server.entryMeta.allowsProvider p.id then
        .fileProjection target ((p.projectionStates.get name).getD .pending)
      else .excluded := by
  simp only [cellState, hcaps, hconnected, hnone, htarget]
  cases server.entryMeta.allowsProvider p.id <;> rfl

/-- The file projection cells of a provider, in terms of the states computed for its target. -/
theorem fileProjection_iff (hload : h.load S root = .ok registry)
    (hprofile : h.profiles.get id = some (key, compat))
    (htarget : compat.projectionTarget = some target) (hnone : h.Unnegotiated key)
    (hgrid : h.mcpAttachments S D F root = .ok grid) {e : String × RegistryEntry}
    (he : e ∈ registry.effective target.targetId []) (target' : ProjectionTarget)
    (state : EntryState) :
    ⟨e.1, id, .fileProjection target' state⟩ ∈ grid.cells ↔
      ∃ states, h.computeProjectionStatesForTarget S D F root target = .ok states ∧
        e.2.entryMeta.allowsProvider id = true ∧ h.disabled.contains e.1 = false ∧
        target' = target ∧ state = (states.get e.1).getD .pending := by
  obtain ⟨live, caps, hentry, hexposed, hcaps, hmcp⟩ := hnone
  obtain ⟨hmem, hon⟩ := List.mem_filter.mp he
  have hinput : h.profileInput S D F root id key compat =
      (h.computeProjectionStatesForTarget S D F root target).map fun states =>
        ⟨id, live.infoName.getD id, true, some caps, some target, states⟩ := by
    simp [profileInput, hentry, hexposed, hcaps, htarget]
  rw [cell_iff hload hprofile hgrid]
  constructor
  · rintro ⟨p, entry, hp, hmem', -, hdisabled, hcell⟩
    obtain rfl : e.2 = entry :=
      Option.some.inj ((OrdMap.get_eq_some.mpr hmem).symm.trans (OrdMap.get_eq_some.mpr hmem'))
    obtain ⟨states, hstates, rfl⟩ := map_eq_ok (hinput.symm.trans hp)
    rw [cellState_unnegotiated rfl rfl hmcp rfl] at hcell
    split_ifs at hcell with hallows
    obtain ⟨htarget', hstate⟩ := AttachmentState.fileProjection.inj hcell
    exact ⟨states, hstates, hallows, hdisabled, htarget'.symm, hstate.symm⟩
  · rintro ⟨states, hstates, hallows, hdisabled, htarget', hstate⟩
    rw [hstates] at hinput
    refine ⟨_, e.2, hinput, hmem, ?_, hdisabled, ?_⟩
    · simp only [Bool.and_eq_true] at hon
      exact hon.1.1
    · rw [cellState_unnegotiated rfl rfl hmcp rfl, if_pos hallows, htarget', hstate]

/-- An entry is pending when it is still to be written, with all of its secrets. -/
theorem project_pending_iff {owned : OrdMap String Hash} {onDisk : OrdMap String RegistryEntry}
    (tag : TargetId) (e : String × RegistryEntry) :
    (project D tag owned onDisk e).state = .pending ↔
      writes D tag (owned.get e.1) (onDisk.get e.1) e.2 ∧ omitsSecrets tag e.2 = false := by
  by_cases hsse : e.2.transport = .sse
  · simp [project, writes, hsse]
  · rw [← entryState_writes tag (owned.get e.1) (onDisk.get e.1) hsse]
    simp only [project, if_neg hsse, entryState]
    cases omitsSecrets tag e.2 with
    | true => simp
    | false =>
      simp only [Bool.false_eq_true, if_false, and_true]
      unfold ownedState
      split
      · split_ifs <;> simp
      all_goals simp

/-- The state of an entry in a plan. -/
theorem planned_state_iff {tag : TargetId} {owned : OrdMap String Hash}
    {onDisk : OrdMap String RegistryEntry} {servers : List (String × RegistryEntry)}
    (hentries : planned.entries = servers.map (project D tag owned onDisk))
    (hd : (servers.map Prod.fst).Nodup) {e : String × RegistryEntry} (he : e ∈ servers)
    (state : EntryState) :
    (∃ p ∈ planned.entries, p.name = e.1 ∧ p.state = state) ↔
      (project D tag owned onDisk e).state = state := by
  rw [hentries]
  constructor
  · rintro ⟨_, hp, hname, hstate⟩
    obtain ⟨e', he', rfl⟩ := List.mem_map.mp hp
    rw [project_name] at hname
    rwa [List.inj_on_of_nodup_map hd he' he hname] at hstate
  · exact fun hstate => ⟨_, List.mem_map_of_mem he, project_name e, hstate⟩

/-- Where there is a workspace file, the grid reads the plan for that file. -/
theorem shows_plan_of_workspace (hload : h.load S root = .ok registry)
    (hprofile : h.profiles.get id = some (key, compat))
    (htarget : compat.projectionTarget = some target) (hnone : h.Unnegotiated key)
    (hgrid : (h.detecting root).mcpAttachments S D F root = .ok grid)
    (hpath : Core.targetPath h.disk root h.home target .workspace = some path)
    (hplan : h.planFile S D F root target .workspace path = .ok planned) :
    ShowsPlan grid id target planned (registry.effective target.targetId []) := by
  intro e he target' state hcell
  obtain ⟨states, hstates, -, -, rfl, rfl⟩ := (fileProjection_iff (h := h.detecting root) hload
    hprofile htarget hnone hgrid he target' state).mp hcell
  have hsame : (h.detecting root).planFile S D F root target' .workspace path = .ok planned := hplan
  rw [computeProjectionStatesForTarget_eq (h := h.detecting root) hpath, hsame] at hstates
  obtain rfl := Except.ok.inj hstates
  obtain ⟨registry', owned, hload', howned, hentries⟩ := planFile_eq_ok hplan
  obtain rfl := Except.ok.inj (hload'.symm.trans hload)
  rw [get_states hplan hload howned he]
  exact ⟨rfl, (planned_state_iff hentries (Registry.nodup_effective _ _ _) he _).mpr rfl⟩

/-- For Codex the grid finds no file and takes every server as pending. -/
theorem codex_shows_plan_iff (hload : h.load S root = .ok registry)
    (hprofile : h.profiles.get id = some (key, compat))
    (htarget : compat.projectionTarget = some .codex) (hnone : h.Unnegotiated key)
    (hgrid : (h.detecting root).mcpAttachments S D F root = .ok grid)
    (hplan : h.planFile S D F root .codex scope path = .ok planned) :
    ShowsPlan grid id .codex planned (registry.effective .codex []) ↔
      ∀ e ∈ registry.effective .codex [], e.2.entryMeta.allowsProvider id →
        h.disabled.contains e.1 = false → h.Outstanding D F .codex path e := by
  have hstates : (h.detecting root).computeProjectionStatesForTarget S D F root .codex =
      .ok .empty := by
    simp [computeProjectionStatesForTarget, detecting, targetPath_workspace.mpr rfl]
  obtain ⟨registry', owned, hload', howned, hentries⟩ := planFile_eq_ok hplan
  obtain rfl := Except.ok.inj (hload'.symm.trans hload)
  have hpending : ∀ e ∈ registry'.effective .codex [], h.Outstanding D F .codex path e ↔
      ∃ p ∈ planned.entries, p.name = e.1 ∧ p.state = .pending := by
    intro e he
    rw [planned_state_iff hentries (Registry.nodup_effective _ _ _) he, project_pending_iff]
    constructor
    · exact fun hout => hout owned howned
    · intro hwrites owned' howned'
      obtain rfl := Except.ok.inj (howned'.symm.trans howned)
      exact hwrites
  have hshown := fun e he => fileProjection_iff (h := h.detecting root) (e := e) hload hprofile
    htarget hnone hgrid he
  constructor
  · intro hshows e he hallows hdisabled
    have hcell := (hshown e he .codex .pending).mpr ⟨.empty, hstates, hallows, hdisabled, rfl, rfl⟩
    exact (hpending e he).mpr (hshows e he .codex .pending hcell).2
  · intro hout e he target' state hcell
    obtain ⟨states, hstates', hallows, hdisabled, rfl, rfl⟩ := (hshown e he target' state).mp hcell
    obtain rfl := Except.ok.inj (hstates'.symm.trans hstates)
    exact ⟨rfl, (hpending e he).mp (hout e he hallows hdisabled)⟩

/-- The grid shows the states of the plan for a target if and only if the target is not Codex,
or every server of the grid that is effective for Codex is still to be written. -/
theorem grid_shows_plan_iff (hload : h.load S root = .ok registry)
    (hprofile : h.profiles.get id = some (key, compat))
    (htarget : compat.projectionTarget = some target) (hnone : h.Unnegotiated key)
    (hgrid : (h.detecting root).mcpAttachments S D F root = .ok grid)
    (hscope : scope = .workspace ∨
      ∀ file ∈ detect h.disk root h.home target, file.scope = scope)
    (hplan : h.buildProjectionPlan S D F root target scope = .ok planned) :
    ShowsPlan grid id target planned (registry.effective target.targetId []) ↔
      target ≠ .codex ∨ ∀ e ∈ registry.effective target.targetId [],
        e.2.entryMeta.allowsProvider id → h.disabled.contains e.1 = false →
          h.Outstanding D F target (h.home ++ "/.codex/config.toml") e := by
  cases hpath : Core.targetPath h.disk root h.home target scope with
  | none => simp [buildProjectionPlan, hpath] at hplan
  | some path =>
    simp only [buildProjectionPlan, hpath] at hplan
    have hplan := mapError_eq_ok hplan
    by_cases hcodex : target = .codex
    · subst hcodex
      obtain rfl := targetPath_codex hpath
      have hiff := codex_shows_plan_iff hload hprofile htarget hnone hgrid hplan
      exact hiff.trans (or_iff_right fun hne => hne rfl).symm
    · obtain rfl := scope_of_targetPath hscope hpath hcodex
      have hshows := shows_plan_of_workspace hload hprofile htarget hnone hgrid hpath hplan
      exact iff_of_true hshows (Or.inl hcodex)

end Shown

/-! ## A server that no file takes -/

def sseText : String := "\x7b\"mcpServers\":\x7b\"x\":\x7b\"type\":\"sse\"\x7d\x7d\x7d"

def sse : RegistryEntry where
  transport := .sse

/-- `serde_json` on the text. -/
def sseTexts : SerdeJson where
  parse text :=
    if text = sseText then
      some (.object [("mcpServers", .object [("x", .object [("type", .string "sse")])])])
    else none
  toStringPretty _ := sseText
  message _ := "expected value at line 1 column 1"

/-- One connected v2 agent that takes no transport, with a target for its servers. -/
def fileAgent (target : ProjectionTarget) : Providers Unit :=
  { oneAgent sseText with
    profiles := OrdMap.empty.insert "agent-1" (agentKey, ⟨some .v2, some target⟩)
    profiles_key := by
      rintro e (_ | ⟨_, he⟩)
      · rfl
      · cases he
    store := [.connectedTo agentKey ⟨some .v2, some target⟩ "Agent" (.v2 ⟨none⟩)] }

theorem load_fileAgent (target : ProjectionTarget) :
    (fileAgent target).load sseTexts "/ws" = .ok ⟨{}, fileOf sse⟩ := by
  have hglobal : readRegistry sseTexts (oneAgent sseText).disk (globalRegistryPath "/home/u") =
      .ok none := by decide +kernel
  have hworkspace : readRegistry sseTexts (oneAgent sseText).disk (workspaceRegistryPath "/ws") =
      .ok (some (fileOf sse)) := by decide +kernel
  change Registry.load sseTexts (oneAgent sseText).disk (globalRegistryPath "/home/u")
    (workspaceRegistryPath "/ws") = _
  rw [Registry.load, loadOrDefault, loadOrDefault, hglobal, hworkspace]
  rfl

theorem unnegotiated_fileAgent (target : ProjectionTarget) :
    (fileAgent target).Unnegotiated agentKey :=
  ⟨_, _, rfl, rfl, rfl, rfl⟩

theorem effective_sse :
    (⟨{}, fileOf sse⟩ : Registry).effective .claudeCode [] = [("x", sse)] ∧
      (⟨{}, fileOf sse⟩ : Registry).effective .codex [] = [("x", sse)] := by
  decide +kernel

/-- The plan for a file that does not exist: the server is reported as unsupported. -/
theorem planFile_fileAgent {target : ProjectionTarget} {scope : Scope} {path : String}
    (hfile : (fileAgent target).disk.files path = none)
    (heffective : (⟨{}, fileOf sse⟩ : Registry).effective target.targetId [] = [("x", sse)]) :
    ∃ planned, (fileAgent target).planFile sseTexts noDigests noFormats "/ws" target scope path =
        .ok planned ∧
      planned.entries = [⟨"x", .unsupported, false, ["sse transport is import-only"]⟩] := by
  have hplan : ∃ planned, plan noDigests noFormats ⟨projectors noFormats target, path, scope, none,
      [("x", sse)], .empty⟩ = .ok planned ∧
      planned.entries = [⟨"x", .unsupported, false, ["sse transport is import-only"]⟩] := by
    cases target <;> exact ⟨_, rfl, rfl⟩
  obtain ⟨planned, hplan, hentries⟩ := hplan
  rw [← heffective, ← hfile] at hplan
  exact ⟨_, planFile_of_plan (load_fileAgent target) rfl hplan, hentries⟩

/-- The grid is returned when the states for the target are. -/
theorem mcpAttachments_fileAgent (target : ProjectionTarget) {states : OrdMap String EntryState}
    (hstates : ((fileAgent target).detecting "/ws").computeProjectionStatesForTarget sseTexts
      noDigests noFormats "/ws" target = .ok states) :
    ∃ grid, ((fileAgent target).detecting "/ws").mcpAttachments sseTexts noDigests noFormats "/ws" =
      .ok grid := by
  have hload : ((fileAgent target).detecting "/ws").load sseTexts "/ws" = .ok ⟨{}, fileOf sse⟩ :=
    load_fileAgent target
  have hprofiles : ((fileAgent target).detecting "/ws").profiles.entries =
      [("agent-1", agentKey, ⟨some .v2, some target⟩)] := rfl
  rw [mcpAttachments, hload, hprofiles]
  simp only [List.mapM_cons, List.mapM_nil, profileInput, hstates]
  exact ⟨_, rfl⟩

theorem grid_shows_plan_claudeCode :
    ∃ grid planned,
      ((fileAgent .claudeCode).detecting "/ws").mcpAttachments sseTexts noDigests noFormats "/ws" =
        .ok grid ∧
      (fileAgent .claudeCode).buildProjectionPlan sseTexts noDigests noFormats "/ws" .claudeCode
        .workspace = .ok planned ∧
      ShowsPlan grid "agent-1" .claudeCode planned [("x", sse)] := by
  have hpath : Core.targetPath (fileAgent .claudeCode).disk "/ws" "/home/u" .claudeCode .workspace =
      some "/ws/.mcp.json" := by decide +kernel
  have hfile : (fileAgent .claudeCode).disk.files "/ws/.mcp.json" = none := by decide +kernel
  obtain ⟨planned, hplanned, -⟩ := planFile_fileAgent hfile effective_sse.1
  have hplan : (fileAgent .claudeCode).buildProjectionPlan sseTexts noDigests noFormats "/ws"
      .claudeCode .workspace = .ok planned := by
    have hhome : (fileAgent .claudeCode).home = "/home/u" := rfl
    rw [buildProjectionPlan, hhome, hpath]
    exact congrArg (Except.mapError PlanError.api) hplanned
  have hworkspace : ((fileAgent .claudeCode).detecting "/ws").targetPath .claudeCode =
      some "/ws/.mcp.json" := hpath
  have hstates : ((fileAgent .claudeCode).detecting "/ws").computeProjectionStatesForTarget sseTexts
      noDigests noFormats "/ws" .claudeCode = _ := computeProjectionStatesForTarget_eq hworkspace
  obtain ⟨grid, hgrid⟩ := mcpAttachments_fileAgent .claudeCode
    (hstates.trans (congrArg (Except.map _) hplanned))
  have hprofile : (fileAgent .claudeCode).profiles.get "agent-1" =
      some (agentKey, ⟨some .v2, some .claudeCode⟩) := rfl
  have hiff := grid_shows_plan_iff (load_fileAgent .claudeCode) hprofile rfl
    (unnegotiated_fileAgent .claudeCode) hgrid (Or.inl rfl) hplan
  refine ⟨grid, planned, hgrid, hplan, ?_⟩
  have hshows := hiff.mpr (Or.inl (by decide))
  rwa [show ProjectionTarget.claudeCode.targetId = .claudeCode from rfl, effective_sse.1] at hshows

/-- For Codex the plan calls the server unsupported and the grid calls it pending. -/
theorem codex_shown_pending :
    ∃ grid planned,
      ((fileAgent .codex).detecting "/ws").mcpAttachments sseTexts noDigests noFormats "/ws" =
        .ok grid ∧
      (fileAgent .codex).buildProjectionPlan sseTexts noDigests noFormats "/ws" .codex .global =
        .ok planned ∧
      (∀ file ∈ detect (fileAgent .codex).disk "/ws" "/home/u" .codex, file.scope = .global) ∧
      (fileAgent .codex).Unnegotiated agentKey ∧
      (fileAgent .codex).load sseTexts "/ws" = .ok ⟨{}, fileOf sse⟩ ∧
      (⟨{}, fileOf sse⟩ : Registry).effective .codex [] = [("x", sse)] ∧
      ¬ ShowsPlan grid "agent-1" .codex planned [("x", sse)] := by
  have hpath : Core.targetPath (fileAgent .codex).disk "/ws" "/home/u" .codex .global =
      some "/home/u/.codex/config.toml" := by decide +kernel
  have hfile : (fileAgent .codex).disk.files "/home/u/.codex/config.toml" = none := by
    decide +kernel
  obtain ⟨planned, hplanned, hentries⟩ := planFile_fileAgent hfile effective_sse.2
  have hplan : (fileAgent .codex).buildProjectionPlan sseTexts noDigests noFormats "/ws" .codex
      .global = .ok planned := by
    have hhome : (fileAgent .codex).home = "/home/u" := rfl
    rw [buildProjectionPlan, hhome, hpath]
    exact congrArg (Except.mapError PlanError.api) hplanned
  obtain ⟨grid, hgrid⟩ := mcpAttachments_fileAgent .codex rfl
  refine ⟨grid, planned, hgrid, hplan, by simp [detect], unnegotiated_fileAgent .codex,
    load_fileAgent .codex, effective_sse.2, ?_⟩
  intro hshows
  have heffective : ("x", sse) ∈ (⟨{}, fileOf sse⟩ : Registry).effective .codex [] := by
    rw [effective_sse.2]
    exact List.mem_singleton_self _
  have hprofile : ((fileAgent .codex).detecting "/ws").profiles.get "agent-1" =
      some (agentKey, ⟨some .v2, some .codex⟩) := rfl
  have hcell := (fileProjection_iff (h := (fileAgent .codex).detecting "/ws")
    (load_fileAgent .codex) hprofile rfl (unnegotiated_fileAgent .codex) hgrid heffective .codex
    .pending).mpr ⟨.empty, rfl, rfl, rfl, rfl, rfl⟩
  obtain ⟨-, p, hp, -, hstate⟩ := hshows _ (List.mem_singleton_self _) _ _ hcell
  rw [hentries, List.mem_singleton] at hp
  subst hp
  cases hstate

end Providers

end Tethys.Core
