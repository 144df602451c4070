import Tethys.Sync.Idempotence
import Tethys.Sync.Migration
import Tethys.Lib.Runs

/-!
# Registry edits and projections

`tethys-core/src/mcp.rs`: edits of the registry files, and plan and apply rounds for the
config file of one target. The manifest row of the file says which entries Tethys owns. An
apply replaces the row by the entries of its own plan, after it has written the file.
`Mcp.wrote` remembers every name that Tethys put into the file, and `ownership_kept` says
for which runs the row still knows them all.
-/

namespace Tethys.Core

open Schema Lib Sync

inductive ApiError where
  | conflict (message : String)
  | internal (error : SyncError)
  | store
  deriving DecidableEq

/-- The registry files as they are read, the profiles with the target of each, the files, the
manifest row of one target file, and the names that Tethys has written to that file. -/
structure Mcp (Hash : Type) where
  global : RegistryFile
  workspaces : String → RegistryFile
  profiles : List (String × Option ProjectionTarget)
  disk : Disk
  row : Option (Applied Hash)
  wrote : List String

/-- A call on the service, with the point at which it fails, if it does. -/
inductive McpAct (Hash : Type) where
  /-- Set or delete an entry of the global registry, or of a workspace's; `written` says
  whether the registry file can be read and written. -/
  | registrySet (workspace : Option String) (name : String) (entry : RegistryEntry)
      (written : Bool)
  | registryDelete (workspace : Option String) (name : String) (written : Bool)
  | projectionPlan (workspace : String) (scope : Scope)
  /-- Apply a plan that the caller hands in; `stored` says whether the manifest row can be
  written. -/
  | projectionApply (workspace : String) (scope : Scope) (given : ProjectionPlan Hash)
      (now : Nat) (io : Io) (stored : Bool)

namespace Mcp

variable {Hash : Type}

/-- Change one registry file. A file that is written is read back without `targets`. -/
def rewriteRegistry (s : Mcp Hash) (workspace : Option String)
    (f : OrdMap String RegistryEntry → OrdMap String RegistryEntry) : Mcp Hash :=
  match workspace with
  | none => { s with global := RegistryFile.migrated ⟨registryVersion, f s.global.mcpServers⟩ }
  | some w =>
    { s with workspaces := fun w' =>
        if w' = w then RegistryFile.migrated ⟨registryVersion, f (s.workspaces w).mcpServers⟩
        else s.workspaces w' }

def registryScope : Option String → Scope
  | none => .global
  | some _ => .workspace

def registrySet (s : Mcp Hash) (workspace : Option String) (name : String)
    (entry : RegistryEntry) : Mcp Hash :=
  let entry := { entry with entryMeta.scope := some (registryScope workspace) }
  s.rewriteRegistry workspace fun servers => servers.insert name entry

/-- An entry that is not there leaves the file unwritten. -/
def registryDelete (s : Mcp Hash) (workspace : Option String) (name : String) : Mcp Hash :=
  let servers := match workspace with
    | none => s.global.mcpServers
    | some w => (s.workspaces w).mcpServers
  if (servers.get name).isSome then s.rewriteRegistry workspace fun servers => servers.erase name
  else s

def desired (s : Mcp Hash) (target : ProjectionTarget) (workspace : String) :
    List (String × RegistryEntry) :=
  Registry.effective ⟨s.global, s.workspaces workspace⟩ target.targetId []

/-- The entries that the manifest row says Tethys owns. -/
def owned (s : Mcp Hash) : OrdMap String Hash :=
  match s.row with
  | some row => row.entries
  | none => .empty

/-- The registry entries of the target file. -/
def onFile (F : Formats) (target : ProjectionTarget) (path : String) (s : Mcp Hash) :
    OrdMap String RegistryEntry :=
  entriesRead F target ((s.disk.files path).getD "")

variable [DecidableEq Hash] (D : Digests Hash) (F : Formats) (target : ProjectionTarget)
  (path : String)

/-- Builds the authoritative projection plan for a workspace. -/
def buildProjectionPlan (s : Mcp Hash) (workspace : String) (scope : Scope) :
    Except SyncError (ProjectionPlan Hash) :=
  (plan D F ⟨projectors F target, path, scope, s.disk.files path, s.desired target workspace,
    s.owned⟩).map fun planned =>
      { planned with
        providers := (s.profiles.filter (·.2 = some target)).map Prod.fst }

/-- The fields of the caller's plan that are compared with the fresh one. -/
def samePlan (given fresh : ProjectionPlan Hash) : Bool :=
  given.target = fresh.target ∧ given.scope = fresh.scope ∧ given.path = fresh.path ∧
    given.baseHash = fresh.baseHash ∧ given.content = fresh.content

/-- The names that a plan for this workspace injects. -/
def injected (s : Mcp Hash) (workspace : String) : List String :=
  ((s.desired target workspace).filter fun e =>
    writes D target.targetId (s.owned.get e.1) ((s.onFile F target path).get e.1) e.2).map Prod.fst

def projectionApply (s : Mcp Hash) (workspace : String) (scope : Scope)
    (given : ProjectionPlan Hash) (now : Nat) (io : Io) (stored : Bool) :
    Except ApiError (Applied Hash) × Mcp Hash :=
  match s.buildProjectionPlan D F target path workspace scope with
  | .error error => (.error (.internal error), s)
  | .ok fresh =>
    if samePlan given fresh then
      let published := io = .ok ∧ conflicts fresh = []
      let wrote := if published then s.injected D F target path workspace ++ s.wrote else s.wrote
      match apply D (projectors F target) fresh s.disk now io with
      | (.error error, disk) =>
        (.error (.internal error), { s with disk := disk, wrote := wrote })
      | (.ok applied, disk) =>
        if stored then (.ok applied, { s with disk := disk, wrote := wrote, row := some applied })
        else (.error .store, { s with disk := disk, wrote := wrote })
    else
      (.error (.conflict "projection plan does not match workspace state; re-plan and retry"), s)

def step (s : Mcp Hash) : McpAct Hash → Option (Mcp Hash)
  | .registrySet workspace name entry written =>
    some (if written then s.registrySet workspace name entry else s)
  | .registryDelete workspace name written =>
    some (if written then s.registryDelete workspace name else s)
  | .projectionPlan _ _ => some s
  | .projectionApply workspace scope given now io stored =>
    some (s.projectionApply D F target path workspace scope given now io stored).2

/-! ## What should hold -/

/-- Every entry that Tethys wrote and that is in the file is recorded with the digest of what
is there. -/
def Recorded (s : Mcp Hash) : Prop :=
  ∀ name ∈ s.wrote, ∀ current, (s.onFile F target path).get name = some current →
    s.owned.get name = some (entryDigest D current)

/-- No plan reports an entry that Tethys wrote as a conflict. -/
def NeverConflicts (s : Mcp Hash) : Prop :=
  ∀ workspace scope planned, s.buildProjectionPlan D F target path workspace scope = .ok planned →
    ∀ projection ∈ planned.entries, projection.name ∈ s.wrote → projection.state ≠ .conflict

/-- What an apply prints is read back as what it printed. -/
def ReadsBack (s : Mcp Hash) : McpAct Hash → Prop
  | .projectionApply workspace _ _ _ _ _ => PrintsBack F target (s.desired target workspace)
  | _ => True

/-- An apply that gets to write the file, and stores its row, still desires every name that
was written before; and one whose row cannot be stored has nothing to inject. -/
def KeepsRow (s : Mcp Hash) : McpAct Hash → Prop
  | .projectionApply workspace scope given _ io stored =>
    ∀ fresh, s.buildProjectionPlan D F target path workspace scope = .ok fresh →
      samePlan given fresh → conflicts fresh = [] → io = .ok →
      if stored then
        ∀ name ∈ s.wrote, ∃ entry, (name, entry) ∈ s.desired target workspace ∧
          entry.transport ≠ .sse
      else s.injected D F target path workspace = []
  | _ => True

variable {D F target path}

/-! ## One call -/

omit [DecidableEq Hash] in
theorem nodup_desired (s : Mcp Hash) (workspace : String) :
    ((s.desired target workspace).map Prod.fst).Nodup :=
  Registry.nodup_effective _ _ _

theorem buildProjectionPlan_eq_ok {s : Mcp Hash} {workspace : String} {scope : Scope}
    {fresh : ProjectionPlan Hash}
    (h : s.buildProjectionPlan D F target path workspace scope = .ok fresh) :
    ∃ planned, plan D F ⟨projectors F target, path, scope, s.disk.files path,
        s.desired target workspace, s.owned⟩ = .ok planned ∧
      fresh.path = path ∧ fresh.baseHash = D.file ((s.disk.files path).getD "") ∧
      fresh.content = planned.content ∧ fresh.entries = planned.entries ∧
      fresh.entries = (s.desired target workspace).map
        (project D target.targetId s.owned (s.onFile F target path)) := by
  obtain ⟨planned, hplan, rfl⟩ := map_eq_ok h
  obtain ⟨hentries, hpath⟩ := plan_eq_ok hplan
  have hprojections := planEntries_projections hentries
  rw [projectors_target] at hprojections
  exact ⟨planned, hplan, hpath, plan_baseHash hplan, rfl, rfl, hprojections⟩

/-- An apply leaves file, row and written names, or it gets to write the file. Then the row
is the record of what is read back, if the read back works and the row can be stored. -/
theorem projectionApply_cases (s : Mcp Hash) (workspace : String) (scope : Scope)
    (given : ProjectionPlan Hash) (now : Nat) (io : Io) (stored : Bool) {t : Mcp Hash}
    (h : (s.projectionApply D F target path workspace scope given now io stored).2 = t) :
    (t.disk.files path = s.disk.files path ∧ t.row = s.row ∧ t.wrote = s.wrote) ∨
    ∃ fresh, s.buildProjectionPlan D F target path workspace scope = .ok fresh ∧
      samePlan given fresh ∧ conflicts fresh = [] ∧ io = .ok ∧
      t.disk.files path = some fresh.content ∧
      t.wrote = s.injected D F target path workspace ++ s.wrote ∧
      ((∃ readBack, (projectors F target).readEntries fresh.content = .ok readBack ∧
        t.row = if stored then some (applied D fresh readBack) else s.row) ∨
      ∃ error, (projectors F target).readEntries fresh.content = .error error ∧ t.row = s.row) := by
  unfold projectionApply at h
  split at h
  case h_1 => exact .inl (h ▸ ⟨rfl, rfl, rfl⟩)
  case h_2 fresh hfresh =>
    obtain ⟨planned, hplan, hpath, hbase, -⟩ := buildProjectionPlan_eq_ok hfresh
    by_cases hsame : samePlan given fresh = true
    · rw [if_pos hsame] at h
      rw [← hpath] at hbase
      rcases apply_cases (projectors F target) now io hbase.symm with
        ⟨hnot, error, disk', happly, hfiles⟩ | ⟨hpublished, disk', hfile, happly⟩
      · simp only [if_neg hnot, happly] at h
        exact .inl (h ▸ ⟨congrFun hfiles path, rfl, rfl⟩)
      · right
        refine ⟨fresh, hfresh, hsame, hpublished.2, hpublished.1, ?_⟩
        rw [hpath] at hfile
        cases hread : (projectors F target).readEntries fresh.content with
        | error error =>
          simp only [if_pos hpublished, happly, hread, Except.map] at h
          exact h ▸ ⟨hfile, rfl, .inr ⟨error, rfl, rfl⟩⟩
        | ok readBack =>
          simp only [if_pos hpublished, happly, hread, Except.map] at h
          cases stored <;>
            exact h ▸ ⟨hfile, rfl, .inl ⟨readBack, rfl, rfl⟩⟩
    · rw [if_neg hsame] at h
      exact .inl (h ▸ ⟨rfl, rfl, rfl⟩)

/-- A plan of a readable file is written as a readable file. -/
theorem content_readable {s : Mcp Hash} {workspace : String} {scope : Scope}
    {fresh : ProjectionPlan Hash} (hF : F.Sound)
    (hback : PrintsBack F target (s.desired target workspace))
    (hfresh : s.buildProjectionPlan D F target path workspace scope = .ok fresh) :
    ∃ readBack, (projectors F target).readEntries fresh.content = .ok readBack := by
  obtain ⟨planned, hplan, -, -, hcontent, -⟩ := buildProjectionPlan_eq_ok hfresh
  obtain ⟨doc, hdoc⟩ := plan_readable target hF rfl hplan
  obtain ⟨doc', hdoc', -⟩ :=
    planEntries_read hF hback (s.nodup_desired workspace) (plan_eq_ok hplan).1 hdoc
  obtain ⟨readBack, hread, -⟩ := readEntries_eq hF hdoc'
  exact ⟨readBack, hcontent ▸ hread⟩

/-- A plan that injects nothing keeps the text of the file. -/
theorem content_of_nothing_injected {s : Mcp Hash} {workspace : String} {scope : Scope}
    {fresh : ProjectionPlan Hash}
    (hfresh : s.buildProjectionPlan D F target path workspace scope = .ok fresh)
    (h : s.injected D F target path workspace = []) :
    fresh.content = (s.disk.files path).getD "" := by
  obtain ⟨planned, hplan, -, -, hcontent, -⟩ := buildProjectionPlan_eq_ok hfresh
  have hquiet : ∀ e ∈ s.desired target workspace,
      writes D (projectors F target).target (s.owned.get e.1) ((s.onFile F target path).get e.1)
        e.2 →
      (projectors F target).inject ((s.disk.files path).getD "") e.1 e.2 =
        .ok ((s.disk.files path).getD "") := by
    intro e he hw
    rw [projectors_target] at hw
    have hmem : e.1 ∈ s.injected D F target path workspace :=
      List.mem_map_of_mem (List.mem_filter.mpr ⟨he, hw⟩)
    rw [h] at hmem
    cases hmem
  have hentries := (plan_eq_ok hplan).1
  exact hcontent.trans
    (congrArg Prod.fst (Except.ok.inj (hentries.symm.trans (planEntries_still hquiet))))

theorem recorded_apply {s t : Mcp Hash} {workspace : String} {scope : Scope}
    {given : ProjectionPlan Hash} {now : Nat} {io : Io} {stored : Bool} (hF : F.Sound)
    (hs : s.Recorded D F target path)
    (hback : PrintsBack F target (s.desired target workspace))
    (hkeeps : s.KeepsRow D F target path (.projectionApply workspace scope given now io stored))
    (h : (s.projectionApply D F target path workspace scope given now io stored).2 = t) :
    t.Recorded D F target path := by
  obtain ⟨hfile, hrow, hwrote⟩ | ⟨fresh, hfresh, hsame, hnone, rfl, hfile, hwrote, hrest⟩ :=
    projectionApply_cases s workspace scope given now io stored h
  · intro name hname current hcurrent
    have howned : t.owned = s.owned := by rw [owned, owned, hrow]
    rw [onFile, hfile] at hcurrent
    rw [howned]
    exact hs name (hwrote ▸ hname) current hcurrent
  · obtain ⟨readBack, hread⟩ := content_readable hF hback hfresh
    have hrow : t.row = if stored then some (applied D fresh readBack) else s.row := by
      rcases hrest with ⟨readBack', hread', hrow⟩ | ⟨error, herror, -⟩
      · obtain rfl := Except.ok.inj (hread.symm.trans hread')
        exact hrow
      · exact nomatch hread.symm.trans herror
    have hkeeps := hkeeps fresh hfresh hsame hnone rfl
    cases stored with
    | true =>
      intro name hname current hcurrent
      -- the name is desired, so the new row records what is read back under it
      obtain ⟨entry, hdesired, hsse⟩ : ∃ entry, (name, entry) ∈ s.desired target workspace ∧
          entry.transport ≠ .sse := by
        rw [hwrote] at hname
        rcases List.mem_append.mp hname with hname | hname
        · obtain ⟨⟨x, entry⟩, hmem, rfl⟩ := List.mem_map.mp hname
          obtain ⟨hmem, hw⟩ := List.mem_filter.mp hmem
          exact ⟨entry, hmem, fun hsse => by simp [writes, hsse] at hw⟩
        · exact hkeeps name hname
      obtain ⟨-, -, -, -, -, -, hentries⟩ := buildProjectionPlan_eq_ok hfresh
      have hget : (applied D fresh readBack).entries.get name =
          (readBack.get name).map (entryDigest D) :=
        applied_get_desired hentries hnone hdesired hsse
      have hcurrent' : readBack.get name = some current := by
        rw [onFile, hfile, Option.getD_some, entriesRead, hread] at hcurrent
        exact hcurrent
      rw [owned, hrow]
      exact hget.trans (by rw [hcurrent']; rfl)
    | false =>
      have hinjected : s.injected D F target path workspace = [] := hkeeps
      have hsame := content_of_nothing_injected hfresh hinjected
      intro name hname current hcurrent
      have howned : t.owned = s.owned := by rw [owned, owned, hrow]; rfl
      rw [onFile, hfile, Option.getD_some, hsame] at hcurrent
      rw [hwrote, hinjected] at hname
      rw [howned]
      exact hs name hname current hcurrent

theorem recorded_step {s t : Mcp Hash} {a : McpAct Hash} (hF : F.Sound)
    (hs : s.Recorded D F target path)
    (hok : s.ReadsBack F target a ∧ s.KeepsRow D F target path a)
    (h : s.step D F target path a = some t) : t.Recorded D F target path := by
  cases a with
  | registrySet workspace name entry written =>
    cases written <;> cases workspace <;> (cases h; exact hs)
  | registryDelete workspace name written =>
    cases written with
    | false => cases h; exact hs
    | true =>
      simp only [step, registryDelete, if_true] at h
      split_ifs at h
      · cases workspace <;> (cases h; exact hs)
      · cases h; exact hs
  | projectionPlan workspace scope =>
    cases h
    exact hs
  | projectionApply workspace scope given now io stored =>
    exact recorded_apply hF hs hok.1 hok.2 (Option.some.inj h)

/-- Entries that are recorded as they are on disk are no conflict. -/
theorem Recorded.neverConflicts {s : Mcp Hash} (h : s.Recorded D F target path) :
    s.NeverConflicts D F target path := by
  intro workspace scope planned hplan projection hprojection hname
  obtain ⟨-, -, -, -, -, -, hentries⟩ := buildProjectionPlan_eq_ok hplan
  rw [hentries] at hprojection
  obtain ⟨⟨x, entry⟩, -, rfl⟩ := List.mem_map.mp hprojection
  by_cases hsse : entry.transport = .sse
  · simp [project, hsse]
  · have hx : x ∈ s.wrote := by simpa [project, hsse] using hname
    simp only [project, hsse, if_false]
    intro hconflict
    have hrefuses := (entryState_refuses target.targetId _ _ hsse).mp hconflict
    cases hcurrent : (s.onFile F target path).get x with
    | none => simp [refuses, hcurrent] at hrefuses
    | some current => simp [refuses, hcurrent, h x hx current hcurrent] at hrefuses

end Mcp

/-- Over every run of registry edits, plans and applies, with any failures: as long as each
apply that writes the file still desires every name written before and stores its row, every
entry that Tethys wrote stays recorded as it is on disk, and no plan reports it as a
conflict. -/
theorem ownership_kept {Hash : Type} [DecidableEq Hash] (D : Digests Hash) (F : Formats)
    (target : ProjectionTarget) (path : String) (s : Mcp Hash) (acts : List (McpAct Hash))
    (hF : F.Sound) (hstart : s.wrote = [])
    (hok : Meets (Mcp.step D F target path)
      (fun s a => s.ReadsBack F target a ∧ s.KeepsRow D F target path a) s acts) :
    Always (Mcp.step D F target path)
      (fun s => s.Recorded D F target path ∧ s.NeverConflicts D F target path) s acts := by
  refine always_of_meets (I := fun s => s.Recorded D F target path)
    (fun _ h => ⟨h, h.neverConflicts⟩) (fun _ _ _ h hok hstep => Mcp.recorded_step hF h hok hstep)
    ?_ hok
  intro name hname
  rw [hstart] at hname
  cases hname

/-! ## A server that is removed -/

/-- A plan of the caller's for a Codex file, in the fields that are compared. -/
def codexPlan (before content : String) : ProjectionPlan (RegistryEntry ⊕ String) where
  target := .codex
  path := "config.toml"
  scope := .global
  baseHash := .inr before
  created := false
  diff := ""
  content := content
  entries := []
  providers := []

def nothingYet : Mcp (RegistryEntry ⊕ String) where
  global := {}
  workspaces _ := {}
  profiles := []
  disk := noFile
  row := none
  wrote := []

/-- A server is added and applied. -/
def addServer : List (McpAct (RegistryEntry ⊕ String)) :=
  [.registrySet none "github" { transport := .stdio, command := some "gh" } true,
   .projectionApply "repo" .global (codexPlan "" overwritten) 1 .ok true]

/-- Then it is removed from the registry, and the rest is applied. -/
def removeServer : List (McpAct (RegistryEntry ⊕ String)) :=
  addServer ++
  [.registryDelete none "github" true,
   .projectionApply "repo" .global (codexPlan overwritten overwritten) 2 .ok true]

/-- The server is still in the file and no longer in the row. -/
theorem ownership_lost_on_removal :
    ¬ Always (Mcp.step exactDigests oneServerFormats .codex "config.toml")
      (fun s => s.Recorded exactDigests oneServerFormats .codex "config.toml" ∧
        s.NeverConflicts exactDigests oneServerFormats .codex "config.toml")
      nothingYet removeServer := by
  intro h
  have hlast := (h.last rfl).1 "github" List.mem_cons_self
    { transport := .stdio, command := some "gh" } rfl
  cases hlast

/-- The server is changed, and what there is now is applied. -/
def changeServer : List (McpAct (RegistryEntry ⊕ String)) :=
  addServer ++
  [.registrySet none "github" { transport := .stdio, command := some "gh", entryMeta := { targets := some [.codex] } }
     true,
   .projectionApply "repo" .global (codexPlan overwritten overwritten) 2 .ok true]

/-- Tethys owns the server all along. -/
theorem ownership_kept_addServer :
    Always (Mcp.step exactDigests oneServerFormats .codex "config.toml")
      (fun s => s.Recorded exactDigests oneServerFormats .codex "config.toml" ∧
        s.NeverConflicts exactDigests oneServerFormats .codex "config.toml")
      nothingYet changeServer := by
  refine ownership_kept exactDigests oneServerFormats .codex "config.toml" nothingYet changeServer
    oneServerFormats_sound rfl ?_
  intro s hs
  cases hs
  refine ⟨⟨trivial, trivial⟩, ?_⟩
  intro t ht
  cases ht
  refine ⟨⟨oneServerFormats_printsBack _, ?_⟩, ?_⟩
  · intro fresh hfresh hsame hnone hio name hname
    cases hname
  intro u hu
  cases hu
  refine ⟨⟨trivial, trivial⟩, ?_⟩
  intro v hv
  cases hv
  refine ⟨⟨oneServerFormats_printsBack _, ?_⟩, trivial⟩
  intro fresh hfresh hsame hnone hio name hname
  obtain rfl : name = "github" := List.mem_singleton.mp hname
  exact ⟨_, List.mem_cons_self, by decide⟩

end Tethys.Core
