import Tethys.Acp.Servers
import Tethys.Core.Mcp
import Tethys.Core.Requests

/-!
# The attachment grid

`tethys-sync/src/attachments.rs` and `mcp_attachments` of `tethys-core/src/mcp.rs` compute,
for each server of the registry and each provider, whether the server goes into the next
session. `mcp_servers` of `thread_session.rs` and the ACP crate build the list that does.
Both read the same registry files, profiles and connection store, which are the fields of
`Providers` here. `attached_iff_on_wire` compares the two.
-/

namespace Tethys.Core

open Schema Lib Sync Acp
open AgentServers (ConnectionKey Lifecycle)

/-! ## The grid -/

/-- Per-provider input for computing attachment states. -/
structure ProviderInput where
  id : String
  name : String
  connected : Bool
  capabilities : Option NormalizedCapabilities
  projectionTarget : Option ProjectionTarget
  projectionStates : OrdMap String EntryState

def cellState (serverName : String) (server : RegistryEntry) (provider : ProviderInput) :
    AttachmentState :=
  if !server.entryMeta.allowsProvider provider.id then .excluded
  else match provider.capabilities with
    | none => .notNegotiated
    | some caps =>
      if !provider.connected then .notNegotiated
      else
        let mcp := caps.mcp
        let acceptsAny := mcp.stdio || mcp.http || mcp.sse
        if !acceptsAny then
          match provider.projectionTarget with
          | some target =>
            .fileProjection target ((provider.projectionStates.get serverName).getD .pending)
          | none => .unsupportedTransport server.transport
        else if mcp.supports server.transport then .attached
        else .unsupportedTransport server.transport

/-- Computes the attachment grid for the given servers and providers. -/
def computeAttachmentGrid (servers : List (String × RegistryEntry × Scope))
    (providers : List ProviderInput) : AttachmentGrid where
  servers := servers.map fun (name, entry, scope) => ⟨name, entry.transport, scope⟩
  providers := providers.map fun p => ⟨p.id, p.name, p.connected, p.projectionTarget⟩
  cells := servers.flatMap fun (name, entry, _) =>
    providers.map fun p => ⟨name, p.id, cellState name entry p⟩

/-! ## The service -/

inductive ConnectionState where
  | connecting | connected | error | draining
  deriving DecidableEq

/-- What clients see of a connection; a terminated one is not shown. -/
def exposed : Lifecycle → Option ConnectionState
  | .connecting => some .connecting
  | .connected => some .connected
  | .error => some .error
  | .draining => some .draining
  | .terminated => none

structure AgentCompat where
  preferredProtocol : Option Wire
  projectionTarget : Option ProjectionTarget
  deriving DecidableEq

/-- An entry of the connection store, after its liveness check. -/
structure StoreEntry where
  key : ConnectionKey
  state : Lifecycle
  compat : AgentCompat
  protocol : Option Wire
  infoName : Option String
  capabilities : Option NormalizedCapabilities

/-- Everything that the grid and the spawn of a session read. The profiles are registered
under the id of their key. -/
structure Providers (Hash : Type) where
  home : String
  disk : Disk
  disabled : List String
  secrets : SecretStore
  profiles : OrdMap String (ConnectionKey × AgentCompat)
  profiles_key : ∀ e ∈ profiles.entries, e.2.1.profileId = e.1
  store : List StoreEntry
  /-- the config file of a target in the workspace -/
  targetPath : ProjectionTarget → Option String
  /-- the manifest row of a target's file, if the database can be read -/
  row : ProjectionTarget → String → Except ApiError (Option (Applied Hash))

/-- The protocol version of a connected agent. -/
def wireOf : AgentConnection → Wire
  | .v1 _ => .v1
  | .v2 _ => .v2

/-- The entry that a finished spawn leaves. -/
def StoreEntry.connectedTo (key : ConnectionKey) (compat : AgentCompat) (infoName : String)
    (connection : AgentConnection) : StoreEntry where
  key := key
  state := .connected
  compat := compat
  protocol := some (wireOf connection)
  infoName := some infoName
  capabilities := some connection.capabilities

namespace Providers

variable {Hash : Type} (h : Providers Hash)

/-- `ConnectionStore::entry`, before the lifecycle is exposed. -/
def entry (key : ConnectionKey) : Option StoreEntry := h.store.find? fun e => e.key = key

def load (S : SerdeJson) (root : String) : Except SyncError Registry :=
  Registry.load S h.disk (globalRegistryPath h.home) (workspaceRegistryPath root)

section Grid
variable [DecidableEq Hash] (S : SerdeJson) (D : Digests Hash) (F : Formats) (root : String)

def computeProjectionStatesForTarget (target : ProjectionTarget) :
    Except ApiError (OrdMap String EntryState) :=
  match h.targetPath target with
  | none => .ok .empty
  | some path => do
    let registry ← (h.load S root).mapError .internal
    let desired := registry.effective target.targetId []
    let row ← h.row target path
    let owned := match row with
      | some row => row.entries
      | none => .empty
    let planned ← (plan D F ⟨projectors F target, path, .workspace, h.disk.files path, desired,
      owned⟩).mapError .internal
    return .ofList (planned.entries.map fun e => (e.name, e.state))

/-- The input for a registered profile. -/
def profileInput (profileId : String) (key : ConnectionKey) (compat : AgentCompat) :
    Except ApiError ProviderInput :=
  let entry := h.entry key
  let connected := entry.any fun e => (exposed e.state).getD .connecting = .connected
  let capabilities := if connected then entry.bind (·.capabilities) else none
  let name := (entry.bind (·.infoName)).getD profileId
  let projectionStates := match compat.projectionTarget with
    | some target => h.computeProjectionStatesForTarget S D F root target
    | none => .ok .empty
  projectionStates.map fun states =>
    ⟨profileId, name, connected, capabilities, compat.projectionTarget, states⟩

/-- A connection of a profile that has no input yet. -/
def addLive (inputs : List ProviderInput) (live : StoreEntry) : List ProviderInput :=
  match exposed live.state with
  | none => inputs
  | some state =>
    if inputs.any fun p => p.id = live.key.profileId then inputs
    else
      let connected := state = .connected
      let capabilities := if connected then live.capabilities else none
      inputs ++ [⟨live.key.profileId, live.infoName.getD live.key.profileId, connected, capabilities,
        none, .empty⟩]

/-- The order of `ConnectionStore::entries`. -/
def keyLe (a b : StoreEntry) : Bool :=
  a.key.profileId < b.key.profileId ∨ a.key.profileId = b.key.profileId ∧ a.key.host ≤ b.key.host

def mcpAttachments : Except ApiError AttachmentGrid := do
  let registry ← (h.load S root).mapError .internal
  let servers := (registry.merged.entries.filter fun e =>
    e.2.2.entryMeta.enabled && !h.disabled.contains e.1).map fun e => (e.1, e.2.2, e.2.1)
  let inputs ← h.profiles.entries.mapM fun e => h.profileInput S D F root e.1 e.2.1 e.2.2
  let inputs := (h.store.mergeSort keyLe).foldl addLive inputs
  let inputs := inputs.mergeSort fun a b => a.id ≤ b.id
  return computeAttachmentGrid servers inputs

end Grid

/-- The connection store and the registry as they answer a thread; the rest is the agent's. -/
def world (S : SerdeJson) (rest : World Sync.Node) : World Sync.Node :=
  { rest with
    profileKey := fun id => (h.profiles.get id).map Prod.fst
    entry := fun key => (h.entry key).map fun e =>
      ⟨e.protocol.or e.compat.preferredProtocol, e.capabilities.map (·.mcp)⟩
    spawnServers := fun workspaceRoot profileId transports =>
      ((spawnServersForProvider S h.disk h.home workspaceRoot (some profileId) h.disabled
        transports h.secrets).mapError SyncError.display).map (·.map encodeServer) }

/-! ## What the grid says -/

theorem cellState_eq_attached {serverName : String} {server : RegistryEntry}
    {provider : ProviderInput} {caps : NormalizedCapabilities}
    (hcaps : provider.capabilities = some caps) (hconnected : provider.connected = true) :
    cellState serverName server provider = .attached ↔
      server.entryMeta.allowsProvider provider.id ∧ caps.mcp.supports server.transport := by
  have hany : caps.mcp.supports server.transport = true →
      (caps.mcp.stdio || caps.mcp.http || caps.mcp.sse) = true := by
    intro hs
    cases ht : server.transport <;> simp_all [McpTransports.supports]
  unfold cellState
  rw [hcaps, hconnected]
  cases ha : server.entryMeta.allowsProvider provider.id with
  | false => simp
  | true =>
    cases hs : caps.mcp.supports server.transport with
    | true => simp [hany hs, hs]
    | false =>
      cases hacc : caps.mcp.stdio || caps.mcp.http || caps.mcp.sse with
      | true => simp [hacc, hs]
      | false =>
        simp only [Bool.not_true, hacc, Bool.not_false, if_true]
        cases provider.projectionTarget <;> simp

/-- A live connection adds at most an input for a profile that has none. -/
theorem addLive_cases (inputs : List ProviderInput) (live : StoreEntry) :
    addLive inputs live = inputs ∨
      ∃ p, addLive inputs live = inputs ++ [p] ∧ p.id ∉ inputs.map (·.id) := by
  unfold addLive
  cases exposed live.state with
  | none => exact .inl rfl
  | some state =>
    by_cases hany : (inputs.any fun p => p.id = live.key.profileId) = true
    · exact .inl (if_pos hany)
    · refine .inr ⟨_, if_neg hany, ?_⟩
      intro hmem
      obtain ⟨q, hq, heq⟩ := List.mem_map.mp hmem
      exact hany (List.any_eq_true.mpr ⟨q, hq, by simpa using heq⟩)

/-- The inputs of the registered profiles stay, and no other has the id of one of them. -/
theorem mem_foldl_addLive {inputs : List ProviderInput} {p : ProviderInput}
    (lives : List StoreEntry) (hid : p.id ∈ inputs.map (·.id)) :
    p ∈ lives.foldl addLive inputs ↔ p ∈ inputs := by
  induction lives generalizing inputs with
  | nil => exact Iff.rfl
  | cons live lives ih =>
    rcases addLive_cases inputs live with heq | ⟨q, heq, hq⟩
    · rw [List.foldl_cons, heq]
      exact ih hid
    · rw [List.foldl_cons, heq, ih (by simp [hid]), List.mem_append, List.mem_singleton]
      refine or_iff_left ?_
      rintro rfl
      exact hq hid

section Agreement
variable [DecidableEq Hash] {h} {S : SerdeJson} {D : Digests Hash} {F : Formats} {root : String}
  {grid : AttachmentGrid} {registry : Registry} {id : String} {key : ConnectionKey}
  {compat : AgentCompat} {infoName : String} {connection : AgentConnection}

theorem mcpAttachments_eq_ok (hgrid : h.mcpAttachments S D F root = .ok grid) :
    ∃ registry inputs, h.load S root = .ok registry ∧
      h.profiles.entries.mapM (fun e => h.profileInput S D F root e.1 e.2.1 e.2.2) = .ok inputs ∧
      grid.cells = (computeAttachmentGrid
        ((registry.merged.entries.filter fun e =>
          e.2.2.entryMeta.enabled && !h.disabled.contains e.1).map fun e => (e.1, e.2.2, e.2.1))
        (((h.store.mergeSort keyLe).foldl addLive inputs).mergeSort fun a b => a.id ≤ b.id)).cells := by
  obtain ⟨registry, hload, hgrid⟩ := bind_eq_ok hgrid
  obtain ⟨inputs, hinputs, hgrid⟩ := bind_eq_ok hgrid
  obtain rfl := Except.ok.inj hgrid
  exact ⟨registry, inputs, mapError_eq_ok hload, hinputs, rfl⟩

/-- The input of a profile whose agent is connected. -/
theorem profileInput_connected
    (hentry : h.entry key = some (.connectedTo key compat infoName connection))
    {p : ProviderInput} (hp : h.profileInput S D F root id key compat = .ok p) :
    p.id = id ∧ p.connected = true ∧ p.capabilities = some connection.capabilities := by
  obtain ⟨states, -, rfl⟩ := map_eq_ok hp
  simp [hentry, StoreEntry.connectedTo, exposed]

theorem profileInput_id {p : ProviderInput}
    (hp : h.profileInput S D F root id key compat = .ok p) : p.id = id := by
  obtain ⟨states, -, rfl⟩ := map_eq_ok hp
  rfl

/-- The columns of the grid for a registered profile are its own input. -/
theorem mem_columns {inputs : List ProviderInput} {p : ProviderInput} (lives : List StoreEntry)
    (hprofile : h.profiles.get id = some (key, compat))
    (hinputs : h.profiles.entries.mapM (fun e => h.profileInput S D F root e.1 e.2.1 e.2.2) =
      .ok inputs) :
    (p ∈ (lives.foldl addLive inputs).mergeSort (fun a b => a.id ≤ b.id) ∧ p.id = id) ↔
      h.profileInput S D F root id key compat = .ok p := by
  obtain ⟨hback, hforth⟩ := mem_of_mapM_eq_ok hinputs
  obtain ⟨own, hown, hownInput⟩ := hforth _ (OrdMap.get_eq_some.mp hprofile)
  have hownId : own.id = id := profileInput_id hownInput
  have hid : id ∈ inputs.map (·.id) := hownId ▸ List.mem_map_of_mem hown
  rw [List.mem_mergeSort]
  constructor
  · rintro ⟨hp, rfl⟩
    obtain ⟨e, he, hinput⟩ := hback p ((mem_foldl_addLive lives hid).mp hp)
    have heq : e.1 = p.id := (profileInput_id hinput).symm
    have hget : h.profiles.get p.id = some e.2 := OrdMap.get_eq_some.mpr (heq ▸ he)
    rw [hprofile] at hget
    rw [heq, ← Option.some.inj hget] at hinput
    exact hinput
  · intro hp
    obtain rfl := Except.ok.inj (hownInput.symm.trans hp)
    exact ⟨(mem_foldl_addLive lives (hownId ▸ hid)).mpr hown, hownId⟩

/-- The cells of a registered profile, in terms of the registry and of its input. -/
theorem cell_iff (hload : h.load S root = .ok registry)
    (hprofile : h.profiles.get id = some (key, compat))
    (hgrid : h.mcpAttachments S D F root = .ok grid) (name : String) (state : AttachmentState) :
    ⟨name, id, state⟩ ∈ grid.cells ↔
      ∃ p entry, h.profileInput S D F root id key compat = .ok p ∧
        (name, entry) ∈ registry.mergedServers.entries ∧ entry.entryMeta.enabled = true ∧
        h.disabled.contains name = false ∧ cellState name entry p = state := by
  obtain ⟨registry', inputs, hload', hinputs, hcells⟩ := mcpAttachments_eq_ok hgrid
  obtain rfl := Except.ok.inj (hload'.symm.trans hload)
  have hmerged : ∀ entry, (∃ scope, (name, scope, entry) ∈ registry'.merged.entries) ↔
      (name, entry) ∈ registry'.mergedServers.entries := by
    intro entry
    rw [← OrdMap.get_eq_some, ← Registry.get_merged, Option.map_eq_some_iff]
    simp [← OrdMap.get_eq_some]
  rw [hcells]
  simp only [computeAttachmentGrid, List.mem_flatMap, List.mem_map, List.mem_filter,
    AttachmentCell.mk.injEq]
  constructor
  · rintro ⟨_, ⟨⟨name', scope, entry⟩, ⟨hmem, hon⟩, rfl⟩, p, hp, rfl, hid, hstate⟩
    obtain ⟨henabled, hdisabled⟩ := Bool.and_eq_true_iff.mp hon
    exact ⟨p, entry, (mem_columns _ hprofile hinputs).mp ⟨hp, hid⟩, (hmerged entry).mp ⟨scope, hmem⟩,
      henabled, by simpa using hdisabled, hstate⟩
  · rintro ⟨p, entry, hp, hmem, henabled, hdisabled, hstate⟩
    obtain ⟨scope, hmem⟩ := (hmerged entry).mpr hmem
    obtain ⟨hp, hid⟩ := (mem_columns _ hprofile hinputs).mpr hp
    exact ⟨_, ⟨(name, scope, entry), ⟨hmem, by simpa [henabled] using hdisabled⟩, rfl⟩, p, hp, rfl, hid,
      hstate⟩

/-- The cells that are attached, in terms of the registry. -/
theorem attached_iff (hload : h.load S root = .ok registry)
    (hprofile : h.profiles.get id = some (key, compat))
    (hentry : h.entry key = some (.connectedTo key compat infoName connection))
    (hgrid : h.mcpAttachments S D F root = .ok grid) (name : String) :
    ⟨name, id, .attached⟩ ∈ grid.cells ↔
      ∃ entry, (name, entry) ∈ registry.effectiveForProvider (some id) h.disabled ∧
        connection.capabilities.mcp.supports entry.transport := by
  obtain ⟨_, _, -, hinputs, -⟩ := mcpAttachments_eq_ok hgrid
  obtain ⟨own, -, hown⟩ := (mem_of_mapM_eq_ok hinputs).2 _ (OrdMap.get_eq_some.mp hprofile)
  have hown : h.profileInput S D F root id key compat = .ok own := hown
  obtain ⟨hid, hconnected, hcaps⟩ := profileInput_connected hentry hown
  have hcell : ∀ entry, cellState name entry own = .attached ↔ _ :=
    fun entry => cellState_eq_attached hcaps hconnected
  rw [cell_iff hload hprofile hgrid]
  simp only [Registry.effectiveForProvider, List.mem_filter, Bool.and_eq_true]
  constructor
  · rintro ⟨p, entry, hp, hmem, henabled, hdisabled, hstate⟩
    obtain rfl := Except.ok.inj (hp.symm.trans hown)
    obtain ⟨hallows, hsupports⟩ := (hcell entry).mp hstate
    exact ⟨entry, ⟨hmem, ⟨henabled, hid ▸ hallows⟩, by simpa using hdisabled⟩, hsupports⟩
  · rintro ⟨entry, ⟨hmem, ⟨henabled, hallows⟩, hdisabled⟩, hsupports⟩
    refine ⟨own, entry, hown, hmem, henabled, by simpa using hdisabled, (hcell entry).mpr ?_⟩
    exact ⟨hid ▸ hallows, hsupports⟩

omit [DecidableEq Hash] in
/-- The servers of the next session request, in terms of the registry. -/
theorem mcpServers_eq_ok (rest : World Sync.Node) (hload : h.load S root = .ok registry)
    (hprofile : h.profiles.get id = some (key, compat))
    (hentry : h.entry key = some (.connectedTo key compat infoName connection))
    (hsecrets : ∀ e ∈ registry.effectiveForProvider (some id) h.disabled,
      Resolvable h.secrets e.2) :
    (h.world S rest).mcpServers root key =
      .ok (((sessionServers (registry.effectiveForProvider (some id) h.disabled)
        connection.capabilities.mcp).map (SessionServer.resolved h.secrets)).map encodeServer) := by
  have hkey : key.profileId = id := h.profiles_key _ (OrdMap.get_eq_some.mp hprofile)
  have htransports :
      (h.world S rest).transportsFor key = .ok connection.capabilities.mcp := by
    cases connection with
    | v1 c => simp [World.transportsFor, world, hentry, StoreEntry.connectedTo, wireOf,
        AgentConnection.capabilities, capabilitiesV1]
    | v2 c => simp [World.transportsFor, world, hentry, StoreEntry.connectedTo, wireOf]
  have hspawn : spawnServersForProvider S h.disk h.home root (some id) h.disabled
      connection.capabilities.mcp h.secrets =
        .ok ((sessionServers (registry.effectiveForProvider (some id) h.disabled)
          connection.capabilities.mcp).map (SessionServer.resolved h.secrets)) := by
    have hload : Registry.load S h.disk (globalRegistryPath h.home) (workspaceRegistryPath root) =
        .ok registry := hload
    rw [spawnServersForProvider, hload]
    exact resolveSecrets_eq_ok hsecrets
  rw [World.mcpServers, htransports]
  simp only [world, hkey, hspawn]
  rfl

theorem mem_sessionServers (entries : List (String × RegistryEntry)) (transports : McpTransports)
    (store : SecretStore) (server : SessionServer) :
    server ∈ (sessionServers entries transports).map (SessionServer.resolved store) ↔
      ∃ e ∈ entries, transports.supports e.2.transport ∧
        SessionServer.resolved store (sessionServer e.1 e.2) = server := by
  simp [sessionServers, and_assoc]

/-- The grid shows a server as attached for a connected provider exactly when the next session
request of that provider has it, for all servers, if and only if every server that reaches the
provider over a negotiated transport has the command or url that the transport needs. -/
theorem attached_iff_on_wire (rest : World Sync.Node) (hload : h.load S root = .ok registry)
    (hprofile : h.profiles.get id = some (key, compat))
    (hentry : h.entry key = some (.connectedTo key compat infoName connection))
    (hsecrets : ∀ e ∈ registry.effectiveForProvider (some id) h.disabled,
      Resolvable h.secrets e.2)
    (hgrid : h.mcpAttachments S D F root = .ok grid) :
    ∃ values, (h.world S rest).mcpServers root key = .ok values ∧
      ((∀ name, ⟨name, id, .attached⟩ ∈ grid.cells ↔
          name ∈ (connection.mcpServers values).map McpServer.name) ↔
        ∀ e ∈ registry.effectiveForProvider (some id) h.disabled,
          connection.capabilities.mcp.supports e.2.transport →
            Complete e.2.transport e.2.command e.2.url) := by
  refine ⟨_, mcpServers_eq_ok rest hload hprofile hentry hsecrets, ?_⟩
  have hwire : ∀ name, name ∈ (connection.mcpServers
      (((sessionServers (registry.effectiveForProvider (some id) h.disabled)
        connection.capabilities.mcp).map (SessionServer.resolved h.secrets)).map
          encodeServer)).map McpServer.name ↔
      ∃ entry, (name, entry) ∈ registry.effectiveForProvider (some id) h.disabled ∧
        connection.capabilities.mcp.supports entry.transport ∧
        Complete entry.transport entry.command entry.url := by
    intro name
    rw [mem_mcpServers]
    simp only [mem_sessionServers]
    constructor
    · rintro ⟨_, ⟨⟨name', entry⟩, hmem, hsupports, rfl⟩, rfl, -, hcomplete⟩
      exact ⟨entry, hmem, hsupports, hcomplete⟩
    · rintro ⟨entry, hmem, hsupports, hcomplete⟩
      exact ⟨_, ⟨(name, entry), hmem, hsupports, rfl⟩, rfl, hsupports, hcomplete⟩
  have hunique : ∀ name entry entry',
      (name, entry) ∈ registry.effectiveForProvider (some id) h.disabled →
      (name, entry') ∈ registry.effectiveForProvider (some id) h.disabled → entry = entry' := by
    intro name entry entry' he he'
    have hget := OrdMap.get_eq_some.mpr (List.mem_of_mem_filter he)
    have hget' := OrdMap.get_eq_some.mpr (List.mem_of_mem_filter he')
    exact Option.some.inj (hget.symm.trans hget')
  simp only [hwire, attached_iff hload hprofile hentry hgrid]
  constructor
  · rintro hiff ⟨name, entry⟩ hmem hsupports
    obtain ⟨entry', hmem', -, hcomplete⟩ := (hiff name).mp ⟨entry, hmem, hsupports⟩
    rw [hunique name entry entry' hmem hmem']
    exact hcomplete
  · intro hcomplete name
    constructor
    · rintro ⟨entry, hmem, hsupports⟩
      exact ⟨entry, hmem, hsupports, hcomplete (name, entry) hmem hsupports⟩
    · rintro ⟨entry, hmem, hsupports, -⟩
      exact ⟨entry, hmem, hsupports⟩

end Agreement

/-! ## A stdio server with and without a command -/

def echoText : String :=
  "\x7b\"mcpServers\":\x7b\"x\":\x7b\"type\":\"stdio\",\"command\":\"echo\"\x7d\x7d\x7d"

def bareText : String := "\x7b\"mcpServers\":\x7b\"x\":\x7b\"type\":\"stdio\"\x7d\x7d\x7d"

def echo : RegistryEntry where
  transport := .stdio
  command := some "echo"

def bare : RegistryEntry where
  transport := .stdio

def fileOf (entry : RegistryEntry) : RegistryFile where
  mcpServers := OrdMap.empty.insert "x" entry

/-- `serde_json` on the two texts. -/
def serverTexts : SerdeJson where
  parse text :=
    if text = echoText then
      some (.object [("mcpServers", .object [("x", .object [("type", .string "stdio"),
        ("command", .string "echo")])])])
    else if text = bareText then
      some (.object [("mcpServers", .object [("x", .object [("type", .string "stdio")])])])
    else none
  toStringPretty _ := echoText
  message _ := "expected value at line 1 column 1"

def agentKey : ConnectionKey := ⟨"agent-1", "local"⟩

/-- A v1 agent that takes only what every agent takes. -/
def agent : AgentConnection := .v1 ⟨false, false, false, false⟩

/-- One connected profile, and a workspace registry with the text. -/
def oneAgent (text : String) : Providers Unit where
  home := "/home/u"
  disk := {
    files := fun path => if path = "/ws/.tethys/mcp.json" then some text else none
    backups := fun _ => .empty
    pathHash := fun _ => "00000000" }
  disabled := []
  secrets := fun _ => .ok none
  profiles := OrdMap.empty.insert "agent-1" (agentKey, ⟨some .v1, none⟩)
  profiles_key := by decide
  store := [.connectedTo agentKey ⟨some .v1, none⟩ "Agent" agent]
  targetPath := fun _ => none
  row := fun _ _ => .ok none

def noDigests : Digests Unit := ⟨fun _ => (), fun _ => ()⟩

def noFormats : Formats where
  json _ := ⟨fun _ => .error "unexpected token", fun text _ => text⟩
  toml := ⟨fun _ => .error "invalid key", fun text _ => text⟩
  patch _ _ := ""

/-- An agent that answers nothing. -/
def silent : World Sync.Node where
  profileKey _ := none
  acquire _ := .error "closed"
  entry _ := none
  spawnServers _ _ _ := .error "closed"
  session _ _ := .error .cancelled
  wire _ := .v1
  send _ _ _ := .error .cancelled

theorem load_oneAgent :
    (oneAgent echoText).load serverTexts "/ws" = .ok ⟨{}, fileOf echo⟩ ∧
      (oneAgent bareText).load serverTexts "/ws" = .ok ⟨{}, fileOf bare⟩ := by
  have hglobal : ∀ text, readRegistry serverTexts (oneAgent text).disk
      (globalRegistryPath "/home/u") = .ok none := by
    intro text
    change readRegistry serverTexts (oneAgent "").disk (globalRegistryPath "/home/u") = .ok none
    decide +kernel
  have hecho : readRegistry serverTexts (oneAgent echoText).disk (workspaceRegistryPath "/ws") =
      .ok (some (fileOf echo)) := by decide +kernel
  have hbare : readRegistry serverTexts (oneAgent bareText).disk (workspaceRegistryPath "/ws") =
      .ok (some (fileOf bare)) := by decide +kernel
  constructor
  · rw [load, Registry.load, loadOrDefault, loadOrDefault]
    simp only [show ∀ text, (oneAgent text).home = "/home/u" from fun _ => rfl, hglobal, hecho]
    rfl
  · rw [load, Registry.load, loadOrDefault, loadOrDefault]
    simp only [show ∀ text, (oneAgent text).home = "/home/u" from fun _ => rfl, hglobal, hbare]
    rfl

/-- The grid of a registry with one server. -/
theorem mcpAttachments_oneAgent {text : String} {file : RegistryFile}
    (hload : (oneAgent text).load serverTexts "/ws" = .ok ⟨{}, file⟩) :
    ∃ grid, (oneAgent text).mcpAttachments serverTexts noDigests noFormats "/ws" = .ok grid := by
  rw [mcpAttachments, hload]
  exact ⟨_, rfl⟩

theorem effective_fileOf :
    (⟨{}, fileOf echo⟩ : Registry).effectiveForProvider (some "agent-1") [] = [("x", echo)] ∧
      (⟨{}, fileOf bare⟩ : Registry).effectiveForProvider (some "agent-1") [] = [("x", bare)] := by
  decide +kernel

/-- The two servers have no secrets. -/
theorem resolvable_oneAgent (text : String) :
    Resolvable (oneAgent text).secrets echo ∧ Resolvable (oneAgent text).secrets bare :=
  ⟨nofun, nofun⟩

theorem attached_iff_on_wire_echo :
    ∃ grid values,
      (oneAgent echoText).mcpAttachments serverTexts noDigests noFormats "/ws" = .ok grid ∧
      ((oneAgent echoText).world serverTexts silent).mcpServers "/ws" agentKey = .ok values ∧
      ∀ name, ⟨name, "agent-1", .attached⟩ ∈ grid.cells ↔
        name ∈ (agent.mcpServers values).map McpServer.name := by
  obtain ⟨grid, hgrid⟩ := mcpAttachments_oneAgent load_oneAgent.1
  have hprofile : (oneAgent echoText).profiles.get "agent-1" =
      some (agentKey, ⟨some .v1, none⟩) := rfl
  have heffective : ∀ P : String × RegistryEntry → Prop, P ("x", echo) →
      ∀ e ∈ (⟨{}, fileOf echo⟩ : Registry).effectiveForProvider (some "agent-1") [], P e := by
    rw [effective_fileOf.1]
    simp
  obtain ⟨values, hvalues, hiff⟩ := attached_iff_on_wire silent load_oneAgent.1 hprofile rfl
    (heffective _ (resolvable_oneAgent echoText).1) hgrid
  refine ⟨grid, values, hgrid, hvalues, hiff.mpr ?_⟩
  exact heffective _ fun _ => rfl

/-- A stdio server without a command is shown as attached and left out of the request. -/
theorem commandless_not_sent :
    ∃ grid values,
      (oneAgent bareText).mcpAttachments serverTexts noDigests noFormats "/ws" = .ok grid ∧
      ((oneAgent bareText).world serverTexts silent).mcpServers "/ws" agentKey = .ok values ∧
      ⟨"x", "agent-1", .attached⟩ ∈ grid.cells ∧
      "x" ∉ (agent.mcpServers values).map McpServer.name := by
  obtain ⟨grid, hgrid⟩ := mcpAttachments_oneAgent load_oneAgent.2
  have hprofile : (oneAgent bareText).profiles.get "agent-1" =
      some (agentKey, ⟨some .v1, none⟩) := rfl
  have heffective : (⟨{}, fileOf bare⟩ : Registry).effectiveForProvider (some "agent-1")
      (oneAgent bareText).disabled = [("x", bare)] := effective_fileOf.2
  have hresolvable : ∀ e ∈ (⟨{}, fileOf bare⟩ : Registry).effectiveForProvider (some "agent-1")
      (oneAgent bareText).disabled, Resolvable (oneAgent bareText).secrets e.2 := by
    rw [heffective]
    simp [(resolvable_oneAgent bareText).2]
  refine ⟨grid, _, hgrid, mcpServers_eq_ok silent load_oneAgent.2 hprofile rfl hresolvable, ?_, ?_⟩
  · refine (attached_iff load_oneAgent.2 hprofile rfl hgrid "x").mpr ⟨bare, ?_, rfl⟩
    rw [heffective]
    exact List.mem_singleton_self _
  · rw [heffective]
    decide +kernel

end Providers

end Tethys.Core
