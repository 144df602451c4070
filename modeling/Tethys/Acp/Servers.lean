import Tethys.Sync.Session

/-!
# MCP servers on the wire

`capabilities_v1`, `capabilities_v2`, `v1_mcp_servers` and `v2_mcp_servers` of
`tethys-acp/src/client.rs`: what an agent advertises, and the servers that are put into a
session request for it. A server comes in as a JSON value, and one that cannot be read, or
lacks what its transport needs, is left out.
-/

namespace Tethys.Acp

open Schema Lib Sync

/-- What a v1 agent answers to `initialize`. -/
structure AgentCapabilitiesV1 where
  loadSession : Bool
  mcpHttp : Bool
  mcpSse : Bool
  promptEmbeddedContext : Bool
  deriving DecidableEq

/-- Which MCP transports a v2 agent lists for its sessions. -/
structure McpCapabilitiesV2 where
  stdio : Bool
  http : Bool
  deriving DecidableEq

structure SessionCapabilitiesV2 where
  mcp : Option McpCapabilitiesV2
  prompt : Bool
  deriving DecidableEq

/-- What a v2 agent answers to `initialize`. -/
structure AgentCapabilitiesV2 where
  session : Option SessionCapabilitiesV2
  deriving DecidableEq

structure NormalizedCapabilities where
  loadSession : Bool
  resume : Bool
  mcp : McpTransports
  promptEmbeddedContext : Bool
  deriving DecidableEq

/-- A v1 agent takes stdio servers without saying so. -/
def capabilitiesV1 (capabilities : AgentCapabilitiesV1) : NormalizedCapabilities where
  loadSession := capabilities.loadSession
  resume := capabilities.loadSession
  mcp := {
    stdio := true
    http := capabilities.mcpHttp
    sse := capabilities.mcpSse }
  promptEmbeddedContext := capabilities.promptEmbeddedContext

/-- The v2 schema has no SSE transport. -/
def capabilitiesV2 (capabilities : AgentCapabilitiesV2) : NormalizedCapabilities where
  loadSession := false
  resume := capabilities.session.isSome
  mcp := {
    stdio := (capabilities.session.bind (·.mcp)).any (·.stdio)
    http := (capabilities.session.bind (·.mcp)).any (·.http)
    sse := false }
  promptEmbeddedContext := capabilities.session.any (·.prompt)

/-- A server in a session request. -/
inductive McpServer where
  | stdio (name command : String) (args : List String) (env : List (String × String))
  | http (name url : String) (headers : List (String × String))
  | sse (name url : String)
  deriving DecidableEq

def McpServer.name : McpServer → String
  | .stdio name .. => name
  | .http name .. => name
  | .sse name _ => name

def parseSessionServers (values : List Sync.Node) : List SessionServer := values.filterMap decodeServer

def resolvedValue : RegistryValue → Option String
  | .plain text => some text
  | .secret _ => none

/-- The variables or headers that have a value; an unresolved reference is never sent. -/
def resolvedValues (values : OrdMap String RegistryValue) : List (String × String) :=
  values.entries.filterMap fun e => (resolvedValue e.2).map fun value => (e.1, value)

def v1McpServer (transports : McpTransports) (server : SessionServer) : Option McpServer :=
  match server.transport with
  | .stdio =>
    if transports.stdio then
      server.command.map fun command =>
        .stdio server.name command server.args (resolvedValues server.env)
    else none
  | .http =>
    if transports.http then
      server.url.map fun url => .http server.name url (resolvedValues server.headers)
    else none
  | .sse => if transports.sse then server.url.map fun url => .sse server.name url else none

def v1McpServers (values : List Sync.Node) (transports : McpTransports) : List McpServer :=
  (parseSessionServers values).filterMap (v1McpServer transports)

def v2McpServer (transports : McpTransports) (server : SessionServer) : Option McpServer :=
  match server.transport with
  | .stdio =>
    if transports.stdio then
      server.command.map fun command =>
        .stdio server.name command server.args (resolvedValues server.env)
    else none
  | .http =>
    if transports.http then
      server.url.map fun url => .http server.name url (resolvedValues server.headers)
    else none
  | .sse => none

def v2McpServers (values : List Sync.Node) (transports : McpTransports) : List McpServer :=
  (parseSessionServers values).filterMap (v2McpServer transports)

/-- A connected agent, with what it advertised for its protocol version. -/
inductive AgentConnection where
  | v1 (capabilities : AgentCapabilitiesV1)
  | v2 (capabilities : AgentCapabilitiesV2)
  deriving DecidableEq

namespace AgentConnection

def capabilities : AgentConnection → NormalizedCapabilities
  | .v1 c => capabilitiesV1 c
  | .v2 c => capabilitiesV2 c

/-- The `mcpServers` of `new_session` and of `resume_session`. -/
def mcpServers (connection : AgentConnection) (values : List Sync.Node) : List McpServer :=
  match connection with
  | .v1 _ => v1McpServers values connection.capabilities.mcp
  | .v2 _ => v2McpServers values connection.capabilities.mcp

end AgentConnection

/-- What the transport of a server needs is there. -/
def Complete (transport : TransportKind) (command url : Option String) : Bool :=
  match transport with
  | .stdio => command.isSome
  | .http | .sse => url.isSome

variable {transports : McpTransports} {server : SessionServer} {name : String}

theorem v1McpServer_name :
    (v1McpServer transports server).map McpServer.name = some name ↔
      server.name = name ∧ transports.supports server.transport ∧
        Complete server.transport server.command server.url := by
  obtain ⟨name', transport, command, args, env, url, headers⟩ := server
  cases transport <;> cases command <;> cases url <;>
    simp [v1McpServer, McpTransports.supports, Complete, McpServer.name] <;> grind

theorem v2McpServer_name (hsse : transports.sse = false) :
    (v2McpServer transports server).map McpServer.name = some name ↔
      server.name = name ∧ transports.supports server.transport ∧
        Complete server.transport server.command server.url := by
  obtain ⟨name', transport, command, args, env, url, headers⟩ := server
  cases transport <;> cases command <;> cases url <;>
    simp [v2McpServer, McpTransports.supports, Complete, McpServer.name, hsse] <;> grind

/-- No server is lost between the crates. -/
theorem parseSessionServers_encode (servers : List SessionServer) :
    parseSessionServers (servers.map encodeServer) = servers := by
  rw [parseSessionServers, List.filterMap_map]
  have hdecode : decodeServer ∘ encodeServer = some := funext decodeServer_encode
  rw [hdecode, List.filterMap_some]

/-- The servers on the wire are those of a negotiated transport that have what it needs. -/
theorem mem_mcpServers (connection : AgentConnection) (servers : List SessionServer)
    (name : String) :
    name ∈ (connection.mcpServers (servers.map encodeServer)).map McpServer.name ↔
      ∃ server ∈ servers, server.name = name ∧
        connection.capabilities.mcp.supports server.transport ∧
        Complete server.transport server.command server.url := by
  cases connection with
  | v1 c =>
    simp only [AgentConnection.mcpServers, v1McpServers, parseSessionServers_encode, List.map_filterMap,
      List.mem_filterMap, v1McpServer_name]
  | v2 c =>
    simp only [AgentConnection.mcpServers, v2McpServers, parseSessionServers_encode, List.map_filterMap,
      List.mem_filterMap, v2McpServer_name (show (capabilitiesV2 c).mcp.sse = false from rfl),
      AgentConnection.capabilities]

end Tethys.Acp
