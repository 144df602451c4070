import Tethys.Acp.Servers

/-!
# What a session request carries

The resolved servers of a session, as `v1_mcp_servers` and `v2_mcp_servers` put them on the
wire: whether a server arrives with its name, its command, arguments and environment, or its
URL and headers, in the order of the resolution.
-/

namespace Tethys.Acp

open Schema Lib Sync

/-- The headers that are sent. `McpServerSse::new` starts without any, and none is added. -/
def McpServer.headers : McpServer → List (String × String)
  | .stdio .. => []
  | .http _ _ headers => headers
  | .sse .. => []

/-- The values that are sent, as the registry has them. -/
def asPlain (values : List (String × String)) : List (String × RegistryValue) :=
  values.map fun e => (e.1, .plain e.2)

/-- The whole server is on the wire: every argument, every variable and every header. -/
def Carries (server : SessionServer) : McpServer → Prop
  | .stdio name command args env =>
    server.transport = .stdio ∧ server.name = name ∧ server.command = some command ∧
      server.args = args ∧ server.env.entries = asPlain env
  | .http name url headers =>
    server.transport = .http ∧ server.name = name ∧ server.url = some url ∧
      server.headers.entries = asPlain headers
  | .sse name url =>
    server.transport = .sse ∧ server.name = name ∧ server.url = some url ∧
      server.headers.entries = asPlain (McpServer.sse name url).headers

/-- The server is of a negotiated transport and has what the transport needs. -/
def onWireV1 (transports : McpTransports) (server : SessionServer) : Bool :=
  transports.supports server.transport && Complete server.transport server.command server.url

/-- On v2 no SSE server is sent, whatever was negotiated. -/
def onWireV2 (transports : McpTransports) (server : SessionServer) : Bool :=
  server.transport ≠ .sse && onWireV1 transports server

variable {transports : McpTransports} {server : SessionServer}

theorem onWireV1_eq : onWireV1 transports server = (v1McpServer transports server).isSome := by
  obtain ⟨name, transport, command, args, env, url, headers⟩ := server
  cases transport <;> simp [onWireV1, v1McpServer, McpTransports.supports, Complete] <;>
    split_ifs <;> simp_all

theorem onWireV2_eq : onWireV2 transports server = (v2McpServer transports server).isSome := by
  obtain ⟨name, transport, command, args, env, url, headers⟩ := server
  cases transport <;> simp [onWireV2, onWireV1, v2McpServer, McpTransports.supports, Complete] <;>
    split_ifs <;> simp_all

/-- Where every value is a text, none is dropped. -/
theorem asPlain_resolvedValues {values : OrdMap String RegistryValue}
    (h : ∀ e ∈ values.entries, ∃ text, e.2 = .plain text) :
    asPlain (resolvedValues values) = values.entries := by
  rw [asPlain, resolvedValues]
  generalize values.entries = l at h
  induction l with
  | nil => rfl
  | cons e l ih =>
    obtain ⟨⟨text, htext⟩, hl⟩ := List.forall_mem_cons.mp h
    obtain ⟨k, v⟩ := e
    obtain rfl : v = .plain text := htext
    simpa [resolvedValue] using ih hl

/-- What v1 sends for a server. -/
theorem v1McpServer_eq_some {wire : McpServer} (h : v1McpServer transports server = some wire) :
    (∃ command, server.transport = .stdio ∧ server.command = some command ∧
      wire = .stdio server.name command server.args (resolvedValues server.env)) ∨
    (∃ url, server.transport = .http ∧ server.url = some url ∧
      wire = .http server.name url (resolvedValues server.headers)) ∨
    (∃ url, server.transport = .sse ∧ server.url = some url ∧ wire = .sse server.name url) := by
  unfold v1McpServer at h
  split at h <;> split_ifs at h <;> obtain ⟨x, hx, rfl⟩ := Option.map_eq_some_iff.mp h
  · exact .inl ⟨x, ‹_›, hx, rfl⟩
  · exact .inr (.inl ⟨x, ‹_›, hx, rfl⟩)
  · exact .inr (.inr ⟨x, ‹_›, hx, rfl⟩)

/-- On v1 the headers of an SSE server stay behind, and nothing else does. -/
theorem v1McpServer_carries_iff (hplain : Plain server) {wire : McpServer}
    (h : v1McpServer transports server = some wire) :
    Carries server wire ↔ (server.transport = .sse → server.headers.entries = []) := by
  have henv := asPlain_resolvedValues fun e he => hplain e (List.mem_append_left _ he)
  have hheaders := asPlain_resolvedValues fun e he => hplain e (List.mem_append_right _ he)
  obtain ⟨command, ht, hc, rfl⟩ | ⟨url, ht, hu, rfl⟩ | ⟨url, ht, hu, rfl⟩ := v1McpServer_eq_some h
  · simp [Carries, ht, hc, henv]
  · simp [Carries, ht, hu, hheaders]
  · simp [Carries, ht, hu, McpServer.headers, asPlain]

/-- Apart from SSE, both versions send the same. -/
theorem v2McpServer_eq_some {wire : McpServer} (h : v2McpServer transports server = some wire) :
    server.transport ≠ .sse ∧ v1McpServer transports server = some wire := by
  unfold v2McpServer at h
  split at h <;> simp_all [v1McpServer]

/-- On v2 whatever is sent is sent whole. -/
theorem v2McpServer_carries (hplain : Plain server) {wire : McpServer}
    (h : v2McpServer transports server = some wire) : Carries server wire := by
  obtain ⟨hne, hv1⟩ := v2McpServer_eq_some h
  exact (v1McpServer_carries_iff hplain hv1).mpr fun hsse => absurd hsse hne

theorem v1McpServer_sse (hsse : server.transport = .sse) :
    (v1McpServer transports server).isSome ↔ transports.sse = true ∧ server.url.isSome := by
  simp only [v1McpServer, hsse]
  split_ifs with ht <;> simp [ht]

/-- The resolved servers that are sent arrive whole and in their order: on v2 always, on v1 if
and only if no SSE server that is sent has a header. -/
theorem wire_carries_iff {store : SecretStore} {servers resolved : List SessionServer}
    (h : resolveSecrets servers store = .ok resolved) (transports : McpTransports) :
    (List.Forall₂ Carries (resolved.filter (onWireV1 transports))
        (v1McpServers (resolved.map encodeServer) transports) ↔
      ∀ server ∈ resolved, server.transport = .sse → transports.sse = true →
        server.url.isSome → server.headers.entries = []) ∧
    List.Forall₂ Carries (resolved.filter (onWireV2 transports))
      (v2McpServers (resolved.map encodeServer) transports) := by
  have hplain := plain_of_resolveSecrets h
  rw [v1McpServers, v2McpServers, parseSessionServers_encode]
  constructor
  · rw [forall₂_filter_filterMap fun _ _ => onWireV1_eq]
    refine forall₂_congr fun server hserver => ⟨fun hall hsse ht hurl => ?_, fun hall wire hwire => ?_⟩
    · obtain ⟨wire, hwire⟩ := Option.isSome_iff_exists.mp ((v1McpServer_sse hsse).mpr ⟨ht, hurl⟩)
      exact (v1McpServer_carries_iff (hplain server hserver) hwire).mp (hall wire hwire) hsse
    · refine (v1McpServer_carries_iff (hplain server hserver) hwire).mpr fun hsse => ?_
      obtain ⟨ht, hurl⟩ := (v1McpServer_sse hsse).mp (Option.isSome_of_eq_some hwire)
      exact hall hsse ht hurl
  · rw [forall₂_filter_filterMap fun _ _ => onWireV2_eq]
    exact fun server hserver wire hwire => v2McpServer_carries (hplain server hserver) hwire

/-- An SSE server with a token in its headers. -/
def tokenServer : SessionServer where
  name := "docs"
  transport := .sse
  command := none
  args := []
  env := .empty
  url := some "https://docs.example/sse"
  headers := .ofList [("Authorization", .plain "Bearer t")]

theorem wire_carries_http :
    let server := { tokenServer with transport := .http }
    resolveSecrets [server] (fun _ => .ok none) = .ok [server] ∧
    List.Forall₂ Carries ([server].filter (onWireV1 ⟨true, true, true⟩))
      (v1McpServers ([server].map encodeServer) ⟨true, true, true⟩) := by
  intro server
  have h : resolveSecrets [server] (fun _ => .ok none) = .ok [server] := rfl
  exact ⟨h, (wire_carries_iff h ⟨true, true, true⟩).1.mpr (by simp [server])⟩

/-- The token of an SSE server is resolved and then not sent. -/
theorem sse_headers_dropped :
    resolveSecrets [tokenServer] (fun _ => .ok none) = .ok [tokenServer] ∧
    v1McpServers ([tokenServer].map encodeServer) ⟨true, true, true⟩ =
      [.sse "docs" "https://docs.example/sse"] ∧
    ¬ List.Forall₂ Carries ([tokenServer].filter (onWireV1 ⟨true, true, true⟩))
      (v1McpServers ([tokenServer].map encodeServer) ⟨true, true, true⟩) := by
  have hwire : v1McpServers ([tokenServer].map encodeServer) ⟨true, true, true⟩ =
      [.sse "docs" "https://docs.example/sse"] := by
    rw [v1McpServers, parseSessionServers_encode]
    rfl
  refine ⟨rfl, hwire, ?_⟩
  rw [hwire]
  rintro (_ | ⟨⟨-, -, -, hheaders⟩, -⟩)
  cases hheaders

end Tethys.Acp
