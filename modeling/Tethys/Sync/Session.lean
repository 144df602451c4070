import Tethys.Lib.Paths
import Tethys.Lib.Text
import Tethys.Sync.Migration

/-!
# Session handoff

`tethys-sync/src/session.rs`: the effective entries of the registry become the servers that
are handed to a session, filtered by the transports of the agent and with every secret
resolved. The keychain is a parameter. A server crosses to the ACP crate as a JSON value.
-/

namespace Tethys.Sync

open Schema Lib Serde

/-- The text of an error. -/
def SyncError.display : SyncError → String
  | .registry message => "invalid registry: " ++ message
  | .parse path message => "invalid config " ++ path ++ ": " ++ message
  | .unsupported what => "unsupported: " ++ what
  | .stalePlan path => "stale plan for " ++ path ++ ": the file changed after the plan was created"
  | .conflict message => "conflict: " ++ message
  | .missingSecrets refs => "missing secret reference(s): " ++ ", ".intercalate refs
  | .secretStore message => "secret store: " ++ message
  | .notFound what => "not found: " ++ what
  | .io message => "I/O error: " ++ message

/-! ## The registry -/

/-- Global registry path for a home directory. -/
def globalRegistryPath (home : String) : String := joinText (joinText home ".tethys") "mcp.json"

/-- Workspace registry path for a workspace root. -/
def workspaceRegistryPath (root : String) : String := joinText (joinText root ".tethys") "mcp.json"

def loadOrDefault (S : SerdeJson) (disk : Disk) (path : String) : Except SyncError RegistryFile :=
  (readRegistry S disk path).map fun file => file.getD {}

namespace Registry

/-- Loads both scopes; a missing file is an empty registry. -/
def load (S : SerdeJson) (disk : Disk) (global workspace : String) :
    Except SyncError Registry := do
  let globalFile ← loadOrDefault S disk global
  let workspaceFile ← loadOrDefault S disk workspace
  return { global := globalFile, workspace := workspaceFile }

/-- Merged view with each entry's scope. -/
def merged (r : Registry) : OrdMap String (Scope × RegistryEntry) :=
  (r.global.mcpServers.map fun entry => (Scope.global, entry)).extend
    (r.workspace.mcpServers.map fun entry => (Scope.workspace, entry)).entries

/-- The merged view has the entries that the effective ones are taken from. -/
theorem get_merged (r : Registry) (name : String) :
    (r.merged.get name).map Prod.snd = r.mergedServers.get name := by
  rw [merged, mergedServers, OrdMap.get_extend_entries, OrdMap.get_extend_entries,
    OrdMap.get_map, OrdMap.get_map]
  cases r.workspace.mcpServers.get name <;> cases r.global.mcpServers.get name <;> rfl

end Registry

/-! ## Secrets -/

/-- Keychain account prefix used by registry `secretRef` values. -/
def secretRefPrefix : String := "keychain:tethys/"

/-- Extracts the account from a canonical `secretRef`. -/
def parseSecretRef (reference : String) : Option String :=
  (stripPrefix secretRefPrefix.toList reference.toList).bind fun account =>
    if account = [] then none else some (String.ofList account)

/-- `SecretStore::get`. -/
abbrev SecretStore := String → Except SyncError (Option String)

/-- A value with its secret in place of the reference, or the reference that is missing. -/
def resolveValue (store : SecretStore) :
    RegistryValue → Except SyncError (RegistryValue × List String)
  | .plain text => .ok (.plain text, [])
  | .secret secretRef =>
    match parseSecretRef secretRef with
    | none => .ok (.secret secretRef, [secretRef])
    | some account =>
      (store account).map fun
        | some secret => (.plain secret, [])
        | none => (.secret secretRef, [secretRef])

/-- The values of a map, in the order of their names. -/
def resolveMap (store : SecretStore) (values : OrdMap String RegistryValue) :
    Except SyncError (OrdMap String RegistryValue × List String) := do
  let resolved ← values.entries.mapM fun e =>
    (resolveValue store e.2).map fun r => ((e.1, r.1), r.2)
  return (.ofList (resolved.map Prod.fst), (resolved.map Prod.snd).flatten)

def resolveServer (store : SecretStore) (server : SessionServer) :
    Except SyncError (SessionServer × List String) := do
  let (env, missingEnv) ← resolveMap store server.env
  let (headers, missingHeaders) ← resolveMap store server.headers
  return ({ server with env := env, headers := headers }, missingEnv ++ missingHeaders)

/-- Replaces every `secretRef` with its keychain value; a missing reference fails with the
full list. -/
def resolveSecrets (servers : List SessionServer) (store : SecretStore) :
    Except SyncError (List SessionServer) := do
  let resolved ← servers.mapM (resolveServer store)
  let missing := (resolved.map Prod.snd).flatten
  if missing = [] then return resolved.map Prod.fst
  else throw (.missingSecrets missing)

/-! ## The servers of a session -/

def sessionServer (name : String) (entry : RegistryEntry) : SessionServer where
  name := name
  transport := entry.transport
  command := entry.command
  args := entry.args
  env := entry.env
  url := entry.url
  headers := entry.headers

/-- Filters effective entries by the agent's advertised transports. -/
def sessionServers (entries : List (String × RegistryEntry)) (transports : McpTransports) :
    List SessionServer :=
  (entries.filter fun e => transports.supports e.2.transport).map fun e => sessionServer e.1 e.2

/-- Loads the registry, filters by provider and transports, and resolves secrets. -/
def spawnServersForProvider (S : SerdeJson) (disk : Disk) (home workspaceRoot : String)
    (providerId : Option String) (disabled : List String) (transports : McpTransports)
    (store : SecretStore) : Except SyncError (List SessionServer) := do
  let registry ← Registry.load S disk (globalRegistryPath home) (workspaceRegistryPath workspaceRoot)
  let effective := registry.effectiveForProvider providerId disabled
  let servers := sessionServers effective transports
  resolveSecrets servers store

def encodeServer (server : SessionServer) : Node :=
  .object [
    ("name", .string server.name),
    ("transport", .string server.transport.asStr),
    ("command", encodeOption .string server.command),
    ("args", .array (server.args.map .string)),
    ("env", encodeMap encodeValue server.env),
    ("url", encodeOption .string server.url),
    ("headers", encodeMap encodeValue server.headers)]

def decodeServer (value : Node) : Option SessionServer :=
  match structFields ["name", "transport", "command", "args", "env", "url", "headers"] value with
  | some [some name, some transport, command, args, env, url, headers] => do
    let name ← string name
    let transport ← unitVariant transportVariant transport
    let command ← orDefault none (option string) command
    let args ← orDefault [] (vec string) args
    let env ← orDefault .empty (btreeMap decodeValue) env
    let url ← orDefault none (option string) url
    let headers ← orDefault .empty (btreeMap decodeValue) headers
    return { name, transport, command, args, env, url, headers }
  | _ => none

theorem decodeServer_encode (server : SessionServer) :
    decodeServer (encodeServer server) = some server := by
  obtain ⟨name, transport, command, args, env, url, headers⟩ := server
  have hfields : structFields ["name", "transport", "command", "args", "env", "url", "headers"]
      (encodeServer ⟨name, transport, command, args, env, url, headers⟩) =
        some [some (.string name), some (.string transport.asStr),
          some (encodeOption .string command), some (.array (args.map .string)),
          some (encodeMap encodeValue env), some (encodeOption .string url),
          some (encodeMap encodeValue headers)] := rfl
  have hstring := option_encode string .string (fun _ => rfl) (fun _ => nofun)
  have hargs := vec_encode string .string (fun _ => rfl) args
  simp only [decodeServer, hfields, orDefault, hstring, hargs, btreeMap_encodeValue,
    transportVariant_asStr]
  rfl

/-! ## With every secret in the keychain -/

/-- The keychain has the secret of the value, if it is a reference. -/
def RegistryValue.Resolvable (store : SecretStore) (value : RegistryValue) : Prop :=
  ∀ secretRef, value = .secret secretRef →
    ∃ account secret, parseSecretRef secretRef = some account ∧ store account = .ok (some secret)

/-- The keychain has every secret of the entry. -/
def Resolvable (store : SecretStore) (entry : RegistryEntry) : Prop :=
  ∀ e ∈ entry.env.entries ++ entry.headers.entries, RegistryValue.Resolvable store e.2

/-- The value of a reference that the keychain has. -/
def secretOf (store : SecretStore) : RegistryValue → RegistryValue
  | .plain text => .plain text
  | .secret secretRef =>
    match (parseSecretRef secretRef).map store with
    | some (.ok (some secret)) => .plain secret
    | _ => .secret secretRef

def SessionServer.resolved (store : SecretStore) (server : SessionServer) : SessionServer :=
  { server with env := server.env.map (secretOf store), headers := server.headers.map (secretOf store) }

theorem resolveValue_eq_ok {store : SecretStore} {value : RegistryValue}
    (h : RegistryValue.Resolvable store value) :
    resolveValue store value = .ok (secretOf store value, []) := by
  cases value with
  | plain text => rfl
  | secret secretRef =>
    obtain ⟨account, secret, hparse, hstore⟩ := h secretRef rfl
    simp [resolveValue, secretOf, hparse, hstore, Except.map]

theorem resolveMap_eq_ok {store : SecretStore} {values : OrdMap String RegistryValue}
    (h : ∀ e ∈ values.entries, RegistryValue.Resolvable store e.2) :
    resolveMap store values = .ok (values.map (secretOf store), []) := by
  have hm : values.entries.mapM (fun e =>
      (resolveValue store e.2).map fun r => ((e.1, r.1), r.2)) =
        .ok (values.entries.map fun e => ((e.1, secretOf store e.2), ([] : List String))) :=
    mapM_eq_ok fun e he => by
      rw [resolveValue_eq_ok (h e he)]
      rfl
  have hentries : values.entries.map (fun e => (e.1, secretOf store e.2)) =
      (values.map (secretOf store)).entries := rfl
  simp [resolveMap, hm, hentries, OrdMap.ofList_entries, Function.comp_def]

/-- The servers of resolvable entries go out with their secrets, and nothing else changes. -/
theorem resolveSecrets_eq_ok {store : SecretStore} {entries : List (String × RegistryEntry)}
    {transports : McpTransports} (h : ∀ e ∈ entries, Resolvable store e.2) :
    resolveSecrets (sessionServers entries transports) store =
      .ok ((sessionServers entries transports).map (SessionServer.resolved store)) := by
  have hm : (sessionServers entries transports).mapM (resolveServer store) =
      .ok ((sessionServers entries transports).map fun server =>
        (SessionServer.resolved store server, ([] : List String))) := by
    refine mapM_eq_ok fun server hserver => ?_
    obtain ⟨e, he, rfl⟩ := List.mem_map.mp hserver
    have hentry := h e (List.mem_of_mem_filter he)
    have henv : resolveMap store (sessionServer e.1 e.2).env = _ :=
      resolveMap_eq_ok fun v hv => hentry v (List.mem_append_left _ hv)
    have hheaders : resolveMap store (sessionServer e.1 e.2).headers = _ :=
      resolveMap_eq_ok fun v hv => hentry v (List.mem_append_right _ hv)
    rw [resolveServer, henv, hheaders]
    rfl
  simp [resolveSecrets, hm, Function.comp_def, bind, Except.bind, pure, Except.pure]

/-! ## What comes out is resolved -/

/-- Every value of the server is a text. -/
def Plain (server : SessionServer) : Prop :=
  ∀ e ∈ server.env.entries ++ server.headers.entries, ∃ text, e.2 = .plain text

theorem resolveValue_plain {store : SecretStore} {value value' : RegistryValue}
    (h : resolveValue store value = .ok (value', [])) : ∃ text, value' = .plain text := by
  cases value with
  | plain text => exact ⟨text, by simpa [resolveValue] using h.symm⟩
  | secret secretRef =>
    simp only [resolveValue] at h
    split at h
    · simp at h
    · obtain ⟨found, -, h⟩ := map_eq_ok h
      cases found with
      | none => simp at h
      | some secret => exact ⟨secret, by simpa using h.symm⟩

theorem resolveMap_plain {store : SecretStore} {values values' : OrdMap String RegistryValue}
    (h : resolveMap store values = .ok (values', [])) :
    ∀ e ∈ values'.entries, ∃ text, e.2 = .plain text := by
  obtain ⟨resolved, hm, h⟩ := bind_eq_ok h
  obtain ⟨rfl, hmissing⟩ := Prod.mk.inj (Except.ok.inj h)
  intro e he
  obtain ⟨r, hr, hfst⟩ := List.mem_map.mp (OrdMap.mem_of_get_ofList (OrdMap.get_eq_some.mpr he))
  have hnone : r.2 = [] := List.flatten_eq_nil_iff.mp hmissing _ (List.mem_map_of_mem hr)
  obtain ⟨a, -, ha⟩ := (mem_of_mapM_eq_ok hm).1 r hr
  obtain ⟨⟨value, missing⟩, hvalue, rfl⟩ := map_eq_ok ha
  obtain rfl : missing = [] := hnone
  obtain ⟨text, htext⟩ := resolveValue_plain hvalue
  exact ⟨text, (congrArg Prod.snd hfst).symm.trans htext⟩

theorem resolveServer_plain {store : SecretStore} {server server' : SessionServer}
    (h : resolveServer store server = .ok (server', [])) : Plain server' := by
  obtain ⟨⟨env, missingEnv⟩, henv, h⟩ := bind_eq_ok h
  obtain ⟨⟨headers, missingHeaders⟩, hheaders, h⟩ := bind_eq_ok h
  obtain ⟨rfl, hmissing⟩ := Prod.mk.inj (Except.ok.inj h)
  obtain ⟨rfl, rfl⟩ := List.append_eq_nil_iff.mp hmissing
  intro e he
  rcases List.mem_append.mp he with he | he
  · exact resolveMap_plain henv e he
  · exact resolveMap_plain hheaders e he

/-- No reference is left in what the resolution hands over. -/
theorem plain_of_resolveSecrets {store : SecretStore} {servers resolved : List SessionServer}
    (h : resolveSecrets servers store = .ok resolved) : ∀ server ∈ resolved, Plain server := by
  obtain ⟨rs, hm, h⟩ := bind_eq_ok h
  dsimp only at h
  split_ifs at h with hmissing
  obtain rfl := Except.ok.inj h
  intro server hserver
  obtain ⟨⟨server', missing⟩, hr, rfl⟩ := List.mem_map.mp hserver
  obtain rfl : missing = [] := List.flatten_eq_nil_iff.mp hmissing _ (List.mem_map_of_mem hr)
  obtain ⟨source, -, hsource⟩ := (mem_of_mapM_eq_ok hm).1 _ hr
  exact resolveServer_plain hsource

end Tethys.Sync
