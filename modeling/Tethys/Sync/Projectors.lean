import Tethys.Sync.Documents

/-!
# Per-target projectors

`projectors/`: the field mapping of each target, and the edit that puts one registry entry
into its config file. Claude Code keeps servers in `mcpServers`, OpenCode in `mcp.servers`
(the flat legacy shape `mcp.<name>` is only read), Codex in the table `mcp_servers`.
-/

namespace Tethys.Sync

open Schema Lib

/-- Maps registry entries into one target's config file format. -/
structure Projector where
  target : TargetId
  inject : String → String → RegistryEntry → Except SyncError String
  readEntries : String → Except SyncError (OrdMap String RegistryEntry)

/-- Renders a value the way Claude Code expects: literal or `${KEY}`. -/
def claudeRef (key : String) : RegistryValue → String
  | .plain text => text
  | .secret _ => "$\x7b" ++ key ++ "\x7d"

/-- Renders a value the way OpenCode expects: literal or `{env:KEY}`. -/
def opencodeRef (key : String) : RegistryValue → String
  | .plain text => text
  | .secret _ => "\x7benv:" ++ key ++ "\x7d"

/-- First secret-valued env key, used for Codex bearer auth. -/
def secretEnvKey (entry : RegistryEntry) : Option String :=
  (entry.env.entries.find? fun e => e.2.secretRef.isSome).map Prod.fst

/-- What stands between an opening and a final brace. -/
def reference (opening text : String) : Option (List Char) :=
  (text.toList.dropPrefix? opening.toList).bind fun rest =>
    if rest.getLast? = some '\x7d' then some rest.dropLast else none

/-- The part before the first `:-`. -/
def untilDefault : List Char → List Char
  | ':' :: '-' :: _ => []
  | c :: cs => c :: untilDefault cs
  | [] => []

/-- Inverse of `claudeRef` and `opencodeRef`: maps indirection to a keychain ref. -/
def importValue (text : String) : RegistryValue :=
  match reference "$\x7b" text, reference "\x7benv:" text with
  | some inner, _ => .secret ("keychain:tethys/" ++ String.ofList (untilDefault inner))
  | none, some inner => .secret ("keychain:tethys/" ++ String.ofList inner)
  | none, none => .plain text

/-- Transport inferred from a raw entry shape when no explicit type is present. -/
def inferTransport (explicit : Option String) (hasUrl hasCommand : Bool) : TransportKind :=
  match explicit with
  | some "http" | some "remote" => .http
  | some "sse" => .sse
  | some "stdio" | some "local" => .stdio
  | _ => if hasUrl ∧ ¬ hasCommand then .http else .stdio

/-- A field of an object as a `serde_json` map has it: the last member of a name stays. -/
def field (members : Members) (key : String) : Option Node := members.reverse.lookup key

def stringList (value : Option Node) : List String :=
  match value.bind Node.asArray with
  | some items => items.filterMap Node.asStr
  | none => []

def stringMap (value : Option Node) : OrdMap String RegistryValue :=
  match value.bind Node.asObject with
  | some members =>
    .ofList ((OrdMap.ofList members).entries.filterMap fun e =>
      e.2.asStr.map fun text => (e.1, importValue text))
  | none => .empty

/-- The objects among the members of a server table, as registry entries. -/
def entriesFromObject (entryFromValue : Node → Option RegistryEntry) (servers : Members) :
    List (String × RegistryEntry) :=
  servers.filterMap fun e => (entryFromValue e.2).map fun entry => (e.1, entry)

/-- The values of a map as the fields of an object. -/
def refObject (ref : String → RegistryValue → String) (map : OrdMap String RegistryValue) : Node :=
  .object (map.entries.map fun e => (e.1, .string (ref e.1 e.2)))

def requireCommand (entry : RegistryEntry) : Except SyncError String :=
  match entry.command with
  | some command => .ok command
  | none => .error (.registry "stdio entry requires a command")

def requireUrl (entry : RegistryEntry) : Except SyncError String :=
  match entry.url with
  | some url => .ok url
  | none => .error (.registry "http entry requires a url")

/-- The text that is parsed: a blank file is read as an empty object. -/
def jsonSource (original : String) : String := if blank original then "\x7b\x7d" else original

/-- The `inject` of the JSON targets: put the value of the entry into the server table that
`place` edits. -/
def injectJson (F : Formats) (loose : Bool) (label : String)
    (place : Members → (Members → Members) → Members)
    (entryValue : RegistryEntry → Except SyncError Node)
    (original name : String) (entry : RegistryEntry) : Except SyncError String :=
  if entry.transport = .sse then .error (.unsupported label)
  else do
    let root ← JsonCst.parse F (jsonSource original) loose
    let object ← JsonCst.rootObject root
    let value ← entryValue entry
    return (F.json loose).print (jsonSource original)
      (.object (place object fun servers => JsonCst.set servers name value))

namespace ClaudeCode

def entryFromValue : Node → Option RegistryEntry
  | .object map =>
    let command := (field map "command").bind Node.asStr
    let url := (field map "url").bind Node.asStr
    some {
      transport :=
        inferTransport ((field map "type").bind Node.asStr) url.isSome command.isSome
      command := command
      args := stringList (field map "args")
      env := stringMap (field map "env")
      url := url
      headers := stringMap (field map "headers") }
  | _ => none

def entryValue (entry : RegistryEntry) : Except SyncError Node := do
  let type := ("type", .string entry.transport.asStr)
  match entry.transport with
  | .stdio =>
    let command ← requireCommand entry
    let args := if entry.args.isEmpty then [] else [("args", .array (entry.args.map .string))]
    let env := if entry.env.entries.isEmpty then [] else [("env", refObject claudeRef entry.env)]
    return .object (type :: ("command", .string command) :: (args ++ env))
  | .http =>
    let url ← requireUrl entry
    let headers := if entry.headers.entries.isEmpty then []
      else [("headers", refObject claudeRef entry.headers)]
    return .object (type :: ("url", .string url) :: headers)
  | .sse => throw (.unsupported "claude-code:sse")

def servers (root : Members) (f : Members → Members) : Members :=
  JsonCst.objectOrSet root "mcpServers" f

def inject (F : Formats) : String → String → RegistryEntry → Except SyncError String :=
  injectJson F false "claude-code:sse" servers entryValue

def readEntries (F : Formats) (original : String) :
    Except SyncError (OrdMap String RegistryEntry) :=
  if blank original then .ok .empty
  else do
    let root ← JsonCst.parse F original false
    match root.asObject.bind (JsonCst.object · "mcpServers") with
    | some servers => return .ofList (entriesFromObject entryFromValue servers)
    | none => return .empty

end ClaudeCode

def claudeCode (F : Formats) : Projector where
  target := .claudeCode
  inject := ClaudeCode.inject F
  readEntries := ClaudeCode.readEntries F

namespace OpenCode

/-- The command is a text with separate arguments, or a list that starts with it. -/
def commandLine (map : Members) : Option String × List String :=
  match field map "command" with
  | some (.string text) => (some text, stringList (field map "args"))
  | some (.array items) =>
    match stringList (some (.array items)) with
    | [] => (none, stringList (field map "args"))
    | command :: args => (some command, args)
  | _ => (none, stringList (field map "args"))

def entryFromValue : Node → Option RegistryEntry
  | .object map =>
    let (command, args) := commandLine map
    let url := (field map "url").bind Node.asStr
    some {
      transport :=
        inferTransport ((field map "type").bind Node.asStr) url.isSome command.isSome
      command := command
      args := args
      env := stringMap ((field map "environment").or (field map "env"))
      url := url
      headers := stringMap (field map "headers") }
  | _ => none

def entryValue (entry : RegistryEntry) : Except SyncError Node := do
  match entry.transport with
  | .stdio =>
    let command ← requireCommand entry
    let environment := if entry.env.entries.isEmpty then []
      else [("environment", refObject opencodeRef entry.env)]
    return .object (("type", .string "local") ::
      ("command", .array (.string command :: entry.args.map .string)) :: environment)
  | .http =>
    let url ← requireUrl entry
    let headers := if entry.headers.entries.isEmpty then []
      else [("headers", refObject opencodeRef entry.headers)]
    return .object (("type", .string "remote") :: ("url", .string url) :: headers)
  | .sse => throw (.unsupported "opencode:sse")

def servers (root : Members) (f : Members → Members) : Members :=
  JsonCst.objectOrSet root "mcp" fun mcp => JsonCst.objectOrSet mcp "servers" f

def inject (F : Formats) : String → String → RegistryEntry → Except SyncError String :=
  injectJson F true "opencode:sse" servers entryValue

/-- The flat entries beside `servers`, marked as legacy. -/
def legacyEntries (mcp : Members) : List (String × RegistryEntry) :=
  (entriesFromObject entryFromValue (mcp.filter fun e => e.1 ≠ "servers")).map fun e =>
    (e.1, { e.2 with entryMeta.legacy := true })

def readEntries (F : Formats) (original : String) :
    Except SyncError (OrdMap String RegistryEntry) :=
  if blank original then .ok .empty
  else do
    let root ← JsonCst.parse F original true
    match root.asObject.bind (JsonCst.object · "mcp") with
    | some mcp =>
      let servers := (JsonCst.object mcp "servers").getD []
      return (OrdMap.ofList (entriesFromObject entryFromValue servers)).extend (legacyEntries mcp)
    | none => return .empty

end OpenCode

def openCode (F : Formats) : Projector where
  target := .openCode
  inject := OpenCode.inject F
  readEntries := OpenCode.readEntries F

namespace Codex

def entryTable (entry : RegistryEntry) : Except SyncError Members := do
  match entry.transport with
  | .stdio =>
    let command ← requireCommand entry
    let table := insertSorted "command" (.string command) []
    let table := if entry.args.isEmpty then table
      else insertSorted "args" (.array (entry.args.map .string)) table
    let plain := entry.env.entries.filterMap fun e => e.2.asPlain.map fun text => (e.1, text)
    let env := plain.foldl (fun env e => insertSorted e.1 (.string e.2) env) []
    return if plain.isEmpty then table else insertSorted "env" (.table env) table
  | .http =>
    let url ← requireUrl entry
    let table := insertSorted "url" (.string url) []
    return match secretEnvKey entry with
      | some key => insertSorted "bearer_token_env_var" (.string key) table
      | none => table
  | .sse => throw (.unsupported "codex:sse")

def entryFromTable (table : Members) : RegistryEntry :=
  let url := (table.lookup "url").bind Node.asStr
  let env := match (table.lookup "env").bind Node.asTable with
    | some env =>
      OrdMap.ofList (env.filterMap fun e => e.2.asStr.map fun text => (e.1, .plain text))
    | none => .empty
  { transport := if url.isSome then .http else .stdio
    command := (table.lookup "command").bind Node.asStr
    args := stringList (table.lookup "args")
    env := match (table.lookup "bearer_token_env_var").bind Node.asStr with
      | some key => env.insert key (.secret ("keychain:tethys/" ++ key))
      | none => env
    url := url }

/-- The document of a text; a blank file is a new document. -/
def document (F : Formats) (original : String) : Except SyncError Members :=
  if blank original then .ok [] else Toml.parse F original

def inject (F : Formats) (original name : String) (entry : RegistryEntry) :
    Except SyncError String :=
  if entry.transport = .sse then .error (.unsupported "codex:sse")
  else do
    let doc ← document F original
    let doc ← Toml.tableOrInsert doc "mcp_servers" fun servers =>
      (entryTable entry).map fun table => insertSorted name (.table table) servers
    return F.toml.print original doc

def readEntries (F : Formats) (original : String) :
    Except SyncError (OrdMap String RegistryEntry) :=
  if blank original then .ok .empty
  else do
    let doc ← Toml.parse F original
    match (doc.lookup "mcp_servers").bind Node.asTable with
    | some servers =>
      return .ofList (servers.filterMap fun e =>
        e.2.asTable.map fun table => (e.1, entryFromTable table))
    | none => return .empty

end Codex

def codex (F : Formats) : Projector where
  target := .codex
  inject := Codex.inject F
  readEntries := Codex.readEntries F

/-- The file projectors. -/
def projectors (F : Formats) : ProjectionTarget → Projector
  | .claudeCode => claudeCode F
  | .codex => codex F
  | .openCode => openCode F

end Tethys.Sync
