import Tethys.Lib.Results
import Tethys.Sync.Projection

/-!
# The canonical registry

`registry.rs` and the serialized form of `tethys-schema/src/sync.rs`. The text of a JSON
value is a matter of `serde_json` and a parameter; what a derived `Deserialize` accepts is
written out over the parsed value: defaults, `null` for an absent option, unknown fields,
a struct given as an array by position, an enum given as an object with one unit variant.
The first version's `targets` are read and kept in memory, and never written.
-/

namespace Tethys.Sync

open Schema Lib

/-! ## Derived deserializers -/

namespace Serde

/-- The values a struct visitor finds for the named fields: by name in an object, where a
known name may occur once, or by position in an array. -/
def structFields (names : List String) : Node → Option (List (Option Node))
  | .object members =>
    names.mapM fun name =>
      match members.filter (·.1 = name) with
      | [] => some none
      | [member] => some (some member.2)
      | _ => none
  | .array items =>
    if items.length ≤ names.length then
      some (names.mapIdx fun i _ => items[i]?)
    else none
  | _ => none

def string : Node → Option String
  | .string value => some value
  | _ => none

def bool : Node → Option Bool
  | .scalar "true" => some true
  | .scalar "false" => some false
  | _ => none

/-- An integer literal in the range of `u32`. -/
def u32 : Node → Option Nat
  | .scalar text =>
    let value := text.toList.foldl (fun n c => 10 * n + (c.toNat - '0'.toNat)) 0
    if text ≠ "" ∧ text.toList.all Char.isDigit ∧ value < 2 ^ 32 then some value else none
  | _ => none

def vec {α : Type} (decode : Node → Option α) : Node → Option (List α)
  | .array items => items.mapM decode
  | _ => none

/-- `Option<T>`: `null` is `None`. -/
def option {α : Type} (decode : Node → Option α) : Node → Option (Option α)
  | .scalar "null" => some none
  | value => (decode value).map some

/-- A `BTreeMap`, where the last value of a name stays. -/
def btreeMap {α : Type} (decode : Node → Option α) : Node → Option (OrdMap String α)
  | .object members =>
    (members.mapM fun e => (decode e.2).map fun value => (e.1, value)).map .ofList
  | _ => none

/-- A field with a default for when it is missing. -/
def orDefault {α : Type} (default : α) (decode : Node → Option α) : Option Node → Option α
  | none => some default
  | some value => decode value

/-- A unit variant: its name, or an object with the name and `null`. -/
def unitVariant {α : Type} (parse : String → Option α) : Node → Option α
  | .string name => parse name
  | .object [(name, .scalar "null")] => parse name
  | _ => none

end Serde

open Serde

/-! ## The serialized form -/

/-- The `kebab-case` names that serde gives the variants. -/
def targetVariant : String → Option TargetId
  | "session" => some .session
  | "claude-code" => some .claudeCode
  | "codex" => some .codex
  | "open-code" => some .openCode
  | _ => none

def transportVariant : String → Option TransportKind
  | "stdio" => some .stdio
  | "http" => some .http
  | "sse" => some .sse
  | _ => none

def decodeScope (value : Node) : Option Scope := (string value).bind Scope.parse

/-- The untagged enum: a string, or the struct variant. Serde reads the struct variant of an
untagged enum from an object only, never from an array. -/
def decodeValue : Node → Option RegistryValue
  | .string text => some (.plain text)
  | .object members =>
    match structFields ["secretRef"] (.object members) with
    | some [some secretRef] => (string secretRef).map .secret
    | _ => none
  | _ => none

def decodeMetaRaw (value : Node) : Option EntryMetaRaw :=
  match structFields ["scope", "providers", "targets", "enabled", "legacy"] value with
  | some [scope, providers, targets, enabled, legacy] => do
    let scope ← orDefault none (option decodeScope) scope
    let providers ← orDefault none (option (vec string)) providers
    let targets ← orDefault none (option (vec (unitVariant targetVariant))) targets
    let enabled ← orDefault true bool enabled
    let legacy ← orDefault false bool legacy
    return { scope, providers, targets, enabled, legacy }
  | _ => none

def decodeMeta (value : Node) : Option EntryMeta := (decodeMetaRaw value).map .ofRaw

def decodeEntry (value : Node) : Option RegistryEntry :=
  match structFields ["type", "command", "args", "env", "url", "headers", "x-tethys"] value with
  | some [some transport, command, args, env, url, headers, entryMeta] => do
    let transport ← unitVariant transportVariant transport
    let command ← orDefault none (option string) command
    let args ← orDefault [] (vec string) args
    let env ← orDefault .empty (btreeMap decodeValue) env
    let url ← orDefault none (option string) url
    let headers ← orDefault .empty (btreeMap decodeValue) headers
    let entryMeta ← orDefault {} decodeMeta entryMeta
    return { transport, command, args, env, url, headers, entryMeta }
  | _ => none

/-- Current canonical registry format version. -/
def registryVersion : Nat := 2

/-- One registry file on disk. -/
structure RegistryFile where
  version : Nat := registryVersion
  mcpServers : OrdMap String RegistryEntry := .empty
  deriving DecidableEq

def decodeFile (value : Node) : Option RegistryFile :=
  match structFields ["version", "mcpServers"] value with
  | some [version, mcpServers] => do
    let version ← orDefault registryVersion u32 version
    let mcpServers ← orDefault .empty (btreeMap decodeEntry) mcpServers
    return { version, mcpServers }
  | _ => none

def encodeOption {α : Type} (encode : α → Node) : Option α → Node
  | none => .scalar "null"
  | some value => encode value

def encodeBool (value : Bool) : Node := .scalar (if value then "true" else "false")

def encodeMap {α : Type} (encode : α → Node) (m : OrdMap String α) : Node :=
  .object (m.entries.map fun e => (e.1, encode e.2))

def encodeValue : RegistryValue → Node
  | .plain text => .string text
  | .secret secretRef => .object [("secretRef", .string secretRef)]

/-- The field `targets` is not serialized. -/
def encodeMeta (m : EntryMeta) : Node :=
  .object [
    ("scope", encodeOption (fun scope => .string scope.asStr) m.scope),
    ("providers", encodeOption (fun providers => .array (providers.map .string)) m.providers),
    ("enabled", encodeBool m.enabled),
    ("legacy", encodeBool m.legacy)]

def encodeEntry (entry : RegistryEntry) : Node :=
  .object [
    ("type", .string entry.transport.asStr),
    ("command", encodeOption .string entry.command),
    ("args", .array (entry.args.map .string)),
    ("env", encodeMap encodeValue entry.env),
    ("url", encodeOption .string entry.url),
    ("headers", encodeMap encodeValue entry.headers),
    ("x-tethys", encodeMeta entry.entryMeta)]

def encodeFile (file : RegistryFile) : Node :=
  .object [
    ("version", .scalar (toString file.version)),
    ("mcpServers", encodeMap encodeEntry file.mcpServers)]

/-! ## Reading and writing -/

/-- `serde_json`: parsing a text into a value, printing a value over several lines, and the
message for a text or a value that is rejected. -/
structure SerdeJson where
  parse : String → Option Node
  toStringPretty : Node → String
  message : String → String

/-- Reads a registry file; `none` when the file does not exist. -/
def readRegistry (S : SerdeJson) (disk : Disk) (path : String) :
    Except SyncError (Option RegistryFile) :=
  match disk.files path with
  | none => .ok none
  | some text =>
    if blank text then .ok (some {})
    else match (S.parse text).bind decodeFile with
      | some file => .ok (some file)
      | none => .error (.parse path (S.message text))

/-- Writes a registry file atomically, optionally backing up the previous copy. -/
def writeRegistry (S : SerdeJson) (disk : Disk) (path : String) (file : RegistryFile)
    (backup : Option Nat) : Disk :=
  let disk := match backup with
    | some now => disk.backupFile path now
    | none => disk
  disk.writeAtomic path
    (S.toStringPretty (encodeFile { file with version := registryVersion }) ++ "\n")

/-- Global and workspace registries, merged on demand. -/
structure Registry where
  global : RegistryFile := {}
  workspace : RegistryFile := {}

namespace Registry

/-- Global entries, overridden by those of the workspace. -/
def mergedServers (r : Registry) : OrdMap String RegistryEntry :=
  r.global.mcpServers.extend r.workspace.mcpServers.entries

/-- Entries visible to a target: minus disabled entries and entries that exclude it. -/
def effective (r : Registry) (target : TargetId) (disabled : List String) :
    List (String × RegistryEntry) :=
  r.mergedServers.entries.filter fun e =>
    e.2.entryMeta.enabled && e.2.entryMeta.allows target && !disabled.contains e.1

/-- A name is visible once. -/
theorem nodup_effective (r : Registry) (target : TargetId) (disabled : List String) :
    ((r.effective target disabled).map Prod.fst).Nodup := by
  refine List.Nodup.sublist (List.filter_sublist.map _) ?_
  exact List.pairwise_map.mpr ((OrdMap.sorted _).imp fun h => ne_of_lt h)

/-- Entries visible to a provider. -/
def effectiveForProvider (r : Registry) (providerId : Option String) (disabled : List String) :
    List (String × RegistryEntry) :=
  r.mergedServers.entries.filter fun e =>
    e.2.entryMeta.enabled &&
      (match providerId with
        | some pid => e.2.entryMeta.allowsProvider pid
        | none => true) &&
      !disabled.contains e.1

end Registry

end Tethys.Sync
