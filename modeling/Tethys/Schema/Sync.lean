import Tethys.Lib.OrdMap
import Mathlib.Data.String.Basic

/-!
# Sync engine wire types

The shapes of `tethys-schema/src/sync.rs` that the projection of the MCP registry into config
files reads and writes. Digests are kept abstract: `Hash` is the type of a printed hash.
-/

namespace Tethys.Schema

open Lib

inductive TargetId where
  | session | claudeCode | codex | openCode
  deriving DecidableEq

def TargetId.asStr : TargetId → String
  | .session => "session"
  | .claudeCode => "claude-code"
  | .codex => "codex"
  | .openCode => "opencode"

/-- A file surface that a registry entry can be projected to. -/
inductive ProjectionTarget where
  | claudeCode | codex | openCode
  deriving DecidableEq

def ProjectionTarget.targetId : ProjectionTarget → TargetId
  | .claudeCode => .claudeCode
  | .codex => .codex
  | .openCode => .openCode

inductive TransportKind where
  | stdio | http | sse
  deriving DecidableEq

def TransportKind.asStr : TransportKind → String
  | .stdio => "stdio"
  | .http => "http"
  | .sse => "sse"

inductive Scope where
  | global | workspace
  deriving DecidableEq

namespace Scope

def asStr : Scope → String
  | .global => "global"
  | .workspace => "workspace"

def parse : String → Option Scope
  | "global" => some .global
  | "workspace" => some .workspace
  | "project" => some .workspace
  | _ => none

end Scope

/-- A registry value: a literal string or a keychain reference. -/
inductive RegistryValue where
  | plain (value : String)
  | secret (secretRef : String)
  deriving DecidableEq

namespace RegistryValue

def asPlain : RegistryValue → Option String
  | .plain value => some value
  | .secret _ => none

def secretRef : RegistryValue → Option String
  | .plain _ => none
  | .secret secretRef => some secretRef

end RegistryValue

structure EntryMeta where
  scope : Option Scope := none
  providers : Option (List String) := none
  targets : Option (List TargetId) := none
  enabled : Bool := true
  legacy : Bool := false
  deriving DecidableEq

/-- The metadata as a file has it: `targets` is the first version's field. -/
structure EntryMetaRaw where
  scope : Option Scope
  providers : Option (List String)
  targets : Option (List TargetId)
  enabled : Bool
  legacy : Bool
  deriving DecidableEq

namespace EntryMeta

/-- The names of the targets that are not the session. -/
def nonSession (targets : List TargetId) : List String :=
  (targets.filter (· ≠ .session)).map TargetId.asStr

/-- `From<EntryMetaRaw>`: targets without a vendor leave `providers` open. -/
def ofRaw (raw : EntryMetaRaw) : EntryMeta where
  scope := raw.scope
  providers :=
    match raw.providers, raw.targets with
    | some p, _ => some p
    | none, some targets => if nonSession targets = [] then none else some (nonSession targets)
    | none, none => none
  targets := raw.targets
  enabled := raw.enabled
  legacy := raw.legacy

/-- Whether this entry is allowed for a provider. -/
def allowsProvider (m : EntryMeta) (providerId : String) : Bool :=
  match m.providers, m.targets with
  | some providers, _ => providers.contains providerId
  | none, some targets =>
    if nonSession targets = [] then true else (nonSession targets).contains providerId
  | none, none => true

/-- Whether this entry should be projected to a target. -/
def allows (m : EntryMeta) (target : TargetId) : Bool :=
  match m.targets with
  | some targets => targets.contains target
  | none => if target = .session then true else m.allowsProvider target.asStr

end EntryMeta

/-- One canonical MCP registry entry. -/
structure RegistryEntry where
  transport : TransportKind
  command : Option String := none
  args : List String := []
  env : OrdMap String RegistryValue := .empty
  url : Option String := none
  headers : OrdMap String RegistryValue := .empty
  entryMeta : EntryMeta := {}
  deriving DecidableEq

/-- Transports an agent advertised for a session. -/
structure McpTransports where
  stdio : Bool
  http : Bool
  sse : Bool
  deriving DecidableEq

/-- Whether a transport is among them. -/
def McpTransports.supports (mcp : McpTransports) : TransportKind → Bool
  | .stdio => mcp.stdio
  | .http => mcp.http
  | .sse => mcp.sse

/-- One MCP server handed to an agent session. -/
structure SessionServer where
  name : String
  transport : TransportKind
  command : Option String
  args : List String
  env : OrdMap String RegistryValue
  url : Option String
  headers : OrdMap String RegistryValue
  deriving DecidableEq

inductive EntryState where
  | pending | inSync | drifted | conflict | unsupported
  deriving DecidableEq

structure EntryProjection where
  name : String
  state : EntryState
  /-- whether the entry is part of the proposed file content -/
  projected : Bool
  notes : List String
  deriving DecidableEq

/-- Attachment state of an MCP server to a provider. -/
inductive AttachmentState where
  | attached
  | unsupportedTransport (needs : TransportKind)
  | fileProjection (target : ProjectionTarget) (state : EntryState)
  | excluded
  | notNegotiated
  deriving DecidableEq

structure ServerRow where
  name : String
  transport : TransportKind
  scope : Scope
  deriving DecidableEq

structure ProviderColumn where
  id : String
  name : String
  connected : Bool
  target : Option ProjectionTarget
  deriving DecidableEq

structure AttachmentCell where
  serverName : String
  providerId : String
  state : AttachmentState
  deriving DecidableEq

/-- The Servers × Providers attachment grid. -/
structure AttachmentGrid where
  servers : List ServerRow
  providers : List ProviderColumn
  cells : List AttachmentCell
  deriving DecidableEq

/-- Preview of one projected registry into one target file. -/
structure ProjectionPlan (Hash : Type) where
  target : TargetId
  path : String
  scope : Scope
  baseHash : Hash
  created : Bool
  diff : String
  content : String
  entries : List EntryProjection
  providers : List String

/-- Manifest record for one applied projection. -/
structure Applied (Hash : Type) where
  target : TargetId
  path : String
  scope : Scope
  fileHash : Hash
  created : Bool
  entries : OrdMap String Hash

end Tethys.Schema
