import Mathlib.Tactic.Common

/-!
# Thread, turn, and normalized agent-event model

The wire contract above the protocol adapters (`tethys-schema/src/thread.rs`): every agent
protocol translates into `TurnEventBody`, and a thread keeps the latest state of each
message, tool call, plan, terminal, permission and error as an `Entry`.
-/

namespace Tethys.Schema

inductive ThreadState where
  | idle | running | awaitingApproval | error | interrupted | suspended | archived
  deriving DecidableEq

/-- Three-state field for v2 patch semantics. -/
inductive Patch (α : Type) where
  | unchanged | clear | set (value : α)
  deriving DecidableEq

inductive StopReason where
  | endTurn | maxTokens | stopSequence | refusal | cancelled | error
  | other (reason : String)
  deriving DecidableEq

inductive SessionState where
  | running
  | idle (stopReason : Option StopReason)
  | requiresAction
  deriving DecidableEq

structure StateChanged where
  state : SessionState
  deriving DecidableEq

inductive Role where
  | user | agent | thought
  deriving DecidableEq

inductive ContentBlock where
  | text (text : String)
  | resourceLink (uri name : String) (mimeType : Option String)
  | image (mimeType data : String)
  | unknown (raw : String)
  deriving DecidableEq

structure MessageUpsert where
  messageId : String
  role : Role
  content : Patch (List ContentBlock)
  deriving DecidableEq

structure MessageChunk where
  messageId : String
  role : Role
  block : ContentBlock
  deriving DecidableEq

inductive ToolCallStatus where
  | pending | executing | completed | failed
  deriving DecidableEq

structure ToolCallPatch where
  title : Option String
  kind : Option String
  status : Option ToolCallStatus
  input : Option String
  output : Option String
  locations : List String
  deriving DecidableEq

inductive ToolCallContent where
  | text (text : String)
  | diff (path patch : String)
  | terminal (terminalId : String)
  | unknown (raw : String)
  deriving DecidableEq

inductive PlanEntryPriority where
  | high | medium | low
  deriving DecidableEq

inductive PlanEntryStatus where
  | pending | inProgress | completed
  deriving DecidableEq

structure PlanEntry where
  content : String
  priority : PlanEntryPriority
  status : PlanEntryStatus
  deriving DecidableEq

structure PlanContent where
  entries : List PlanEntry
  deriving DecidableEq

structure ConfigOption where
  id : String
  name : String
  description : Option String
  currentValue : String
  values : List String
  deriving DecidableEq

structure AgentCommand where
  name : String
  description : Option String
  input : Option String
  deriving DecidableEq

/-- Token counters; `cost` holds the bits of the source's `f64`. -/
structure UsageSnapshot where
  inputTokens : UInt32
  outputTokens : UInt32
  totalTokens : UInt32
  cost : Option UInt64
  deriving DecidableEq

structure SessionInfo where
  title : Option String
  updatedAt : Option String
  deriving DecidableEq

inductive PermissionSubject where
  | command (command : String)
  | toolCall (toolCallId : String)
  | file (path : String)
  | unknown (raw : String)
  deriving DecidableEq

structure PermOption where
  optionId : String
  name : String
  kind : Option String
  deriving DecidableEq

inductive PermOutcome where
  | approved | rejected | cancelled
  deriving DecidableEq

inductive Decider where
  | user | policy
  deriving DecidableEq

structure PermissionRequested where
  reqId : String
  title : String
  description : Option String
  subject : Option PermissionSubject
  options : List PermOption
  deriving DecidableEq

inductive WriteVia where
  | acpFs | watcher
  deriving DecidableEq

inductive CheckpointKind where
  | turnStart | turnEnd | manual
  deriving DecidableEq

/-- Normalized event model: one v2-shaped stream for all agents. -/
inductive TurnEventBody where
  | stateChanged (changed : StateChanged)
  | messageUpsert (upsert : MessageUpsert)
  | messageChunk (chunk : MessageChunk)
  | toolCallUpsert (toolCallId : String) (patch : ToolCallPatch)
  | toolCallContentChunk (toolCallId : String) (item : ToolCallContent)
  | terminalUpsert (terminalId : String) (patch : Patch String)
  | terminalOutputChunk (terminalId : String) (bytes : String)
  | planUpsert (planId : String) (plan : PlanContent)
  | configOptionsChanged (options : List ConfigOption)
  | commandsAvailable (commands : List AgentCommand)
  | sessionInfo (info : SessionInfo)
  | usage (snapshot : UsageSnapshot)
  | permissionRequested (request : PermissionRequested)
  | permissionResolved (reqId : String) (outcome : PermOutcome) (decidedBy : Decider)
  | fileWrite (path : String) (before : Option String) (after : String) (via : WriteVia)
  | checkpoint (oid : String) (kind : CheckpointKind)
  | error (code message : String) (retryable : Bool)
  | unknown (raw : String)
  deriving DecidableEq

/-- Materialized thread entry: the latest state per message, tool call, plan, terminal,
permission, or error. -/
inductive Entry where
  | message (messageId : String) (role : Role) (blocks : List ContentBlock)
  | toolCall (toolCallId : String) (patch : ToolCallPatch)
  | plan (planId : String) (plan : PlanContent)
  | terminal (terminalId : String) (output : String)
  | permission (reqId : String) (request : PermissionRequested) (outcome : Option PermOutcome)
  | error (code message : String)
  deriving DecidableEq

/-- Stable entry identity, used to dedupe replayed events. -/
def Entry.entryId : Entry → String
  | .message messageId _ _ => messageId
  | .toolCall toolCallId _ => toolCallId
  | .plan planId _ => planId
  | .terminal terminalId _ => terminalId
  | .permission reqId _ _ => reqId
  | .error _ _ => "error"

/-- The constructor of an entry, the `kind` tag of its serialized form. -/
inductive EntryKind where
  | message | toolCall | plan | terminal | permission | error
  deriving DecidableEq

def Entry.kind : Entry → EntryKind
  | .message .. => .message
  | .toolCall .. => .toolCall
  | .plan .. => .plan
  | .terminal .. => .terminal
  | .permission .. => .permission
  | .error .. => .error

/-- Sequenced event delivered to subscribers. -/
structure EventEnvelope where
  threadId : String
  seq : Nat
  event : TurnEventBody
  deriving DecidableEq

end Tethys.Schema
