import Mathlib.Tactic.Common

/-!
# ACP v2 session updates

The part of the protocol schema (`agent_client_protocol::schema::v2`) that the mapper of
`tethys-acp/src/map_v2.rs` reads. The schema's enums are non-exhaustive: `unlisted` stands
for a constructor that the mapper does not name. A value that the mapper does not look
into is held as `Raw`, the text that `json_string` gives for it.
-/

namespace Tethys.Acp.V2

/-- A protocol value that is only ever serialized, as its JSON text. -/
abbrev Raw := String

/-- An optional field of the wire format: left out, `null`, or given. -/
inductive MaybeUndefined (α : Type) where
  | undefined | null | value (inner : α)
  deriving DecidableEq

/-- Content blocks. `raw` is the whole block, for the places that serialize it. -/
inductive ContentBlock where
  | text (text : String)
  | resourceLink (uri name : String) (mimeType : Option String) (raw : Raw)
  | image (mimeType data : String) (raw : Raw)
  | other (raw : Raw)
  deriving DecidableEq

structure ContentChunk where
  messageId : String
  content : ContentBlock
  deriving DecidableEq

/-- The payload of the three whole-message updates. -/
structure Message where
  messageId : String
  content : MaybeUndefined (List ContentBlock)
  deriving DecidableEq

inductive StopReason where
  | endTurn | maxTokens | maxTurnRequests | refusal | cancelled
  | other (reason : String)
  | unlisted
  deriving DecidableEq

inductive StateUpdate where
  | running
  | idle (stopReason : Option StopReason)
  | requiresAction
  | other (raw : Raw)
  deriving DecidableEq

inductive ToolCallStatus where
  | pending | inProgress | completed | failed | cancelled
  | other (status : String)
  | unlisted
  deriving DecidableEq

inductive ToolCallContent where
  | content (content : ContentBlock)
  | terminal (terminalId : String)
  | diff (raw : Raw)
  | other (raw : Raw)
  | unlisted
  deriving DecidableEq

/-- A tool-call patch; a location is held as its displayed path. -/
structure ToolCallUpdate where
  toolCallId : String
  title : MaybeUndefined String
  kind : MaybeUndefined Raw
  status : MaybeUndefined ToolCallStatus
  rawInput : MaybeUndefined Raw
  rawOutput : MaybeUndefined Raw
  locations : MaybeUndefined (List String)
  content : MaybeUndefined (List ToolCallContent)
  deriving DecidableEq

structure ToolCallContentChunk where
  toolCallId : String
  content : ToolCallContent
  deriving DecidableEq

structure TerminalOutputChunk where
  terminalId : String
  data : String
  deriving DecidableEq

inductive PlanEntryPriority where
  | high | medium | low | unlisted
  deriving DecidableEq

inductive PlanEntryStatus where
  | pending | inProgress | completed | unlisted
  deriving DecidableEq

structure PlanEntry where
  content : String
  priority : PlanEntryPriority
  status : PlanEntryStatus
  deriving DecidableEq

inductive PlanUpdateContent where
  | items (entries : List PlanEntry)
  | other (raw : Raw)
  deriving DecidableEq

structure AvailableCommand where
  name : String
  description : String
  input : Option Raw
  deriving DecidableEq

inductive SessionConfigSelectOptions where
  | ungrouped (values : List String)
  | unlisted
  deriving DecidableEq

inductive SessionConfigKind where
  | select (currentValue : String) (options : SessionConfigSelectOptions)
  | boolean (currentValue : Bool)
  | other
  | unlisted
  deriving DecidableEq

structure SessionConfigOption where
  configId : String
  name : String
  description : Option String
  kind : SessionConfigKind
  deriving DecidableEq

structure SessionInfoUpdate where
  title : MaybeUndefined String
  updatedAt : MaybeUndefined String
  deriving DecidableEq

/-- Tokens in use; `cost` holds the bits of the amount. -/
structure UsageUpdate where
  used : UInt64
  cost : Option UInt64
  deriving DecidableEq

inductive SessionUpdate where
  | userMessageChunk (chunk : ContentChunk)
  | agentMessageChunk (chunk : ContentChunk)
  | agentThoughtChunk (chunk : ContentChunk)
  | userMessage (message : Message)
  | agentMessage (message : Message)
  | agentThought (message : Message)
  | stateUpdate (state : StateUpdate)
  | toolCallUpdate (update : ToolCallUpdate)
  | toolCallContentChunk (chunk : ToolCallContentChunk)
  | terminalOutputChunk (chunk : TerminalOutputChunk)
  | planUpdate (plan : PlanUpdateContent)
  | availableCommandsUpdate (availableCommands : List AvailableCommand)
  | configOptionUpdate (configOptions : List SessionConfigOption)
  | sessionInfoUpdate (update : SessionInfoUpdate)
  | usageUpdate (update : UsageUpdate)
  | other (raw : Raw)
  deriving DecidableEq

end Tethys.Acp.V2
