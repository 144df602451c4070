import Tethys.Acp.MapV2
import Mathlib.Algebra.Group.Nat.Defs

/-!
# ACP v1 to normalized events

`v1_update` of `tethys-acp/src/map.rs` and its helpers, branch by branch, with the ids that
`SyntheticMessageIds` gives to chunks without `messageId`, and what a v1 session emits over
its prompts (`AcpConnection::prompt`). The types that v1 shares with v2 in shape, and the
helpers that the two mappers have in common, are those of `Tethys.Acp.MapV2`.
-/

namespace Tethys.Acp

open Schema

namespace V1

open V2 (Raw MaybeUndefined SessionInfoUpdate UsageUpdate)

structure ContentChunk where
  messageId : Option String
  content : V2.ContentBlock
  deriving DecidableEq

inductive ToolCallStatus where
  | pending | inProgress | completed | failed | unlisted
  deriving DecidableEq

inductive ToolCallContent where
  | content (content : V2.ContentBlock)
  | terminal (terminalId : String)
  | diff (raw : Raw)
  | other (raw : Raw)
  deriving DecidableEq

/-- A new tool call; a location is held as its displayed path. -/
structure ToolCall where
  toolCallId : String
  title : String
  kind : Raw
  status : ToolCallStatus
  content : List ToolCallContent
  locations : List String
  rawInput : Option Raw
  rawOutput : Option Raw
  deriving DecidableEq

structure ToolCallUpdateFields where
  title : Option String
  kind : Option Raw
  status : Option ToolCallStatus
  content : Option (List ToolCallContent)
  locations : Option (List String)
  rawInput : Option Raw
  rawOutput : Option Raw
  deriving DecidableEq

structure ToolCallUpdate where
  toolCallId : String
  fields : ToolCallUpdateFields
  deriving DecidableEq

inductive StopReason where
  | endTurn | maxTokens | maxTurnRequests | refusal | cancelled | unlisted
  deriving DecidableEq

inductive SessionUpdate where
  | userMessageChunk (chunk : ContentChunk)
  | agentMessageChunk (chunk : ContentChunk)
  | agentThoughtChunk (chunk : ContentChunk)
  | toolCall (toolCall : ToolCall)
  | toolCallUpdate (update : ToolCallUpdate)
  | plan (entries : List V2.PlanEntry)
  | availableCommandsUpdate (availableCommands : List V2.AvailableCommand)
  | currentModeUpdate (currentModeId : String)
  | configOptionUpdate (configOptions : List V2.SessionConfigOption)
  | sessionInfoUpdate (update : SessionInfoUpdate)
  | usageUpdate (update : UsageUpdate)
  | other (raw : Raw)
  deriving DecidableEq

end V1

/-! ## Synthetic ids -/

/-- The ids of chunks that omit `messageId`: the role of the last such chunk and a counter,
a `u32` that wraps around. -/
structure SyntheticMessageIds where
  lastRole : Option Role
  ordinal : UInt32
  deriving DecidableEq

/-- `SyntheticMessageIds::default`. -/
def SyntheticMessageIds.empty : SyntheticMessageIds := ⟨none, 0⟩

/-- The text of the `n`-th synthetic id. -/
def syntheticId (n : UInt32) : String := s!"v1-synthetic-{n}"

def SyntheticMessageIds.id (ids : SyntheticMessageIds) (explicit : Option String) (role : Role) :
    String × SyntheticMessageIds :=
  match explicit with
  | some id => (id, { ids with lastRole := none })
  | none =>
    let ids := if ids.lastRole ≠ some role then ⟨some role, ids.ordinal + 1⟩ else ids
    (syntheticId ids.ordinal, ids)

/-! ## Updates -/

def messageChunk (chunk : V1.ContentChunk) (role : Role) (synthetic : SyntheticMessageIds) :
    TurnEventBody × SyntheticMessageIds :=
  let (messageId, synthetic) := synthetic.id chunk.messageId role
  (.messageChunk ⟨messageId, role, contentBlock chunk.content⟩, synthetic)

def toolStatusV1 : V1.ToolCallStatus → ToolCallStatus
  | .pending => .pending
  | .inProgress => .executing
  | .completed => .completed
  | .failed => .failed
  | .unlisted => .failed

def toolContentV1 : V1.ToolCallContent → ToolCallContent
  | .content inner => .text (textOrRaw inner)
  | .terminal terminalId => .terminal terminalId
  | .diff raw => .unknown raw
  | .other raw => .unknown raw

/-- The JSON text of an enum value without its quotes. -/
def label (raw : V2.Raw) : String := trimMatches '"' raw

def v1ToolPatch (toolCall : V1.ToolCall) : ToolCallPatch where
  title := some toolCall.title
  kind := some (label toolCall.kind)
  status := some (toolStatusV1 toolCall.status)
  input := toolCall.rawInput
  output := toolCall.rawOutput
  locations := toolCall.locations

def v1ToolUpdatePatch (fields : V1.ToolCallUpdateFields) : ToolCallPatch where
  title := fields.title
  kind := fields.kind.map label
  status := fields.status.map toolStatusV1
  input := fields.rawInput
  output := fields.rawOutput
  locations := fields.locations.getD []

def stopReasonV1 : V1.StopReason → StopReason
  | .endTurn => .endTurn
  | .maxTokens => .maxTokens
  | .maxTurnRequests => .other "max_turn_requests"
  | .refusal => .refusal
  | .cancelled => .cancelled
  | .unlisted => .other "unknown"

/-- Maps one `session/update` payload to zero or more normalized events (tool calls may
carry inline content that becomes content chunks). -/
def v1Update (update : V1.SessionUpdate) (synthetic : SyntheticMessageIds) :
    List TurnEventBody × SyntheticMessageIds :=
  match update with
  | .userMessageChunk chunk =>
    let (event, synthetic) := messageChunk chunk .user synthetic
    ([event], synthetic)
  | .agentMessageChunk chunk =>
    let (event, synthetic) := messageChunk chunk .agent synthetic
    ([event], synthetic)
  | .agentThoughtChunk chunk =>
    let (event, synthetic) := messageChunk chunk .thought synthetic
    ([event], synthetic)
  | .toolCall toolCall =>
    (.toolCallUpsert toolCall.toolCallId (v1ToolPatch toolCall) ::
      toolCall.content.map fun content =>
        .toolCallContentChunk toolCall.toolCallId (toolContentV1 content), synthetic)
  | .toolCallUpdate update =>
    (.toolCallUpsert update.toolCallId (v1ToolUpdatePatch update.fields) ::
      (update.fields.content.getD []).map fun item =>
        .toolCallContentChunk update.toolCallId (toolContentV1 item), synthetic)
  | .plan entries => ([.planUpsert "default" ⟨entries.map planEntry⟩], synthetic)
  | .availableCommandsUpdate availableCommands =>
    ([.commandsAvailable (availableCommands.map command)], synthetic)
  | .currentModeUpdate currentModeId =>
    ([.configOptionsChanged [⟨"mode", "Mode", none, currentModeId, []⟩]], synthetic)
  | .configOptionUpdate configOptions =>
    ([.configOptionsChanged (configOptions.map configOption)], synthetic)
  | .sessionInfoUpdate update =>
    ([.sessionInfo ⟨maybeString update.title, maybeString update.updatedAt⟩], synthetic)
  | .usageUpdate update =>
    ([.usage ⟨0, 0, (min update.used 0xffffffff).toUInt32, update.cost⟩], synthetic)
  | .other raw => ([.unknown raw], synthetic)

/-! ## Sessions -/

/-- What happens in a v1 session: an update of the agent arrives, a prompt is sent, the
response to a prompt arrives. A prompt that fails has no response. -/
inductive V1Event where
  | update (update : V1.SessionUpdate)
  | prompt
  | response (stopReason : V1.StopReason)
  deriving DecidableEq

/-- The events that a session emits, and its ids afterwards: `map_v1` for an update, and the
two state changes of `AcpConnection::prompt`. -/
def emit (synthetic : SyntheticMessageIds) : V1Event → List TurnEventBody × SyntheticMessageIds
  | .update update => v1Update update synthetic
  | .prompt => ([stateChanged .running], synthetic)
  | .response reason => ([stateChanged (.idle (some (stopReasonV1 reason)))], synthetic)

/-- The ids of a session after a history, from a session of which none has been seen yet. -/
def idsAfter (history : List V1Event) : SyntheticMessageIds :=
  history.foldl (fun synthetic event => (emit synthetic event).2) .empty

/-- The events that a session emits for what happens after a history. -/
def emitted (history : List V1Event) (event : V1Event) : List TurnEventBody :=
  (emit (idsAfter history) event).1

end Tethys.Acp
