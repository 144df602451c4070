import Tethys.Acp.SchemaV2
import Tethys.Schema.Thread

/-!
# ACP v2 to normalized events

`v2_update` of `tethys-acp/src/map_v2.rs` and its helpers, branch by branch.
-/

namespace Tethys.Acp

open Schema V2

/-- `str::trim_matches` with a single character. -/
def trimMatches (c : Char) (s : String) : String :=
  String.ofList (((s.toList.dropWhile (· == c)).reverse.dropWhile (· == c)).reverse)

def maybeString : MaybeUndefined String → Option String
  | .value text => some text
  | .null => none
  | .undefined => none

def maybeValue {α : Type} : MaybeUndefined α → Option α
  | .value inner => some inner
  | .null => none
  | .undefined => none

def contentBlock : V2.ContentBlock → Schema.ContentBlock
  | .text text => .text text
  | .resourceLink uri name mimeType _ => .resourceLink uri name mimeType
  | .image mimeType data _ => .image mimeType data
  | .other raw => .unknown raw

def textOrRaw : V2.ContentBlock → String
  | .text text => text
  | .resourceLink _ _ _ raw => raw
  | .image _ _ raw => raw
  | .other raw => raw

def chunkEvent (chunk : ContentChunk) (role : Role) : TurnEventBody :=
  .messageChunk ⟨chunk.messageId, role, contentBlock chunk.content⟩

def upsertEvent (messageId : String) (role : Role)
    (content : MaybeUndefined (List V2.ContentBlock)) : TurnEventBody :=
  let content := match content with
    | .undefined => Patch.unchanged
    | .null => Patch.clear
    | .value blocks => Patch.set (blocks.map contentBlock)
  .messageUpsert ⟨messageId, role, content⟩

def toolStatus : V2.ToolCallStatus → Schema.ToolCallStatus
  | .pending => .pending
  | .inProgress => .executing
  | .completed => .completed
  | .failed | .cancelled => .failed
  | .other _ => .failed
  | .unlisted => .failed

def toolContent : V2.ToolCallContent → Schema.ToolCallContent
  | .content inner => .text (textOrRaw inner)
  | .terminal terminalId => .terminal terminalId
  | .diff raw => .unknown raw
  | .other raw => .unknown raw
  | .unlisted => .unknown "null"

def toolPatch (update : ToolCallUpdate) : ToolCallPatch where
  title := maybeString update.title
  kind := (maybeValue update.kind).map (trimMatches '"')
  status := (maybeValue update.status).map toolStatus
  input := maybeValue update.rawInput
  output := maybeValue update.rawOutput
  locations := (maybeValue update.locations).getD []

def stopReason : V2.StopReason → Schema.StopReason
  | .endTurn => .endTurn
  | .maxTokens => .maxTokens
  | .maxTurnRequests => .other "max_turn_requests"
  | .refusal => .refusal
  | .cancelled => .cancelled
  | .other reason => .other reason
  | .unlisted => .other "unknown"

def planEntry (entry : V2.PlanEntry) : Schema.PlanEntry where
  content := entry.content
  priority := match entry.priority with
    | .high => .high
    | .medium => .medium
    | .low => .low
    | .unlisted => .medium
  status := match entry.status with
    | .pending => .pending
    | .inProgress => .inProgress
    | .completed => .completed
    | .unlisted => .pending

def command (command : AvailableCommand) : AgentCommand where
  name := command.name
  description := some command.description
  input := command.input

def configOption (option : SessionConfigOption) : ConfigOption where
  id := option.configId
  name := option.name
  description := option.description
  currentValue := match option.kind with
    | .select currentValue _ => currentValue
    | .boolean currentValue => if currentValue then "true" else "false"
    | .other => ""
    | .unlisted => ""
  values := match option.kind with
    | .select _ (.ungrouped values) => values
    | .select _ .unlisted => []
    | .boolean _ => ["true", "false"]
    | .other => []
    | .unlisted => []

def stateChanged (state : SessionState) : TurnEventBody := .stateChanged ⟨state⟩

/-- Maps one `session/update` payload to zero or more normalized events. -/
def v2Update : SessionUpdate → List TurnEventBody
  | .userMessageChunk chunk => [chunkEvent chunk .user]
  | .agentMessageChunk chunk => [chunkEvent chunk .agent]
  | .agentThoughtChunk chunk => [chunkEvent chunk .thought]
  | .userMessage message => [upsertEvent message.messageId .user message.content]
  | .agentMessage message => [upsertEvent message.messageId .agent message.content]
  | .agentThought message => [upsertEvent message.messageId .thought message.content]
  | .stateUpdate .running => [stateChanged .running]
  | .stateUpdate (.idle reason) => [stateChanged (.idle (reason.map stopReason))]
  | .stateUpdate .requiresAction => [stateChanged .requiresAction]
  | .stateUpdate (.other raw) => [.unknown raw]
  | .toolCallUpdate update =>
    let events := [TurnEventBody.toolCallUpsert update.toolCallId (toolPatch update)]
    match update.content with
    | .value content => events ++ content.map fun item =>
        TurnEventBody.toolCallContentChunk update.toolCallId (toolContent item)
    | _ => events
  | .toolCallContentChunk chunk =>
    [.toolCallContentChunk chunk.toolCallId (toolContent chunk.content)]
  | .terminalOutputChunk chunk => [.terminalOutputChunk chunk.terminalId chunk.data]
  | .planUpdate (.items entries) => [.planUpsert "default" ⟨entries.map planEntry⟩]
  | .planUpdate (.other raw) => [.unknown raw]
  | .availableCommandsUpdate availableCommands =>
    [.commandsAvailable (availableCommands.map command)]
  | .configOptionUpdate configOptions => [.configOptionsChanged (configOptions.map configOption)]
  | .sessionInfoUpdate update =>
    [.sessionInfo ⟨maybeString update.title, maybeString update.updatedAt⟩]
  | .usageUpdate update =>
    [.usage ⟨0, 0, (min update.used 0xffffffff).toUInt32, update.cost⟩]
  | .other raw => [.unknown raw]

end Tethys.Acp
