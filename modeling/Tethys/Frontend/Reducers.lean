import Tethys.Lib.Materialize
import Tethys.Schema.Thread

/-!
# Front-end session reducer

The reducer of `packages/state/src/reducers.ts` over the same events. The entries of the
source are structurally typed objects that a cast treats as one variant or another, so an
entry is one record here whose absent fields are `none`; `null` and `undefined` are not told
apart, since no branch does. `now` stands for `Date.now()`.
-/

namespace Tethys.Frontend

open Schema Lib

inductive CancellationState where
  | idle | cancelRequested | graceElapsed | terminating
  deriving DecidableEq

structure PermissionResolution where
  outcome : PermOutcome
  autoPicked : Bool
  decidedBy : Decider
  policy : Option String
  timestamp : Nat
  deriving DecidableEq

structure PermissionRequestItem where
  reqId : String
  title : String
  description : Option String
  options : List PermOption
  resolution : Option PermissionResolution
  deriving DecidableEq

/-- The discriminant of a session entry. -/
inductive EntryTag where
  | turnMessage | toolCall | permissionRequest | historyDivider
  | other (kind : String)
  deriving DecidableEq

structure SessionEntry where
  id : String
  kind : EntryTag
  timestamp : Nat
  isHistory : Bool
  role : Option Role
  content : Option String
  toolCallId : Option String
  title : Option String
  status : Option ToolCallStatus
  input : Option String
  output : Option String
  request : Option PermissionRequestItem
  label : Option String
  deriving DecidableEq

/-- An object with the base fields only. -/
def SessionEntry.base (id : String) (kind : EntryTag) (timestamp : Nat) : SessionEntry where
  id := id
  kind := kind
  timestamp := timestamp
  isHistory := false
  role := none
  content := none
  toolCallId := none
  title := none
  status := none
  input := none
  output := none
  request := none
  label := none

inductive SessionStatus where
  | idle | running | awaitingApproval | error | interrupted | suspended | archived
  deriving DecidableEq

structure SessionState where
  sessionId : String
  providerId : String
  workspaceId : String
  title : String
  branchName : Option String
  status : SessionStatus
  cancellationState : CancellationState
  turnCount : Nat
  seq : Nat
  historyEntries : List SessionEntry
  liveEntries : List SessionEntry
  entries : List SessionEntry
  pendingPermissions : List PermissionRequestItem
  resolvedPermissions : List (String × PermissionResolution)
  usage : Option UsageSnapshot
  error : Option String
  deriving DecidableEq

def extractTextFromContentBlock : ContentBlock → String
  | .text text => text
  | .resourceLink _ name _ => name
  | .image .. => "[Image]"
  | .unknown raw => raw

def extractTextFromContentBlocks (blocks : List ContentBlock) : String :=
  String.join (blocks.map extractTextFromContentBlock)

/-- The title defaults to `New Thread` in the source, the branch name to `undefined`. -/
def createInitialSessionState (sessionId providerId workspaceId title : String)
    (branchName : Option String) : SessionState where
  sessionId := sessionId
  providerId := providerId
  workspaceId := workspaceId
  title := title
  branchName := branchName
  status := .idle
  cancellationState := .idle
  turnCount := 0
  seq := 0
  historyEntries := []
  liveEntries := []
  entries := []
  pendingPermissions := []
  resolvedPermissions := []
  usage := none
  error := none

def rebuildCombinedEntries (history live : List SessionEntry) : List SessionEntry :=
  match history.getLast?, live with
  | some last, _ :: _ =>
    let divider := { SessionEntry.base "history-divider" .historyDivider last.timestamp with
      label := some "Earlier history (read-only)"
      isHistory := true }
    history ++ divider :: live
  | some _, [] => history
  | none, _ => live

/-- `{...record, [key]: value}` on a record of permission resolutions. -/
def setResolution (resolved : List (String × PermissionResolution)) (reqId : String)
    (resolution : PermissionResolution) : List (String × PermissionResolution) :=
  if reqId ∈ resolved.map Prod.fst then put Prod.fst reqId (reqId, resolution) resolved
  else resolved ++ [(reqId, resolution)]

/-- JavaScript's `existing.content + delta`: a missing content prints as `undefined`. -/
def appendContent (existing : Option String) (delta : String) : Option String :=
  some (existing.getD "undefined" ++ delta)

def sessionReducer (state : SessionState) (event : TurnEventBody) (seq : Option Nat) (now : Nat) :
    SessionState :=
  let currentSeq := match seq with
    | some seq => max state.seq seq
    | none => state.seq
  match event with
  | .stateChanged ⟨.running⟩ => { state with status := .running, seq := currentSeq }
  | .stateChanged ⟨.requiresAction⟩ => { state with status := .awaitingApproval, seq := currentSeq }
  | .stateChanged ⟨.idle _⟩ =>
    { state with status := .idle, cancellationState := .idle, seq := currentSeq }
  | .messageUpsert ⟨messageId, role, patch⟩ =>
    let content := match patch with
      | .set blocks => extractTextFromContentBlocks blocks
      | _ => ""
    let nextLive := match lookup SessionEntry.id messageId state.liveEntries with
      | some existing =>
        let kept := match patch with
          | .set _ => some content
          | _ => existing.content
        put SessionEntry.id messageId { existing with content := kept } state.liveEntries
      | none =>
        state.liveEntries ++ [{ SessionEntry.base messageId .turnMessage now with
          role := some role
          content := some content }]
    { state with
      liveEntries := nextLive
      entries := rebuildCombinedEntries state.historyEntries nextLive
      turnCount := if role = .user then state.turnCount + 1 else state.turnCount
      seq := currentSeq }
  | .messageChunk ⟨messageId, role, block⟩ =>
    let textDelta := extractTextFromContentBlock block
    let nextLive := match lookup SessionEntry.id messageId state.liveEntries with
      | some existing =>
        put SessionEntry.id messageId
          { existing with content := appendContent existing.content textDelta } state.liveEntries
      | none =>
        state.liveEntries ++ [{ SessionEntry.base messageId .turnMessage now with
          role := some role
          content := some textDelta }]
    { state with
      liveEntries := nextLive
      entries := rebuildCombinedEntries state.historyEntries nextLive
      seq := currentSeq }
  | .toolCallUpsert toolCallId patch =>
    let nextLive := match lookup SessionEntry.id toolCallId state.liveEntries with
      | some existing =>
        put SessionEntry.id toolCallId
          { existing with
            title := patch.title.or existing.title
            status := patch.status.or existing.status
            input := patch.input.or existing.input
            output := patch.output.or existing.output } state.liveEntries
      | none =>
        state.liveEntries ++ [{ SessionEntry.base toolCallId .toolCall now with
          toolCallId := some toolCallId
          title := some (patch.title.getD "tool_call")
          status := some (patch.status.getD .pending)
          input := patch.input
          output := patch.output }]
    { state with
      liveEntries := nextLive
      entries := rebuildCombinedEntries state.historyEntries nextLive
      seq := currentSeq }
  | .permissionRequested req =>
    let permItem : PermissionRequestItem :=
      ⟨req.reqId, req.title, req.description, req.options, none⟩
    let permEntry := { SessionEntry.base ("perm-" ++ req.reqId) .permissionRequest now with
      request := some permItem }
    let nextLive := state.liveEntries ++ [permEntry]
    { state with
      status := .awaitingApproval
      pendingPermissions :=
        state.pendingPermissions.filter (fun p => p.reqId ≠ req.reqId) ++ [permItem]
      liveEntries := nextLive
      entries := rebuildCombinedEntries state.historyEntries nextLive
      seq := currentSeq }
  | .permissionResolved reqId outcome decidedBy =>
    let isAuto := decidedBy = .policy
    let resolution : PermissionResolution :=
      { outcome := outcome
        autoPicked := isAuto
        decidedBy := decidedBy
        policy := if isAuto then some "workspace-trust-policy" else none
        timestamp := now }
    let nextPending := state.pendingPermissions.filter (fun p => p.reqId ≠ reqId)
    let nextLive := state.liveEntries.map fun e =>
      if e.kind = .permissionRequest ∧ e.request.map (·.reqId) = some reqId then
        { e with request := e.request.map ({ · with resolution := some resolution }) }
      else e
    { state with
      status := if nextPending.length > 0 then .awaitingApproval else .running
      pendingPermissions := nextPending
      resolvedPermissions := setResolution state.resolvedPermissions reqId resolution
      liveEntries := nextLive
      entries := rebuildCombinedEntries state.historyEntries nextLive
      seq := currentSeq }
  | .usage snapshot => { state with usage := some snapshot, seq := currentSeq }
  | .error _ message _ => { state with status := .error, error := some message, seq := currentSeq }
  | _ => { state with seq := currentSeq }

def loadHistoryIntoSession (state : SessionState) (cachedHistory : List SessionEntry)
    (resumeSupported : Bool) : SessionState :=
  let taggedHistory := cachedHistory.map fun e => { e with isHistory := true }
  if resumeSupported then
    -- Resumed session: history is contiguous with live turns, no division needed
    { state with
      historyEntries := []
      liveEntries := taggedHistory
      entries := taggedHistory }
  else
    -- Not resume-supported: cached history separated from fresh live segment
    { state with
      historyEntries := taggedHistory
      liveEntries := state.liveEntries
      entries := rebuildCombinedEntries taggedHistory state.liveEntries }

end Tethys.Frontend
