import Tethys.Lib.Runs
import Tethys.Thread.Entries
import Tethys.Acp.MapV2

/-!
# Streams of v2 updates

What a stream of v2 updates for one message or tool call means: a field that is left out is
unchanged, `null` clears it, a value replaces it, and chunks append (`docs/architecture.md`,
section 7.2). `BlocksFold` and `ToolCallFold` are this meaning. Beside it stands what the
mapper and the entry reducer together make of each update.
-/

namespace Tethys.Acp

open Schema Lib Thread V2

/-! ## The meaning of the updates -/

/-- What a field is after an update. -/
def V2.MaybeUndefined.patch {α : Type} (old : Option α) : MaybeUndefined α → Option α
  | .undefined => old
  | .null => none
  | .value inner => some inner

/-- The updates for one message. -/
def ForMessage (id : String) : SessionUpdate → Prop
  | .userMessageChunk chunk | .agentMessageChunk chunk | .agentThoughtChunk chunk =>
    chunk.messageId = id
  | .userMessage message | .agentMessage message | .agentThought message =>
    message.messageId = id
  | _ => False

/-- The updates for one tool call. -/
def ForToolCall (id : String) : SessionUpdate → Prop
  | .toolCallUpdate update => update.toolCallId = id
  | .toolCallContentChunk chunk => chunk.toolCallId = id
  | _ => False

/-- The content of a message; a cleared message has no blocks. -/
abbrev BlocksFold := List V2.ContentBlock

def BlocksFold.next (blocks : BlocksFold) : SessionUpdate → BlocksFold
  | .userMessageChunk chunk | .agentMessageChunk chunk | .agentThoughtChunk chunk =>
    blocks ++ [chunk.content]
  | .userMessage message | .agentMessage message | .agentThought message =>
    (message.content.patch (some blocks)).getD []
  | _ => blocks

/-- The fields of a tool call, `none` while unset or cleared. -/
structure ToolCallFold where
  title : Option String
  kind : Option Raw
  status : Option V2.ToolCallStatus
  rawInput : Option Raw
  rawOutput : Option Raw
  locations : Option (List String)
  content : Option (List V2.ToolCallContent)
  deriving DecidableEq

def ToolCallFold.empty : ToolCallFold := ⟨none, none, none, none, none, none, none⟩

def ToolCallFold.items (fold : ToolCallFold) : List V2.ToolCallContent := fold.content.getD []

def ToolCallFold.next (fold : ToolCallFold) : SessionUpdate → ToolCallFold
  | .toolCallUpdate update =>
    { title := update.title.patch fold.title
      kind := update.kind.patch fold.kind
      status := update.status.patch fold.status
      rawInput := update.rawInput.patch fold.rawInput
      rawOutput := update.rawOutput.patch fold.rawOutput
      locations := update.locations.patch fold.locations
      content := update.content.patch fold.content }
  | .toolCallContentChunk chunk => { fold with content := some (fold.items ++ [chunk.content]) }
  | _ => fold

/-- The text of a content item. Diffs, terminals and extensions have none in an entry. -/
def itemText : V2.ToolCallContent → Option String
  | .content content => some (textOrRaw content)
  | _ => none

def contentText : List V2.ToolCallContent → String
  | [] => ""
  | item :: items => (itemText item).getD "" ++ contentText items

/-! ## The code beside its meaning -/

/-- Map one update and apply its events live. -/
def applyUpdate (entries : List Entry) (update : SessionUpdate) : List Entry :=
  (v2Update update).foldl (fun entries event => (applyEvent entries event false).1) entries

def messageStep {id : String} (s : List Entry × BlocksFold)
    (update : {update // ForMessage id update}) : Option (List Entry × BlocksFold) :=
  some (applyUpdate s.1 update, s.2.next update)

def toolStep {id : String} (s : List Entry × ToolCallFold)
    (update : {update // ForToolCall id update}) : Option (List Entry × ToolCallFold) :=
  some (applyUpdate s.1 update, s.2.next update)

/-- The blocks of the message with the given id. -/
def shownBlocks (entries : List Entry) (id : String) : List Schema.ContentBlock :=
  match findMut entries id with
  | some (.message _ _ blocks) => blocks
  | _ => []

def emptyPatch : ToolCallPatch := ⟨none, none, none, none, none, []⟩

/-- The fields of the tool call with the given id. -/
def shownPatch (entries : List Entry) (id : String) : ToolCallPatch :=
  match findMut entries id with
  | some (.toolCall _ patch) => patch
  | _ => emptyPatch

def MessageAgrees (id : String) (s : List Entry × BlocksFold) : Prop :=
  shownBlocks s.1 id = s.2.map contentBlock

/-! ## Messages -/

/-- The id is free or names a message. -/
def FreeOrMessage (entries : List Entry) (id : String) : Prop :=
  ∀ e, findMut entries id = some e → e.kind = .message

/-- An event that makes and changes messages in the same way `grow`. -/
theorem lookup_message_event {entries : List Entry} {id : String} (event : TurnEventBody)
    (grow : List Schema.ContentBlock → List Schema.ContentBlock)
    (ht : targetId event = some id) (hfree : FreeOrMessage entries id)
    (hfresh : ∃ role, freshEntry event = some (.message id role (grow [])))
    (htouch : ∀ role blocks, ∃ role', touch event (.message id role blocks) =
      some (.message id role' (grow blocks))) :
    ∃ role, findMut (applyEvent entries event false).1 id =
      some (.message id role (grow (shownBlocks entries id))) := by
  rw [applyEvent_live]
  unfold findMut shownBlocks
  cases hl : findMut entries id with
  | none =>
    obtain ⟨role, hf⟩ := hfresh
    exact ⟨role, (Reducer.lookup_live_of_none (R := entryReducer) ht hl).trans hf⟩
  | some e =>
    have hk := hfree e hl
    cases e with
    | message id' role blocks =>
      obtain rfl : id' = id := key_of_lookup hl
      obtain ⟨role', ht'⟩ := htouch role blocks
      refine ⟨role', (Reducer.lookup_live_of_some (R := entryReducer) ht hl).trans ?_⟩
      simp [ht']
    | _ => simp [Entry.kind] at hk

theorem lookup_chunkEvent {entries : List Entry} (chunk : ContentChunk) (role : Role)
    (hfree : FreeOrMessage entries chunk.messageId) :
    ∃ role', findMut (applyEvent entries (chunkEvent chunk role) false).1 chunk.messageId =
      some (.message chunk.messageId role'
        (shownBlocks entries chunk.messageId ++ [contentBlock chunk.content])) :=
  lookup_message_event _ (· ++ [contentBlock chunk.content]) rfl hfree ⟨role, rfl⟩
    fun role' _ => ⟨role', rfl⟩

theorem lookup_upsertEvent {entries : List Entry} (message : V2.Message) (role : Role)
    (hfree : FreeOrMessage entries message.messageId) {blocks : BlocksFold}
    (hshown : shownBlocks entries message.messageId = blocks.map contentBlock) :
    ∃ role', findMut
      (applyEvent entries (upsertEvent message.messageId role message.content) false).1
        message.messageId =
      some (.message message.messageId role'
        (((message.content.patch (some blocks)).getD []).map contentBlock)) := by
  obtain ⟨id, content⟩ := message
  cases content with
  | undefined =>
    obtain ⟨role', h⟩ := lookup_message_event (upsertEvent id role .undefined) (·) rfl
      hfree ⟨role, rfl⟩ fun _ _ => ⟨role, rfl⟩
    exact ⟨role', by simpa [MaybeUndefined.patch, hshown] using h⟩
  | null => exact lookup_message_event _ (fun _ => []) rfl hfree ⟨role, rfl⟩ fun _ _ => ⟨role, rfl⟩
  | value new =>
    exact lookup_message_event _ (fun _ => new.map contentBlock) rfl hfree ⟨role, rfl⟩
      fun _ _ => ⟨role, rfl⟩

/-- A message entry keeps both facts that the run of updates needs. -/
theorem agrees_of_message {entries : List Entry} {id : String} {blocks : BlocksFold}
    (h : ∃ role, findMut entries id = some (.message id role (blocks.map contentBlock))) :
    FreeOrMessage entries id ∧ MessageAgrees id (entries, blocks) := by
  obtain ⟨role, h⟩ := h
  refine ⟨fun e he => ?_, by simp [MessageAgrees, shownBlocks, h]⟩
  obtain rfl : _ = e := Option.some.inj (h.symm.trans he)
  rfl

theorem message_step {id : String} {s : List Entry × BlocksFold} {update : SessionUpdate}
    (hu : ForMessage id update) (hfree : FreeOrMessage s.1 id) (hs : MessageAgrees id s) :
    FreeOrMessage (applyUpdate s.1 update) id ∧
      MessageAgrees id (applyUpdate s.1 update, s.2.next update) := by
  apply agrees_of_message
  have hmap : ∀ block, (s.2 ++ [block]).map contentBlock =
      shownBlocks s.1 id ++ [contentBlock block] := by
    intro block
    rw [List.map_append, hs, List.map_singleton]
  cases update with
  | userMessageChunk chunk | agentMessageChunk chunk | agentThoughtChunk chunk =>
    obtain rfl : chunk.messageId = id := hu
    simp only [applyUpdate, v2Update, List.foldl_cons, List.foldl_nil, BlocksFold.next, hmap]
    exact lookup_chunkEvent chunk _ hfree
  | userMessage message | agentMessage message | agentThought message =>
    obtain rfl : message.messageId = id := hu
    exact lookup_upsertEvent message _ hfree hs
  | _ => exact hu.elim

/-! ## Tool calls -/

/-- The id is free or names a tool call. -/
def FreeOrToolCall (entries : List Entry) (id : String) : Prop :=
  ∀ e, findMut entries id = some e → e.kind = .toolCall

/-- The patch of a tool call after one content item. -/
def addItem (patch : ToolCallPatch) (item : V2.ToolCallContent) : ToolCallPatch :=
  match itemText item with
  | some text => { patch with output := some (patch.output.getD "" ++ text) }
  | none => patch

theorem chunkText_toolContent (item : V2.ToolCallContent) :
    chunkText (toolContent item) = itemText item := by
  cases item <;> rfl

theorem mergeToolCall_emptyPatch (patch : ToolCallPatch) :
    mergeToolCall emptyPatch patch = patch := by
  obtain ⟨title, kind, status, input, output, locations⟩ := patch
  simp only [mergeToolCall, emptyPatch, ToolCallPatch.mk.injEq]
  refine ⟨?_, ?_, ?_, ?_, ?_, ?_⟩
  · cases title <;> rfl
  · cases kind <;> rfl
  · cases status <;> rfl
  · cases input <;> rfl
  · cases output <;> rfl
  · cases locations <;> rfl

theorem lookup_toolCallUpsert {entries : List Entry} {id : String} (patch : ToolCallPatch)
    (hfree : FreeOrToolCall entries id) :
    findMut (applyEvent entries (.toolCallUpsert id patch) false).1 id =
      some (.toolCall id (mergeToolCall (shownPatch entries id) patch)) := by
  rw [applyEvent_live]
  have ht : entryReducer.target (.toolCallUpsert id patch) = some id := rfl
  unfold findMut shownPatch
  cases hl : findMut entries id with
  | none =>
    rw [mergeToolCall_emptyPatch]
    exact Reducer.lookup_live_of_none ht hl
  | some e =>
    have hk := hfree e hl
    cases e with
    | toolCall id' existing =>
      obtain rfl : id' = id := key_of_lookup hl
      exact Reducer.lookup_live_of_some ht hl
    | _ => simp [Entry.kind] at hk

theorem lookup_contentChunk {entries : List Entry} {id : String} {patch : ToolCallPatch}
    (item : V2.ToolCallContent) (hl : findMut entries id = some (.toolCall id patch)) :
    findMut (applyEvent entries (.toolCallContentChunk id (toolContent item)) false).1 id =
      some (.toolCall id (addItem patch item)) := by
  rw [applyEvent_live]
  have ht : entryReducer.target (.toolCallContentChunk id (toolContent item)) = some id := rfl
  refine (Reducer.lookup_live_of_some ht hl).trans ?_
  simp only [touch, addItem, chunkText_toolContent]
  cases itemText item <;> rfl

theorem lookup_contentChunks {id : String} (items : List V2.ToolCallContent)
    {entries : List Entry} {patch : ToolCallPatch}
    (hl : findMut entries id = some (.toolCall id patch)) :
    findMut ((items.map fun item => TurnEventBody.toolCallContentChunk id (toolContent item)).foldl
      (fun entries event => (applyEvent entries event false).1) entries) id =
      some (.toolCall id (items.foldl addItem patch)) := by
  induction items generalizing entries patch with
  | nil => exact hl
  | cons item items ih => exact ih (lookup_contentChunk item hl)

/-- The content items that a patch hands on as chunks. -/
def givenItems (update : ToolCallUpdate) : List V2.ToolCallContent :=
  (maybeValue update.content).getD []

theorem v2Update_toolCallUpdate (update : ToolCallUpdate) :
    v2Update (.toolCallUpdate update) =
      .toolCallUpsert update.toolCallId (toolPatch update) :: (givenItems update).map fun item =>
        .toolCallContentChunk update.toolCallId (toolContent item) := by
  cases hc : update.content <;> simp [v2Update, givenItems, maybeValue, hc]

/-- One tool-call patch, mapped and applied. -/
theorem lookup_toolCallUpdate {entries : List Entry} (update : ToolCallUpdate)
    (hfree : FreeOrToolCall entries update.toolCallId) :
    findMut (applyUpdate entries (.toolCallUpdate update)) update.toolCallId =
      some (.toolCall update.toolCallId ((givenItems update).foldl addItem
        (mergeToolCall (shownPatch entries update.toolCallId) (toolPatch update)))) := by
  rw [applyUpdate, v2Update_toolCallUpdate, List.foldl_cons]
  exact lookup_contentChunks _ (lookup_toolCallUpsert _ hfree)

/-- One content chunk, mapped and applied: it is lost while the tool call is unknown. -/
theorem lookup_toolCallContentChunk {entries : List Entry} (chunk : V2.ToolCallContentChunk)
    (hfree : FreeOrToolCall entries chunk.toolCallId) :
    findMut (applyUpdate entries (.toolCallContentChunk chunk)) chunk.toolCallId =
      (findMut entries chunk.toolCallId).map fun _ =>
        .toolCall chunk.toolCallId
          (addItem (shownPatch entries chunk.toolCallId) chunk.content) := by
  unfold shownPatch
  cases hl : findMut entries chunk.toolCallId with
  | none =>
    refine Eq.trans (congrArg (findMut · _) (applyEvent_live _ _)) ?_
    exact Reducer.lookup_live_of_none (R := entryReducer) rfl hl
  | some e =>
    have hk := hfree e hl
    cases e with
    | toolCall id patch =>
      obtain rfl : id = chunk.toolCallId := key_of_lookup hl
      exact lookup_contentChunk chunk.content hl
    | _ => simp [Entry.kind] at hk

theorem addItem_output (patch : ToolCallPatch) (item : V2.ToolCallContent) :
    (addItem patch item).output.getD "" = patch.output.getD "" ++ (itemText item).getD "" := by
  unfold addItem
  cases itemText item <;> simp

theorem addItem_fields (patch : ToolCallPatch) (item : V2.ToolCallContent) :
    ∃ output, addItem patch item = { patch with output := output } := by
  unfold addItem
  cases itemText item with
  | none => exact ⟨patch.output, rfl⟩
  | some text => exact ⟨_, rfl⟩

/-- Content items reach nothing but the output. -/
theorem foldl_addItem_fields (items : List V2.ToolCallContent) (patch : ToolCallPatch) :
    ∃ output, items.foldl addItem patch = { patch with output := output } := by
  induction items generalizing patch with
  | nil => exact ⟨patch.output, rfl⟩
  | cons item items ih =>
    obtain ⟨output, h⟩ := addItem_fields patch item
    obtain ⟨output', h'⟩ := ih (addItem patch item)
    exact ⟨output', by rw [List.foldl_cons, h', h]⟩

theorem foldl_addItem_output (items : List V2.ToolCallContent) (patch : ToolCallPatch) :
    (items.foldl addItem patch).output.getD "" = patch.output.getD "" ++ contentText items := by
  induction items generalizing patch with
  | nil => simp [contentText]
  | cons item items ih =>
    rw [List.foldl_cons, ih, addItem_output, contentText, String.append_assoc]

theorem contentText_append (items items' : List V2.ToolCallContent) :
    contentText (items ++ items') = contentText items ++ contentText items' := by
  induction items with
  | nil => simp [contentText]
  | cons item items ih => simp [contentText, ih, String.append_assoc]

end Tethys.Acp
