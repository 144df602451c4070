import Tethys.Lib.Materialize
import Tethys.Schema.Thread

/-!
# Entry materialization

Keeps the latest state per message, tool call, plan, terminal, permission, and error
(`tethys-thread/src/entries.rs`). `applyEvent` follows the source branch by branch.
`entryReducer` is its abstract form, an instance of the keyed reducer of
`Tethys.Lib.Materialize`; `applyEvent_live` and `applyEvent_replay` connect the two, and
no later proof unfolds `applyEvent`.
-/

namespace Tethys.Thread

open Schema Lib

/-- The first entry with the given id. A mutation through the reference that the source
gets here is written back with `put`. -/
def findMut (entries : List Entry) (id : String) : Option Entry :=
  lookup Entry.entryId id entries

def mergeToolCall (existing incoming : ToolCallPatch) : ToolCallPatch where
  title := if incoming.title.isSome then incoming.title else existing.title
  kind := if incoming.kind.isSome then incoming.kind else existing.kind
  status := if incoming.status.isSome then incoming.status else existing.status
  input := if incoming.input.isSome then incoming.input else existing.input
  output := if incoming.output.isSome then incoming.output else existing.output
  locations := if incoming.locations.isEmpty then existing.locations else incoming.locations

/-- The blocks a message upsert puts in place of the old ones, if any. -/
def replacement : Patch (List ContentBlock) → Option (List ContentBlock)
  | .unchanged => none
  | .clear => some []
  | .set blocks => some blocks

/-- The text a terminal upsert puts in place of the old output, if any. -/
def snapshot : Patch String → Option String
  | .unchanged => none
  | .clear => some ""
  | .set text => some text

/-- The text a content item adds to a tool call's output. -/
def chunkText : ToolCallContent → Option String
  | .text text => some text
  | .diff _ patch => some patch
  | .terminal _ => none
  | .unknown _ => none

/-- Apply one event to the entry list; the flag says whether `entries` changed.

Replayed events may only create entries that do not exist yet; mutations of
already-materialized entries are skipped so resume never duplicates or rewinds history. -/
def applyEvent (entries : List Entry) (event : TurnEventBody) (replayed : Bool) :
    List Entry × Bool :=
  match event with
  | .messageChunk ⟨messageId, role, block⟩ =>
    if replayed && (findMut entries messageId).isSome then (entries, false)
    else match findMut entries messageId with
      | some (.message id existingRole blocks) =>
        (put Entry.entryId messageId (.message id existingRole (blocks ++ [block])) entries, true)
      | some _ => (entries, false)
      | none => (entries ++ [.message messageId role [block]], true)
  | .messageUpsert ⟨messageId, role, content⟩ =>
    if replayed && (findMut entries messageId).isSome then (entries, false)
    else match findMut entries messageId with
      | some (.message id _ blocks) =>
        (put Entry.entryId messageId (.message id role ((replacement content).getD blocks))
          entries, true)
      | some _ => (entries, false)
      | none => (entries ++ [.message messageId role ((replacement content).getD [])], true)
  | .toolCallUpsert toolCallId patch =>
    if replayed && (findMut entries toolCallId).isSome then (entries, false)
    else match findMut entries toolCallId with
      | some (.toolCall id existing) =>
        (put Entry.entryId toolCallId (.toolCall id (mergeToolCall existing patch)) entries, true)
      | some _ => (entries, false)
      | none => (entries ++ [.toolCall toolCallId patch], true)
  | .toolCallContentChunk toolCallId item =>
    if replayed && (findMut entries toolCallId).isSome then (entries, false)
    else match findMut entries toolCallId with
      | some (.toolCall id patch) =>
        match chunkText item with
        | some text =>
          let output := match patch.output with
            | some output => output ++ text
            | none => text
          (put Entry.entryId toolCallId (.toolCall id { patch with output := some output })
            entries, true)
        | none => (entries, false)
      | _ => (entries, false)
  | .planUpsert planId plan =>
    if replayed && (findMut entries planId).isSome then (entries, false)
    else match findMut entries planId with
      | some (.plan id _) => (put Entry.entryId planId (.plan id plan) entries, true)
      | some _ => (entries, false)
      | none => (entries ++ [.plan planId plan], true)
  | .terminalUpsert terminalId patch =>
    if replayed && (findMut entries terminalId).isSome then (entries, false)
    else match findMut entries terminalId with
      | some (.terminal id existing) =>
        (put Entry.entryId terminalId (.terminal id ((snapshot patch).getD existing)) entries, true)
      | some _ => (entries, false)
      | none => (entries ++ [.terminal terminalId ((snapshot patch).getD "")], true)
  | .terminalOutputChunk terminalId bytes =>
    if replayed && (findMut entries terminalId).isSome then (entries, false)
    else match findMut entries terminalId with
      | some (.terminal id output) =>
        (put Entry.entryId terminalId (.terminal id (output ++ bytes)) entries, true)
      | some _ => (entries, false)
      | none => (entries ++ [.terminal terminalId bytes], true)
  | .permissionRequested request =>
    if replayed && (findMut entries request.reqId).isSome then (entries, false)
    else match findMut entries request.reqId with
      | some (.permission id _ outcome) =>
        (put Entry.entryId request.reqId (.permission id request outcome) entries, true)
      | some _ => (entries, false)
      | none => (entries ++ [.permission request.reqId request none], true)
  | .permissionResolved reqId outcome _ =>
    if replayed then (entries, false)
    else match findMut entries reqId with
      | some (.permission id request _) =>
        (put Entry.entryId reqId (.permission id request (some outcome)) entries, true)
      | _ => (entries, false)
  | .error code message _ =>
    if replayed && (findMut entries "error").isSome then (entries, false)
    else match findMut entries "error" with
      | some (.error _ _) => (put Entry.entryId "error" (.error code message) entries, true)
      | some _ => (entries, false)
      | none => (entries ++ [.error code message], true)
  | .stateChanged _ => (entries, false)
  | .configOptionsChanged _ => (entries, false)
  | .commandsAvailable _ => (entries, false)
  | .sessionInfo _ => (entries, false)
  | .usage _ => (entries, false)
  | .fileWrite .. => (entries, false)
  | .checkpoint .. => (entries, false)
  | .unknown _ => (entries, false)

/-! ## The abstract reducer -/

/-- The entry id an event aims at. -/
def targetId : TurnEventBody → Option String
  | .messageChunk chunk => some chunk.messageId
  | .messageUpsert upsert => some upsert.messageId
  | .toolCallUpsert toolCallId _ => some toolCallId
  | .toolCallContentChunk toolCallId _ => some toolCallId
  | .planUpsert planId _ => some planId
  | .terminalUpsert terminalId _ => some terminalId
  | .terminalOutputChunk terminalId _ => some terminalId
  | .permissionRequested request => some request.reqId
  | .permissionResolved reqId _ _ => some reqId
  | .error .. => some "error"
  | _ => none

/-- What a live event makes of the entry with its id: an event of another kind leaves it. -/
def touch : TurnEventBody → Entry → Option Entry
  | .messageChunk chunk, .message id role blocks =>
    some (.message id role (blocks ++ [chunk.block]))
  | .messageUpsert upsert, .message id _ blocks =>
    some (.message id upsert.role ((replacement upsert.content).getD blocks))
  | .toolCallUpsert _ patch, .toolCall id existing =>
    some (.toolCall id (mergeToolCall existing patch))
  | .toolCallContentChunk _ item, .toolCall id patch =>
    (chunkText item).map fun text =>
      .toolCall id { patch with output := some ((patch.output.getD "") ++ text) }
  | .planUpsert _ plan, .plan id _ => some (.plan id plan)
  | .terminalUpsert _ patch, .terminal id existing =>
    some (.terminal id ((snapshot patch).getD existing))
  | .terminalOutputChunk _ bytes, .terminal id output => some (.terminal id (output ++ bytes))
  | .permissionRequested request, .permission id _ outcome => some (.permission id request outcome)
  | .permissionResolved _ outcome _, .permission id request _ =>
    some (.permission id request (some outcome))
  | .error code message _, .error _ _ => some (.error code message)
  | _, _ => none

/-- The entry an event creates when its id is free. -/
def freshEntry : TurnEventBody → Option Entry
  | .messageChunk chunk => some (.message chunk.messageId chunk.role [chunk.block])
  | .messageUpsert upsert =>
    some (.message upsert.messageId upsert.role ((replacement upsert.content).getD []))
  | .toolCallUpsert toolCallId patch => some (.toolCall toolCallId patch)
  | .planUpsert planId plan => some (.plan planId plan)
  | .terminalUpsert terminalId patch => some (.terminal terminalId ((snapshot patch).getD ""))
  | .terminalOutputChunk terminalId bytes => some (.terminal terminalId bytes)
  | .permissionRequested request => some (.permission request.reqId request none)
  | .error code message _ => some (.error code message)
  | _ => none

/-- A mutation keeps both the id and the kind of its entry. -/
theorem touch_keeps {event : TurnEventBody} {e e' : Entry} (h : touch event e = some e') :
    e'.entryId = e.entryId ∧ e'.kind = e.kind := by
  cases event <;> cases e <;>
    simp only [touch, Option.some.injEq, Option.map_eq_some_iff, reduceCtorEq] at h <;>
    first
    | (subst h; exact ⟨rfl, rfl⟩)
    | (obtain ⟨text, _, rfl⟩ := h; exact ⟨rfl, rfl⟩)

/-- Entry materialization as a keyed reducer. -/
@[reducible] def entryReducer : Reducer Entry String TurnEventBody where
  key := Entry.entryId
  target := targetId
  touch := touch
  fresh := freshEntry
  key_touch h := (touch_keeps h).1
  target_fresh {event e} h := by
    cases event <;> simp only [freshEntry, Option.some.injEq, reduceCtorEq] at h <;>
      (subst h; rfl)

/-- Id and kind of an entry: what a mutation never changes. -/
def shape (e : Entry) : String × EntryKind := (e.entryId, e.kind)

theorem shape_touch {event : TurnEventBody} {e e' : Entry}
    (h : entryReducer.touch event e = some e') : shape e' = shape e :=
  Prod.ext (touch_keeps h).1 (touch_keeps h).2

/-- A live event acts on the entries as the abstract reducer says. -/
theorem applyEvent_live (entries : List Entry) (event : TurnEventBody) :
    (applyEvent entries event false).1 = entryReducer.live entries event := by
  cases event with
  | toolCallContentChunk toolCallId item =>
    simp only [applyEvent, Reducer.live, targetId, findMut]
    cases hf : lookup Entry.entryId toolCallId entries with
    | none => simp [freshEntry]
    | some e =>
      cases e with
      | toolCall id patch =>
        cases item <;> cases ho : patch.output <;> simp [touch, chunkText, ho]
      | _ => simp [touch]
  | permissionResolved reqId outcome decidedBy =>
    simp only [applyEvent, Reducer.live, targetId, findMut]
    cases hf : lookup Entry.entryId reqId entries with
    | none => simp [freshEntry]
    | some e => cases e <;> simp [touch]
  | messageChunk chunk =>
    simp only [applyEvent, Reducer.live, targetId, findMut]
    cases hf : lookup Entry.entryId chunk.messageId entries with
    | none => simp [freshEntry]
    | some e => cases e <;> simp [touch]
  | messageUpsert upsert =>
    simp only [applyEvent, Reducer.live, targetId, findMut]
    cases hf : lookup Entry.entryId upsert.messageId entries with
    | none => simp [freshEntry]
    | some e => cases e <;> simp [touch]
  | toolCallUpsert id _ | planUpsert id _ | terminalUpsert id _ | terminalOutputChunk id _ =>
    simp only [applyEvent, Reducer.live, targetId, findMut]
    cases hf : lookup Entry.entryId id entries with
    | none => simp [freshEntry]
    | some e => cases e <;> simp [touch]
  | permissionRequested request =>
    simp only [applyEvent, Reducer.live, targetId, findMut]
    cases hf : lookup Entry.entryId request.reqId entries with
    | none => simp [freshEntry]
    | some e => cases e <;> simp [touch]
  | error code message retryable =>
    simp only [applyEvent, Reducer.live, targetId, findMut]
    cases hf : lookup Entry.entryId "error" entries with
    | none => simp [freshEntry]
    | some e => cases e <;> simp [touch]
  | _ => rfl

/-- A replayed event only creates a missing entry. -/
theorem applyEvent_replay (entries : List Entry) (event : TurnEventBody) :
    (applyEvent entries event true).1 = entryReducer.replay entries event := by
  unfold Reducer.replay
  cases ht : targetId event with
  | none =>
    rw [Reducer.added_of_no_target (R := entryReducer) ht, List.append_nil]
    cases event <;> first | rfl | simp [targetId] at ht
  | some x =>
    by_cases hx : (findMut entries x).isSome
    · rw [Reducer.added_of_mem (R := entryReducer) ht (lookup_isSome.mp hx), List.append_nil]
      cases event <;> simp only [targetId, Option.some.injEq, reduceCtorEq] at ht <;>
        subst ht <;> simp [applyEvent, hx]
    · have hnone : findMut entries x = none := by simpa using hx
      rw [Reducer.added_of_not_mem (R := entryReducer) ht (lookup_eq_none.mp hnone)]
      cases event <;> simp only [targetId, Option.some.injEq, reduceCtorEq] at ht <;>
        subst ht <;> simp [applyEvent, hnone, freshEntry]

end Tethys.Thread
