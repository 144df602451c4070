import Tethys.Acp.Updates

/-!
# Three-state patches, end to end

The entry of a message or tool call is compared with the meaning of its updates after every
update. Messages keep it without exception. For tool calls the mapper drops the difference
between `null` and an omitted field and turns a `content` value into chunks;
`patches_fold_iff` says for each field exactly which updates that goes wrong for.
-/

namespace Tethys.Acp

open Schema Lib Thread V2

/-! ## What should hold -/

/-- The fields of a tool call. An entry keeps the raw output and the text of the content
in one place, so they are one field here. -/
inductive Field where
  | title | kind | status | locations | rawInput | output
  deriving DecidableEq

/-- The entry shows a field as the updates say. For the output: raw output, then the text
of the content, every item of which has one. -/
def FieldAgrees (id : String) (field : Field) (s : List Entry × ToolCallFold) : Prop :=
  let shown := shownPatch s.1 id
  match field with
  | .title => shown.title = s.2.title
  | .kind => shown.kind = s.2.kind.map (trimMatches '"')
  | .status => shown.status = s.2.status.map toolStatus
  | .locations => shown.locations = s.2.locations.getD []
  | .rawInput => shown.input = s.2.rawInput
  | .output => (∀ item ∈ s.2.items, (itemText item).isSome) ∧
      shown.output.getD "" = s.2.rawOutput.getD "" ++ contentText s.2.items

/-- The text of raw output and content survives a patch: without a new raw output, `null`
comes only while there is none and `content` is given only while there is no text; a new
raw output over content text comes with new content or `null`. -/
def OutputOk (fold : ToolCallFold) (update : ToolCallUpdate) : Prop :=
  (∀ items, update.content = .value items → ∀ item ∈ items, (itemText item).isSome) ∧
  match update.rawOutput with
  | .value _ => update.content = .undefined → contentText fold.items = ""
  | .null => fold.rawOutput.getD "" = "" ∧
      (update.content ≠ .undefined → contentText fold.items = "")
  | .undefined => update.content ≠ .undefined → contentText fold.items = ""

/-- The updates that a field survives: `null` (for locations also the empty list) comes
only while the field is unset, and a chunk of content comes only for a known tool call. -/
def FieldOk (id : String) (field : Field) (s : List Entry × ToolCallFold) :
    SessionUpdate → Prop
  | .toolCallUpdate update =>
    match field with
    | .title => update.title = .null → s.2.title = none
    | .kind => update.kind = .null → s.2.kind = none
    | .status => update.status = .null → s.2.status = none
    | .locations => update.locations = .null ∨ update.locations = .value [] →
        s.2.locations.getD [] = []
    | .rawInput => update.rawInput = .null → s.2.rawInput = none
    | .output => OutputOk s.2 update
  | .toolCallContentChunk chunk =>
    match field with
    | .output => (itemText chunk.content).isSome ∧
        (findMut s.1 id = none → itemText chunk.content = some "")
    | _ => True
  | _ => True

/-! ## One field through one patch -/

/-- A scalar field: `mergeToolCall` after `maybeValue` is the three-state patch, except that
`null` leaves a set field as it is. -/
theorem merged_eq_patch_iff {α β : Type} (f : α → β) (field : MaybeUndefined α)
    {shown : Option β} {old : Option α} (h : shown = old.map f) :
    ((if ((maybeValue field).map f).isSome then (maybeValue field).map f else shown) =
        (field.patch old).map f) ↔ (field = .null → old = none) := by
  subst h
  cases field <;> simp [maybeValue, MaybeUndefined.patch]

theorem maybeString_eq (field : MaybeUndefined String) : maybeString field = maybeValue field := by
  cases field <;> rfl

theorem merged_locations_iff (field : MaybeUndefined (List String)) {shown : List String}
    {old : Option (List String)} (h : shown = old.getD []) :
    ((if ((maybeValue field).getD []).isEmpty then shown else (maybeValue field).getD []) =
        (field.patch old).getD []) ↔
      (field = .null ∨ field = .value [] → old.getD [] = []) := by
  subst h
  cases field with
  | undefined => simp [maybeValue, MaybeUndefined.patch]
  | null => simp [maybeValue, MaybeUndefined.patch]
  | value locations => cases locations <;> simp [maybeValue, MaybeUndefined.patch]

/-- The output text through one patch, `r` and `c` being the texts of raw output and content
so far. -/
theorem output_patch_iff {shown : Option String} (fold : ToolCallFold) (update : ToolCallUpdate)
    (h : shown.getD "" = fold.rawOutput.getD "" ++ contentText fold.items) :
    ((if (maybeValue update.rawOutput).isSome then maybeValue update.rawOutput else shown).getD ""
        ++ contentText (givenItems update) =
      (update.rawOutput.patch fold.rawOutput).getD "" ++
        contentText ((update.content.patch fold.content).getD [])) ↔
      match update.rawOutput with
      | .value _ => update.content = .undefined → contentText fold.items = ""
      | .null => fold.rawOutput.getD "" = "" ∧
          (update.content ≠ .undefined → contentText fold.items = "")
      | .undefined => update.content ≠ .undefined → contentText fold.items = "" := by
  unfold ToolCallFold.items at h ⊢
  have hself : ∀ raw text : String, raw = raw ++ text ↔ text = "" := by
    intro raw text
    rw [eq_comm]
    simp
  cases hr : update.rawOutput <;> cases hc : update.content <;>
    simp [maybeValue, MaybeUndefined.patch, givenItems, hc, h, contentText, hself]

/-! ## Runs of updates -/

theorem free_of_lookup {entries : List Entry} {id : String} {patch : ToolCallPatch}
    (h : findMut entries id = some (.toolCall id patch)) :
    FreeOrToolCall entries id ∧ shownPatch entries id = patch := by
  refine ⟨fun e he => ?_, by simp [shownPatch, h]⟩
  obtain rfl : _ = e := Option.some.inj (h.symm.trans he)
  rfl

theorem free_step {id : String} {entries : List Entry} {update : SessionUpdate}
    (hu : ForToolCall id update) (hfree : FreeOrToolCall entries id) :
    FreeOrToolCall (applyUpdate entries update) id := by
  cases update with
  | toolCallUpdate update =>
    obtain rfl : update.toolCallId = id := hu
    exact (free_of_lookup (lookup_toolCallUpdate update hfree)).1
  | toolCallContentChunk chunk =>
    obtain rfl : chunk.toolCallId = id := hu
    intro e he
    rw [lookup_toolCallContentChunk chunk hfree, Option.map_eq_some_iff] at he
    obtain ⟨_, _, rfl⟩ := he
    rfl
  | _ => exact hu.elim

/-- A patch leaves a field in agreement exactly when it meets the field's condition. -/
theorem patch_agrees_iff {field : Field} {s : List Entry × ToolCallFold} (update : ToolCallUpdate)
    (hfree : FreeOrToolCall s.1 update.toolCallId)
    (hs : FieldAgrees update.toolCallId field s) :
    FieldAgrees update.toolCallId field
        (applyUpdate s.1 (.toolCallUpdate update), s.2.next (.toolCallUpdate update)) ↔
      FieldOk update.toolCallId field s (.toolCallUpdate update) := by
  have hshown := (free_of_lookup (lookup_toolCallUpdate update hfree)).2
  obtain ⟨output, hfields⟩ := foldl_addItem_fields (givenItems update)
    (mergeToolCall (shownPatch s.1 update.toolCallId) (toolPatch update))
  have hout := foldl_addItem_output (givenItems update)
    (mergeToolCall (shownPatch s.1 update.toolCallId) (toolPatch update))
  rw [← hshown] at hfields hout
  cases field with
  | title =>
    have hs : (shownPatch s.1 update.toolCallId).title = s.2.title.map (·) := by
      simpa [FieldAgrees] using hs
    simpa [FieldAgrees, FieldOk, hfields, mergeToolCall, toolPatch, ToolCallFold.next,
      maybeString_eq] using merged_eq_patch_iff (·) update.title hs
  | kind =>
    simpa [FieldAgrees, FieldOk, hfields, mergeToolCall, toolPatch, ToolCallFold.next]
      using merged_eq_patch_iff (trimMatches '"') update.kind hs
  | status =>
    simpa [FieldAgrees, FieldOk, hfields, mergeToolCall, toolPatch, ToolCallFold.next]
      using merged_eq_patch_iff toolStatus update.status hs
  | rawInput =>
    have hs : (shownPatch s.1 update.toolCallId).input = s.2.rawInput.map (·) := by
      simpa [FieldAgrees] using hs
    have h := merged_eq_patch_iff (·) update.rawInput hs
    simp only [Option.map_id_fun'] at h
    simp only [FieldAgrees, FieldOk, hfields, mergeToolCall, toolPatch, ToolCallFold.next]
    exact h
  | locations =>
    simpa [FieldAgrees, FieldOk, hfields, mergeToolCall, toolPatch, ToolCallFold.next]
      using merged_locations_iff update.locations hs
  | output =>
    have hpatch := output_patch_iff s.2 update hs.2
    have hitems : (∀ item ∈ (update.content.patch s.2.content).getD [], (itemText item).isSome) ↔
        ∀ items, update.content = .value items → ∀ item ∈ items, (itemText item).isSome := by
      have hold := hs.1
      unfold ToolCallFold.items at hold
      cases hc : update.content <;> simp_all [MaybeUndefined.patch]
    refine and_congr hitems ?_
    rw [hout]
    exact hpatch

theorem forall_mem_append_singleton {items : List V2.ToolCallContent} {item : V2.ToolCallContent}
    {p : V2.ToolCallContent → Prop} (h : ∀ item ∈ items, p item) :
    (∀ item' ∈ items ++ [item], p item') ↔ p item := by
  grind

/-- The same for a content chunk. -/
theorem chunk_agrees_iff {field : Field} {s : List Entry × ToolCallFold}
    (chunk : V2.ToolCallContentChunk) (hfree : FreeOrToolCall s.1 chunk.toolCallId)
    (hs : FieldAgrees chunk.toolCallId field s) :
    FieldAgrees chunk.toolCallId field
        (applyUpdate s.1 (.toolCallContentChunk chunk), s.2.next (.toolCallContentChunk chunk)) ↔
      FieldOk chunk.toolCallId field s (.toolCallContentChunk chunk) := by
  have hl := lookup_toolCallContentChunk chunk hfree
  have hnext : (s.2.next (.toolCallContentChunk chunk)).items = s.2.items ++ [chunk.content] := rfl
  have hraw : (s.2.next (.toolCallContentChunk chunk)).rawOutput = s.2.rawOutput := rfl
  have hlast : contentText [chunk.content] = (itemText chunk.content).getD "" := by
    simp [contentText]
  cases hf : findMut s.1 chunk.toolCallId with
  | none =>
    have hnow : shownPatch s.1 chunk.toolCallId = emptyPatch := by simp [shownPatch, hf]
    have hthen : shownPatch (applyUpdate s.1 (.toolCallContentChunk chunk)) chunk.toolCallId =
        emptyPatch := by simp [shownPatch, hl, hf]
    cases field with
    | output =>
      simp only [FieldAgrees, hnow] at hs
      obtain ⟨hitems, htext⟩ := hs
      -- there is no entry, so there was no text so far
      have hempty : s.2.rawOutput.getD "" ++ contentText s.2.items = "" := htext.symm
      simp only [FieldAgrees, FieldOk, hthen, hf, hnext, hraw, forall_const, contentText_append,
        ← String.append_assoc, hempty, forall_mem_append_singleton hitems, hlast]
      cases itemText chunk.content <;> simp [emptyPatch, eq_comm]
    | _ => simpa [FieldAgrees, FieldOk, hnow, hthen, ToolCallFold.next] using hs
  | some e =>
    rw [hf, Option.map_some] at hl
    have hshown := (free_of_lookup hl).2
    obtain ⟨output, hfields⟩ := addItem_fields (shownPatch s.1 chunk.toolCallId) chunk.content
    have hout := addItem_output (shownPatch s.1 chunk.toolCallId) chunk.content
    rw [← hshown] at hfields hout
    cases field with
    | output =>
      obtain ⟨hitems, htext⟩ := hs
      simp only [FieldAgrees, FieldOk, hout, htext, hnext, hraw, hf, contentText_append, hlast,
        forall_mem_append_singleton hitems, String.append_assoc]
      simp
    | _ => simpa [FieldAgrees, FieldOk, hfields, ToolCallFold.next] using hs

/-- One update for a tool call leaves a field in agreement exactly when the field survives it. -/
theorem field_step_iff {id : String} {field : Field} {s : List Entry × ToolCallFold}
    {update : SessionUpdate} (hu : ForToolCall id update) (hfree : FreeOrToolCall s.1 id)
    (hs : FieldAgrees id field s) :
    FieldAgrees id field (applyUpdate s.1 update, s.2.next update) ↔ FieldOk id field s update := by
  cases update with
  | toolCallUpdate update =>
    obtain rfl : update.toolCallId = id := hu
    exact patch_agrees_iff update hfree hs
  | toolCallContentChunk chunk =>
    obtain rfl : chunk.toolCallId = id := hu
    exact chunk_agrees_iff chunk hfree hs
  | _ => exact hu.elim

/-- The three-state rules, for every sequence of updates of one message or tool call that
starts under a free id. The content of a message is the fold of its updates after each of
them. A field of a tool call is the fold of its updates after each of them if and only if
every update meets the field's condition. -/
theorem patches_fold_iff (entries : List Entry) (id : String) (hfree : findMut entries id = none) :
    (∀ updates : List {update // ForMessage id update},
      Always messageStep (MessageAgrees id) (entries, []) updates) ∧
    ∀ (updates : List {update // ForToolCall id update}) (field : Field),
      Always toolStep (FieldAgrees id field) (entries, .empty) updates ↔
        Meets toolStep (fun s update => FieldOk id field s update) (entries, .empty) updates := by
  refine ⟨?_, ?_⟩
  · intro updates
    refine always_of_run (I := fun s => FreeOrMessage s.1 id ∧ MessageAgrees id s)
      (fun s h => h.2) ?_ ?_
    · rintro s ⟨update, hu⟩ t ⟨hs, hagree⟩ ht
      obtain rfl := Option.some.inj ht
      exact message_step hu hs hagree
    · refine ⟨?_, ?_⟩
      · intro e he
        simp [hfree] at he
      · simp [MessageAgrees, shownBlocks, hfree]
  · intro updates field
    refine always_iff_meets (I := fun s => FreeOrToolCall s.1 id ∧ FieldAgrees id field s)
      (fun s h => h.2) ?_ ?_ ?_
    · rintro s ⟨update, hu⟩ t ⟨hs, hagree⟩ hok ht
      obtain rfl := Option.some.inj ht
      exact ⟨free_step hu hs, (field_step_iff hu hs hagree).mpr hok⟩
    · rintro s ⟨update, hu⟩ t ⟨hs, hagree⟩ ht hP
      obtain rfl := Option.some.inj ht
      exact (field_step_iff hu hs hagree).mp hP
    · refine ⟨?_, ?_⟩
      · intro e he
        simp [hfree] at he
      · cases field <;> simp [FieldAgrees, shownPatch, hfree, emptyPatch, ToolCallFold.empty,
          ToolCallFold.items, contentText]

/-- A patch of a tool call that leaves every field out. -/
def omitted (id : String) : ToolCallUpdate :=
  ⟨id, .undefined, .undefined, .undefined, .undefined, .undefined, .undefined, .undefined⟩

/-- A title that is set and then left out is shown all along. -/
theorem title_kept_by_omission :
    Always toolStep (FieldAgrees "call" .title) ([], .empty)
      [⟨.toolCallUpdate { omitted "call" with title := .value "Run tests" }, rfl⟩,
        ⟨.toolCallUpdate { omitted "call" with status := .value .completed }, rfl⟩] := by
  refine ((patches_fold_iff [] "call" rfl).2 _ .title).mpr ?_
  intro s _
  refine ⟨nofun, fun t _ => ⟨nofun, trivial⟩⟩

/-- `null` for a title that is set, `content` given again, and a chunk that comes first: the
entry keeps the title, shows both contents, and loses the chunk. -/
theorem title_survives_null :
    let patch (update : ToolCallUpdate) : SessionUpdate := .toolCallUpdate update
    let text (text : String) : V2.ToolCallContent := .content (.text text)
    let run (updates : List SessionUpdate) : ToolCallPatch × ToolCallFold :=
      (shownPatch (updates.foldl applyUpdate []) "call",
        updates.foldl ToolCallFold.next .empty)
    let cleared := run [patch { omitted "call" with title := .value "Run tests" },
      patch { omitted "call" with title := .null }]
    let replaced := run [patch { omitted "call" with content := .value [text "one"] },
      patch { omitted "call" with content := .value [text "two"] }]
    let early := run [.toolCallContentChunk ⟨"call", text "one"⟩, patch (omitted "call")]
    cleared.1.title = some "Run tests" ∧ cleared.2.title = none ∧
    replaced.1.output = some "onetwo" ∧ replaced.2.content = some [text "two"] ∧
    early.1.output = none ∧ early.2.content = some [text "one"] := by
  decide

end Tethys.Acp
