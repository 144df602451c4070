import Mathlib.Data.List.TakeWhile
import Tethys.Lib.Lasts
import Tethys.Thread.Kinds

/-!
# What a transcript holds

The entries of a live transcript, read off the events alone: for each message, tool call,
terminal, plan and for the error, the values that its events gave last and the chunks since.
`entries_materialized` says that the reducer computes these entries, in the order in which they
were created.
-/

namespace Tethys.Thread

open Schema Lib ThreadMachine

/-! ## What an event says of the entry `x` -/

def messageUpsertOf (x : String) : TurnEventBody → Option MessageUpsert
  | .messageUpsert upsert => if upsert.messageId = x then some upsert else none
  | _ => none

def messageChunkOf (x : String) : TurnEventBody → Option MessageChunk
  | .messageChunk chunk => if chunk.messageId = x then some chunk else none
  | _ => none

def toolCallPatchOf (x : String) : TurnEventBody → Option ToolCallPatch
  | .toolCallUpsert toolCallId patch => if toolCallId = x then some patch else none
  | _ => none

/-- The text of a content chunk that holds text or a diff. -/
def toolCallTextOf (x : String) : TurnEventBody → Option String
  | .toolCallContentChunk toolCallId (.text text) => if toolCallId = x then some text else none
  | .toolCallContentChunk toolCallId (.diff _ patch) => if toolCallId = x then some patch else none
  | _ => none

def terminalPatchOf (x : String) : TurnEventBody → Option (Patch String)
  | .terminalUpsert terminalId patch => if terminalId = x then some patch else none
  | _ => none

def terminalChunkOf (x : String) : TurnEventBody → Option String
  | .terminalOutputChunk terminalId bytes => if terminalId = x then some bytes else none
  | _ => none

def planOf (x : String) : TurnEventBody → Option PlanContent
  | .planUpsert planId plan => if planId = x then some plan else none
  | _ => none

def errorOf : TurnEventBody → Option (String × String)
  | .error code message _ => some (code, message)
  | _ => none

/-! ## The entries -/

section Entries
variable (x : String) (events : List TurnEventBody)

/-- The role of the last upsert, or of the first chunk if there was none. -/
def messageRole : Option Role :=
  (lastSome (fun event => (messageUpsertOf x event).map (·.role)) events).or
    (events.findSome? fun event => (messageChunkOf x event).map (·.role))

/-- The blocks that an upsert sets or clears. -/
def blocksGiven (event : TurnEventBody) : Option (List ContentBlock) :=
  match (messageUpsertOf x event).map MessageUpsert.content with
  | some (.set blocks) => some blocks
  | some .clear => some []
  | some .unchanged | none => none

def messageBlocks : List ContentBlock :=
  (lastSome (blocksGiven x) events).getD [] ++
    (sinceLast (blocksGiven x) events).filterMap fun event => (messageChunkOf x event).map (·.block)

def messageEntry : Option Entry :=
  (messageRole x events).map fun role => .message x role (messageBlocks x events)

def outputGiven (event : TurnEventBody) : Option String :=
  (toolCallPatchOf x event).bind fun patch => patch.output

/-- The last output given and the text since, or else the text since the first upsert. -/
def toolCallOutput : Option String :=
  match lastSome (outputGiven x) events with
  | some output =>
    some (output ++ String.join ((sinceLast (outputGiven x) events).filterMap (toolCallTextOf x)))
  | none =>
    let texts := (events.dropWhile fun event => (toolCallPatchOf x event).isNone).filterMap
      (toolCallTextOf x)
    if texts = [] then none else some (String.join texts)

/-- The last value of a field that upserts gave. -/
def fieldGiven {β : Type} (field : ToolCallPatch → Option β) : Option β :=
  lastSome (fun event => (toolCallPatchOf x event).bind field) events

def toolCallPatch : ToolCallPatch where
  title := fieldGiven x events (·.title)
  kind := fieldGiven x events (·.kind)
  status := fieldGiven x events (·.status)
  input := fieldGiven x events (·.input)
  output := toolCallOutput x events
  locations := (fieldGiven x events fun patch =>
    if patch.locations = [] then none else some patch.locations).getD []

/-- An upsert has named the tool call. -/
def toolCallCreated : Bool := events.any fun event => (toolCallPatchOf x event).isSome

def toolCallEntry : Option Entry :=
  if toolCallCreated x events then some (.toolCall x (toolCallPatch x events)) else none

/-- The output that an upsert sets or clears. -/
def terminalGiven (event : TurnEventBody) : Option String :=
  match terminalPatchOf x event with
  | some (.set text) => some text
  | some .clear => some ""
  | some .unchanged | none => none

def terminalOutput : String :=
  (lastSome (terminalGiven x) events).getD "" ++
    String.join ((sinceLast (terminalGiven x) events).filterMap (terminalChunkOf x))

/-- An upsert or a chunk has named the terminal. -/
def terminalCreated : Bool :=
  events.any fun event => (terminalPatchOf x event).isSome || (terminalChunkOf x event).isSome

def terminalEntry : Option Entry :=
  if terminalCreated x events then some (.terminal x (terminalOutput x events)) else none

def planEntry : Option Entry := (lastSome (planOf x) events).map fun plan => .plan x plan

def errorEntry : Option Entry :=
  (lastSome errorOf events).map fun (code, message) => .error code message

/-- The entry of a kind under an id. Permissions have their own module. -/
def materialized : EntryKind → Option Entry
  | .message => messageEntry x events
  | .toolCall => toolCallEntry x events
  | .plan => planEntry x events
  | .terminal => terminalEntry x events
  | .error => errorEntry events
  | .permission => none

end Entries

/-- No id is used by two kinds of entry. -/
def IdsApart (events : List TurnEventBody) : Prop :=
  ∀ a ∈ events, ∀ b ∈ events, targetId a = targetId b → eventKind a = eventKind b

instance (events : List TurnEventBody) : Decidable (IdsApart events) :=
  inferInstanceAs (Decidable (∀ a ∈ events, ∀ b ∈ events, _ → _))

variable {events : List TurnEventBody} {event : TurnEventBody} {x : String}

/-! ## Step by step -/

/-- The last event acts on the entry with its id. -/
theorem lookup_liveEntries_append (x : String) (events : List TurnEventBody) (event : TurnEventBody) :
    lookup Entry.entryId x (liveEntries (events ++ [event])) =
      if targetId event = some x then
        match lookup Entry.entryId x (liveEntries events) with
        | some e => some ((touch event e).getD e)
        | none => freshEntry event
      else lookup Entry.entryId x (liveEntries events) := by
  rw [liveEntries_append]
  split_ifs with ht
  · cases hl : lookup Entry.entryId x (liveEntries events) with
    | none => exact Reducer.lookup_live_of_none (R := entryReducer) ht hl
    | some e => exact Reducer.lookup_live_of_some (R := entryReducer) ht hl
  · exact Reducer.lookup_live_of_ne (R := entryReducer) ht

/-- Events for other ids say nothing of the entry. -/
theorem says_nothing (h : targetId event ≠ some x) :
    messageUpsertOf x event = none ∧ messageChunkOf x event = none ∧ toolCallPatchOf x event = none ∧
    toolCallTextOf x event = none ∧ terminalPatchOf x event = none ∧ terminalChunkOf x event = none ∧
    planOf x event = none := by
  cases event with
  | toolCallContentChunk _ item =>
    cases item <;>
      simp_all [targetId, messageUpsertOf, messageChunkOf, toolCallPatchOf, toolCallTextOf,
        terminalPatchOf, terminalChunkOf, planOf]
  | _ =>
    simp_all [targetId, messageUpsertOf, messageChunkOf, toolCallPatchOf, toolCallTextOf,
      terminalPatchOf, terminalChunkOf, planOf]

/-! ### Messages -/

theorem blocksGiven_eq : blocksGiven x event =
    (messageUpsertOf x event).bind fun upsert => replacement upsert.content := by
  unfold blocksGiven
  cases messageUpsertOf x event with
  | none => rfl
  | some upsert => cases hcontent : upsert.content <;> simp [hcontent, replacement]

theorem messageRole_append : messageRole x (events ++ [event]) =
    ((messageUpsertOf x event).map (·.role)).or
      ((messageRole x events).or ((messageChunkOf x event).map (·.role))) := by
  simp only [messageRole, lastSome_append_singleton, List.findSome?_append, List.findSome?_singleton,
    Option.or_assoc]

theorem messageBlocks_append : messageBlocks x (events ++ [event]) =
    (blocksGiven x event).getD
      (messageBlocks x events ++ ((messageChunkOf x event).map (·.block)).toList) := by
  rw [messageBlocks, lastSome_append_singleton, sinceLast_append_singleton]
  cases blocksGiven x event with
  | some blocks => simp
  | none =>
    cases hchunk : messageChunkOf x event <;> simp [messageBlocks, hchunk]

/-- Without a role there are no blocks either. -/
theorem messageBlocks_of_role_none (h : messageRole x events = none) : messageBlocks x events = [] := by
  induction events using List.reverseRecOn with
  | nil => rfl
  | append_singleton events event ih =>
    rw [messageRole_append] at h
    simp only [Option.or_eq_none_iff, Option.map_eq_none_iff] at h
    obtain ⟨hupsert, hrole, hchunk⟩ := h
    rw [messageBlocks_append, ih hrole]
    simp [blocksGiven, hupsert, hchunk]

theorem lookup_message (h : ∀ a ∈ events, targetId a = some x → eventKind a = some .message) :
    lookup Entry.entryId x (liveEntries events) = messageEntry x events := by
  induction events using List.reverseRecOn with
  | nil => rfl
  | append_singleton events event ih =>
    have ih := ih fun a ha => h a (List.mem_append_left _ ha)
    rw [lookup_liveEntries_append, ih, messageEntry, messageEntry, messageRole_append,
      messageBlocks_append]
    split_ifs with ht
    · have hkind := h event (by simp) ht
      cases event with
      | messageChunk chunk =>
        obtain rfl : chunk.messageId = x := Option.some.inj ht
        cases hrole : messageRole chunk.messageId events with
        | none =>
          simp [messageUpsertOf, messageChunkOf, blocksGiven_eq, freshEntry,
            messageBlocks_of_role_none hrole]
        | some role => simp [messageUpsertOf, messageChunkOf, blocksGiven_eq, touch]
      | messageUpsert upsert =>
        obtain rfl : upsert.messageId = x := Option.some.inj ht
        cases hrole : messageRole upsert.messageId events with
        | none =>
          simp [messageUpsertOf, messageChunkOf, blocksGiven_eq, freshEntry,
            messageBlocks_of_role_none hrole]
        | some role => simp [messageUpsertOf, messageChunkOf, blocksGiven_eq, touch]
      | _ => simp [eventKind] at hkind
    · obtain ⟨hupsert, hchunk, -⟩ := says_nothing ht
      simp [blocksGiven, hupsert, hchunk]

/-! ### Tool calls -/

theorem toolCallCreated_append : toolCallCreated x (events ++ [event]) =
    (toolCallCreated x events || (toolCallPatchOf x event).isSome) := by
  simp [toolCallCreated]

theorem fieldGiven_append {β : Type} {field : ToolCallPatch → Option β} :
    fieldGiven x (events ++ [event]) field =
      ((toolCallPatchOf x event).bind field).or (fieldGiven x events field) :=
  lastSome_append_singleton

/-- Before the first upsert nothing is given. -/
theorem fieldGiven_of_not_created {β : Type} {field : ToolCallPatch → Option β}
    (h : toolCallCreated x events = false) : fieldGiven x events field = none := by
  rw [fieldGiven, lastSome_eq_none]
  intro event hevent
  have hnone : toolCallPatchOf x event = none := by
    simpa [toolCallCreated] using (List.any_eq_false.mp h) event hevent
  simp [hnone]

theorem dropWhile_of_not_created (h : toolCallCreated x events = false) :
    events.dropWhile (fun event => (toolCallPatchOf x event).isNone) = [] := by
  rw [List.dropWhile_eq_nil_iff]
  intro event hevent
  simpa [toolCallCreated] using (List.any_eq_false.mp h) event hevent

theorem dropWhile_of_created (h : toolCallCreated x events = true) :
    (events ++ [event]).dropWhile (fun event => (toolCallPatchOf x event).isNone) =
      events.dropWhile (fun event => (toolCallPatchOf x event).isNone) ++ [event] := by
  have hne : events.dropWhile (fun event => (toolCallPatchOf x event).isNone) ≠ [] := by
    rw [ne_eq, List.dropWhile_eq_nil_iff]
    intro hall
    obtain ⟨a, ha, hsome⟩ := List.any_eq_true.mp h
    have hnone := hall a ha
    rw [Option.isNone_iff_eq_none] at hnone
    simp [hnone] at hsome
  rw [List.dropWhile_append, if_neg (by simpa using hne)]

/-- An upsert keeps the output, unless it gives one. -/
theorem toolCallOutput_append_upsert {patch : ToolCallPatch} (hcreated : toolCallCreated x events = true)
    (hpatch : toolCallPatchOf x event = some patch) (htext : toolCallTextOf x event = none) :
    toolCallOutput x (events ++ [event]) = patch.output.or (toolCallOutput x events) := by
  have hgiven : outputGiven x event = patch.output := by simp [outputGiven, hpatch]
  simp only [toolCallOutput, lastSome_append_singleton, sinceLast_append_singleton, hgiven,
    dropWhile_of_created hcreated]
  cases patch.output with
  | some output => simp
  | none => cases lastSome (outputGiven x) events <;> simp [htext]

/-- A chunk is put after the output. -/
theorem toolCallOutput_append_text {text : Option String} (hcreated : toolCallCreated x events = true)
    (hpatch : toolCallPatchOf x event = none) (htext : toolCallTextOf x event = text) :
    toolCallOutput x (events ++ [event]) =
      (text.map fun text => (toolCallOutput x events).getD "" ++ text).or (toolCallOutput x events) := by
  have hgiven : outputGiven x event = none := by simp [outputGiven, hpatch]
  simp only [toolCallOutput, lastSome_append_singleton, sinceLast_append_singleton, hgiven,
    dropWhile_of_created hcreated]
  cases text with
  | none => cases lastSome (outputGiven x) events <;> simp [htext]
  | some text =>
    cases lastSome (outputGiven x) events with
    | some output => simp [htext, String.append_assoc]
    | none =>
      have htail : [event].filterMap (toolCallTextOf x) = [text] := by simp [htext]
      simp only [Option.none_or, List.filterMap_append, htail]
      rw [if_neg (by simp)]
      split_ifs with htexts
      · simp [htexts]
      · simp

/-- The first upsert is taken as it is. -/
theorem toolCallPatch_first {patch : ToolCallPatch} (hcreated : toolCallCreated x events = false)
    (hpatch : toolCallPatchOf x event = some patch) (htext : toolCallTextOf x event = none) :
    toolCallPatch x (events ++ [event]) = patch := by
  have houtput : toolCallOutput x (events ++ [event]) = patch.output := by
    have hgiven : lastSome (outputGiven x) events = none := fieldGiven_of_not_created hcreated
    have hevent : outputGiven x event = patch.output := by simp [outputGiven, hpatch]
    simp only [toolCallOutput, lastSome_append_singleton, sinceLast_append_singleton, hgiven, hevent,
      List.dropWhile_append, dropWhile_of_not_created hcreated]
    cases patch.output <;> simp [hpatch, htext]
  obtain ⟨title, kind, status, input, output, locations⟩ := patch
  simp only [toolCallPatch, houtput, fieldGiven_append, hpatch, Option.bind_some,
    fieldGiven_of_not_created hcreated, Option.or_none]
  by_cases hlocations : locations = [] <;> simp [hlocations]

/-- Later upserts are merged into it. -/
theorem toolCallPatch_upsert {patch : ToolCallPatch} (hcreated : toolCallCreated x events = true)
    (hpatch : toolCallPatchOf x event = some patch) (htext : toolCallTextOf x event = none) :
    toolCallPatch x (events ++ [event]) = mergeToolCall (toolCallPatch x events) patch := by
  have hor : ∀ {β : Type} (new old : Option β), (if new.isSome then new else old) = new.or old := by
    intro β new old
    cases new <;> rfl
  simp only [toolCallPatch, mergeToolCall, toolCallOutput_append_upsert hcreated hpatch htext,
    fieldGiven_append, hpatch, Option.bind_some, hor]
  by_cases hlocations : patch.locations = [] <;> simp [hlocations]

theorem toolCallPatch_text {text : Option String} (hcreated : toolCallCreated x events = true)
    (hpatch : toolCallPatchOf x event = none) (htext : toolCallTextOf x event = text) :
    toolCallPatch x (events ++ [event]) = { toolCallPatch x events with
      output := (text.map fun text => (toolCallOutput x events).getD "" ++ text).or
        (toolCallOutput x events) } := by
  simp only [toolCallPatch, toolCallOutput_append_text hcreated hpatch htext, fieldGiven_append,
    hpatch, Option.bind_none, Option.none_or]

theorem lookup_toolCall (h : ∀ a ∈ events, targetId a = some x → eventKind a = some .toolCall) :
    lookup Entry.entryId x (liveEntries events) = toolCallEntry x events := by
  induction events using List.reverseRecOn with
  | nil => rfl
  | append_singleton events event ih =>
    have ih := ih fun a ha => h a (List.mem_append_left _ ha)
    rw [lookup_liveEntries_append, ih, toolCallEntry, toolCallEntry, toolCallCreated_append]
    by_cases ht : targetId event = some x
    · have hkind := h event (by simp) ht
      rw [if_pos ht]
      cases event with
      | toolCallUpsert toolCallId patch =>
        obtain rfl : toolCallId = x := Option.some.inj ht
        have hpatch : toolCallPatchOf toolCallId (.toolCallUpsert toolCallId patch) = some patch :=
          if_pos rfl
        cases hcreated : toolCallCreated toolCallId events with
        | false => simp [hpatch, freshEntry, toolCallPatch_first hcreated hpatch rfl]
        | true => simp [touch, toolCallPatch_upsert hcreated hpatch rfl]
      | toolCallContentChunk toolCallId item =>
        obtain rfl : toolCallId = x := Option.some.inj ht
        have htext : toolCallTextOf toolCallId (.toolCallContentChunk toolCallId item) =
            chunkText item := by cases item <;> simp [toolCallTextOf, chunkText]
        cases hcreated : toolCallCreated toolCallId events with
        | false => simp [toolCallPatchOf, freshEntry]
        | true =>
          have hpatch : toolCallPatchOf toolCallId (.toolCallContentChunk toolCallId item) = none := rfl
          rw [toolCallPatch_text hcreated hpatch htext]
          cases hitem : chunkText item <;> simp [touch, toolCallPatch, hitem]
      | _ => simp [eventKind] at hkind
    · obtain ⟨-, -, hpatch, htext, -⟩ := says_nothing ht
      rw [if_neg ht, hpatch, Option.isSome_none, Bool.or_false]
      split_ifs with hcreated
      · rw [toolCallPatch_text hcreated hpatch htext]
        rfl
      · rfl

/-! ### Terminals -/

theorem terminalGiven_eq : terminalGiven x event = (terminalPatchOf x event).bind snapshot := by
  unfold terminalGiven
  cases terminalPatchOf x event with
  | none => rfl
  | some patch => cases patch <;> rfl

theorem terminalCreated_append : terminalCreated x (events ++ [event]) =
    (terminalCreated x events ||
      ((terminalPatchOf x event).isSome || (terminalChunkOf x event).isSome)) := by
  simp [terminalCreated]

theorem terminalOutput_append : terminalOutput x (events ++ [event]) =
    (terminalGiven x event).getD (terminalOutput x events ++ (terminalChunkOf x event).getD "") := by
  rw [terminalOutput, lastSome_append_singleton, sinceLast_append_singleton]
  cases terminalGiven x event with
  | some text => simp
  | none =>
    cases hchunk : terminalChunkOf x event <;>
      simp [terminalOutput, hchunk, String.append_assoc]

theorem terminalOutput_of_not_created (h : terminalCreated x events = false) :
    terminalOutput x events = "" := by
  induction events using List.reverseRecOn with
  | nil => rfl
  | append_singleton events event ih =>
    simp only [terminalCreated_append, Bool.or_eq_false_iff, Option.isSome_eq_false_iff, Option.isNone_iff_eq_none] at h
    rw [terminalOutput_append, ih h.1, terminalGiven, h.2.1, h.2.2]
    rfl

theorem lookup_terminal (h : ∀ a ∈ events, targetId a = some x → eventKind a = some .terminal) :
    lookup Entry.entryId x (liveEntries events) = terminalEntry x events := by
  induction events using List.reverseRecOn with
  | nil => rfl
  | append_singleton events event ih =>
    have ih := ih fun a ha => h a (List.mem_append_left _ ha)
    rw [lookup_liveEntries_append, ih, terminalEntry, terminalEntry, terminalCreated_append,
      terminalOutput_append]
    by_cases ht : targetId event = some x
    · have hkind := h event (by simp) ht
      rw [if_pos ht]
      cases event with
      | terminalUpsert terminalId patch =>
        obtain rfl : terminalId = x := Option.some.inj ht
        cases hcreated : terminalCreated terminalId events with
        | false =>
          simp [terminalPatchOf, terminalChunkOf, terminalGiven_eq, freshEntry,
            terminalOutput_of_not_created hcreated]
        | true => simp [terminalPatchOf, terminalChunkOf, terminalGiven_eq, touch]
      | terminalOutputChunk terminalId bytes =>
        obtain rfl : terminalId = x := Option.some.inj ht
        cases hcreated : terminalCreated terminalId events with
        | false =>
          simp [terminalPatchOf, terminalChunkOf, terminalGiven_eq, freshEntry,
            terminalOutput_of_not_created hcreated]
        | true => simp [terminalPatchOf, terminalChunkOf, terminalGiven_eq, touch]
      | _ => simp [eventKind] at hkind
    · obtain ⟨-, -, -, -, hpatch, hchunk, -⟩ := says_nothing ht
      simp [ht, terminalGiven, hpatch, hchunk]

/-! ### Plans and the error -/

theorem lookup_plan (h : ∀ a ∈ events, targetId a = some x → eventKind a = some .plan) :
    lookup Entry.entryId x (liveEntries events) = planEntry x events := by
  induction events using List.reverseRecOn with
  | nil => rfl
  | append_singleton events event ih =>
    have ih := ih fun a ha => h a (List.mem_append_left _ ha)
    rw [lookup_liveEntries_append, ih, planEntry, planEntry, lastSome_append_singleton]
    split_ifs with ht
    · have hkind := h event (by simp) ht
      cases event with
      | planUpsert planId plan =>
        obtain rfl : planId = x := Option.some.inj ht
        cases lastSome (planOf planId) events <;> simp [planOf, freshEntry, touch]
      | _ => simp [eventKind] at hkind
    · obtain ⟨-, -, -, -, -, -, hplan⟩ := says_nothing ht
      simp [hplan]

theorem lookup_error (h : ∀ a ∈ events, targetId a = some "error" → eventKind a = some .error) :
    lookup Entry.entryId "error" (liveEntries events) = errorEntry events := by
  induction events using List.reverseRecOn with
  | nil => rfl
  | append_singleton events event ih =>
    have ih := ih fun a ha => h a (List.mem_append_left _ ha)
    rw [lookup_liveEntries_append, ih, errorEntry, errorEntry, lastSome_append_singleton]
    split_ifs with ht
    · have hkind := h event (by simp) ht
      cases event with
      | error code message retryable =>
        cases lastSome errorOf events <;> simp [errorOf, freshEntry, touch]
      | _ => simp [eventKind] at hkind
    · have herror : errorOf event = none := by
        cases event <;> first | rfl | simp [targetId] at ht
      simp [herror]

/-! ## The transcript -/

/-- The entry under an id, for every kind but permissions. -/
theorem lookup_materialized {k : EntryKind}
    (h : ∀ a ∈ events, targetId a = some x → eventKind a = some k) (hk : k ≠ .permission)
    (hx : k = .error → x = "error") :
    lookup Entry.entryId x (liveEntries events) = materialized x events k := by
  cases k with
  | message => exact lookup_message h
  | toolCall => exact lookup_toolCall h
  | plan => exact lookup_plan h
  | terminal => exact lookup_terminal h
  | permission => exact absurd rfl hk
  | error =>
    obtain rfl := hx rfl
    exact lookup_error h

theorem IdsApart.createsApart (h : IdsApart events) : CreatesApart events := by
  intro a ha b hb x k k' hcreates hcreates'
  obtain ⟨e, he, hshape⟩ := Option.map_eq_some_iff.mp hcreates
  obtain ⟨e', he', hshape'⟩ := Option.map_eq_some_iff.mp hcreates'
  obtain ⟨rfl, rfl⟩ : e.entryId = x ∧ e.kind = k := by simpa [shape] using hshape
  obtain ⟨hid, rfl⟩ : e'.entryId = e.entryId ∧ e'.kind = k' := by simpa [shape] using hshape'
  have htarget : targetId a = targetId b := by
    rw [targetId_of_fresh he, targetId_of_fresh he', hid]
  have hkind := h a ha b hb htarget
  rw [eventKind_of_fresh he, eventKind_of_fresh he'] at hkind
  exact Option.some.inj hkind

/-- Ids and kinds come in the order of the events that create them, each once. -/
theorem shape_liveEntries (h : CreatesApart events) :
    (liveEntries events).map shape = (events.filterMap creates).eraseDups := by
  induction events using List.reverseRecOn with
  | nil => rfl
  | append_singleton events event ih =>
    have hsub : ∀ a ∈ events, a ∈ events ++ [event] := fun a ha => List.mem_append_left _ ha
    have ih := ih fun a ha b hb => h a (hsub a ha) b (hsub b hb)
    rw [liveEntries_append, Reducer.map_live (R := entryReducer) shape_touch, List.filterMap_append,
      ih]
    cases hf : freshEntry event with
    | none => simp [Reducer.added, hf, creates]
    | some e =>
      have hcreates : creates event = some (shape e) := creates_of_fresh hf
      have hsingle : [event].filterMap creates = [shape e] := by simp [hcreates]
      rw [hsingle, eraseDups_append_singleton]
      by_cases hmem : e.entryId ∈ (liveEntries events).map Entry.entryId
      · obtain ⟨e', he', hid⟩ := List.mem_map.mp hmem
        obtain ⟨a, ha, hcreated⟩ := exists_creates he'
        rw [hid] at hcreated
        have hkind : e'.kind = e.kind := h a (hsub a ha) event (by simp) _ _ _ hcreated hcreates
        have hold : shape e ∈ events.filterMap creates :=
          List.mem_filterMap.mpr ⟨a, ha, by rw [hcreated, hkind]; rfl⟩
        rw [Reducer.added_of_mem (R := entryReducer) (entryReducer.target_fresh hf) hmem, if_pos hold]
        rfl
      · have hnew : shape e ∉ events.filterMap creates := by
          intro hold
          rw [← List.mem_eraseDups, ← ih] at hold
          obtain ⟨e', he', hshape⟩ := List.mem_map.mp hold
          exact hmem (List.mem_map.mpr ⟨e', he', congrArg Prod.fst hshape⟩)
        rw [Reducer.added_of_not_mem (R := entryReducer) (entryReducer.target_fresh hf) hmem,
          if_neg hnew]
        simp [hf]

/-- For every sequence of live events in which no id is used by two kinds: the entries come in
the order of the events that create them, one for each id, and each message, tool call, plan,
terminal and the error is the one that its events describe. -/
theorem entries_materialized (id : String) (events : List (Nat × TurnEventBody))
    (h : IdsApart (events.map Prod.snd)) :
    let entries := ((ThreadMachine.new id).applyAll events .live).entries
    entries.map shape = ((events.map Prod.snd).filterMap creates).eraseDups ∧
    ∀ e ∈ entries, e.kind ≠ .permission →
      materialized e.entryId (events.map Prod.snd) e.kind = some e := by
  intro entries
  have hentries : entries = liveEntries (events.map Prod.snd) := applyAll_live_entries _ events
  rw [hentries]
  refine ⟨shape_liveEntries h.createsApart, fun e he hkind => ?_⟩
  obtain ⟨event, hevent, hcreates⟩ := exists_creates he
  obtain ⟨e', hfresh, hshape⟩ := Option.map_eq_some_iff.mp hcreates
  obtain ⟨hid, hsame⟩ : e'.entryId = e.entryId ∧ e'.kind = e.kind := by simpa [shape] using hshape
  have hkinds : ∀ a ∈ events.map Prod.snd, targetId a = some e.entryId →
      eventKind a = some e.kind := by
    intro a ha ht
    have htarget : targetId a = targetId event := by
      rw [ht, targetId_of_fresh hfresh, hid]
    rw [h a ha event hevent htarget, eventKind_of_fresh hfresh, hsame]
  have herror : e.kind = .error → e.entryId = "error" := by
    intro herror
    cases e <;> first | rfl | cases herror
  rw [← lookup_materialized hkinds hkind herror]
  exact lookup_of_mem (nodup_liveEntries _) he

theorem chunks_materialized :
    let events : List (Nat × TurnEventBody) :=
      [(0, .toolCallContentChunk "c" (.text "early")), (1, .messageChunk ⟨"m", .agent, .text "a"⟩),
        (2, .toolCallUpsert "c" ⟨some "ls", none, none, none, none, []⟩),
        (3, .toolCallContentChunk "c" (.diff "a.rs" "out")), (4, .messageUpsert ⟨"m", .user, .clear⟩),
        (5, .messageChunk ⟨"m", .agent, .text "b"⟩), (6, .terminalOutputChunk "t" "$ "),
        (7, .terminalUpsert "t" .clear), (8, .terminalUpsert "u" (.set "make")),
        (9, .terminalOutputChunk "t" "done"), (10, .terminalOutputChunk "u" " all"),
        (11, .terminalUpsert "u" .unchanged)]
    ((ThreadMachine.new "t").applyAll events .live).entries =
      [.message "m" .user [.text "b"], .toolCall "c" ⟨some "ls", none, none, none, some "out", []⟩,
        .terminal "t" "done", .terminal "u" "make all"] ∧
    (((ThreadMachine.new "t").applyAll events .live).entries.map shape =
      ((events.map Prod.snd).filterMap creates).eraseDups ∧
    ∀ e ∈ ((ThreadMachine.new "t").applyAll events .live).entries, e.kind ≠ .permission →
      materialized e.entryId (events.map Prod.snd) e.kind = some e) := by
  intro events
  exact ⟨by decide, entries_materialized "t" events (by decide)⟩

end Tethys.Thread
