import Tethys.Frontend.Pairing

/-!
# One event on both transcripts

What each kind of live event does to a pair of aligned transcripts, where the rules of the
two reducers agree.
-/

namespace Tethys.Frontend

open Schema Lib Thread

/-- The live entries of the front end after an event. -/
def frontLive (live : List SessionEntry) (event : TurnEventBody) (now : Nat) : List SessionEntry :=
  (sessionReducer { createInitialSessionState "" "" "" "" none with liveEntries := live } event none
    now).liveEntries

theorem sessionReducer_liveEntries (s : SessionState) (event : TurnEventBody) (seq : Option Nat)
    (now : Nat) :
    (sessionReducer s event seq now).liveEntries = frontLive s.liveEntries event now := by
  cases event with
  | stateChanged changed => obtain ⟨state⟩ := changed; cases state <;> rfl
  | _ => rfl

theorem sessionReducer_historyEntries (s : SessionState) (event : TurnEventBody)
    (seq : Option Nat) (now : Nat) :
    (sessionReducer s event seq now).historyEntries = s.historyEntries := by
  cases event with
  | stateChanged changed => obtain ⟨state⟩ := changed; cases state <;> rfl
  | _ => rfl

theorem rebuildCombinedEntries_nil (live : List SessionEntry) :
    rebuildCombinedEntries [] live = live := by
  cases live <;> rfl

/-- What the two lists satisfy besides being paired: ids are distinct, and no front-end
permission shadows a later message or tool call. -/
structure Aligned (es : List Entry) (fs : List SessionEntry) : Prop where
  paired : Paired es fs
  distinct : (es.map Entry.entryId).Nodup
  unshadowed : (es.map shape).Pairwise Unshadowed

/-- An id that is new to both sides shadows nothing. -/
theorem Aligned.unshadowed_append {es : List Entry} {fs : List SessionEntry} {e : Entry}
    (h : Aligned es fs) (hnew : isText e → lookup SessionEntry.id e.entryId fs = none) :
    ((es.map shape) ++ [shape e]).Pairwise Unshadowed := by
  rw [List.pairwise_append]
  refine ⟨h.unshadowed, List.pairwise_singleton _ _, ?_⟩
  intro a ha b hb hperm htext hid
  obtain rfl := List.mem_singleton.mp hb
  obtain ⟨e₀, he₀, rfl⟩ := List.mem_map.mp ha
  cases e₀ with
  | permission reqId request outcome =>
    obtain ⟨f, hf, hp⟩ := h.paired.exists_front he₀ rfl
    have hmem : e.entryId ∈ fs.map SessionEntry.id := by
      have hfid : f.id = e.entryId := hp.id.trans hid.symm
      exact hfid ▸ List.mem_map_of_mem hf
    exact lookup_eq_none.mp (hnew htext) hmem
  | _ => simp [shape, Entry.kind] at hperm

/-- The side conditions survive every live event that keeps ids new on both sides. -/
theorem Aligned.step {es : List Entry} {fs gs : List SessionEntry} {event : TurnEventBody}
    (h : Aligned es fs) (hp : Paired (entryReducer.live es event) gs)
    (hnew : ∀ e, freshEntry event = some e → isText e →
      lookup Entry.entryId e.entryId es = none → lookup SessionEntry.id e.entryId fs = none) :
    Aligned (entryReducer.live es event) gs := by
  refine ⟨hp, Reducer.nodup_live (R := entryReducer) h.distinct, ?_⟩
  rw [Reducer.map_live (R := entryReducer) shape_touch]
  cases hf : freshEntry event with
  | none => simpa [Reducer.added, hf] using h.unshadowed
  | some e =>
    have hf' : entryReducer.fresh event = some e := hf
    have ht := entryReducer.target_fresh hf'
    by_cases hmem : e.entryId ∈ es.map Entry.entryId
    · simpa [Reducer.added_of_mem (R := entryReducer) ht hmem] using h.unshadowed
    · rw [Reducer.added_of_not_mem (R := entryReducer) ht hmem, hf']
      exact h.unshadowed_append fun ht => hnew e hf ht (lookup_eq_none.mpr hmem)

/-- An event whose target is hidden on the back end and that the front end ignores. -/
theorem Aligned.hidden_event {es : List Entry} {fs : List SessionEntry} {event : TurnEventBody}
    {x : String} (h : Aligned es fs) (ht : targetId event = some x)
    (hfresh : ∀ e, freshEntry event = some e → backView e = none)
    (htouch : ∀ e e', touch event e = some e' → backView e = none ∧ backView e' = none) :
    Paired (entryReducer.live es event) fs := by
  cases hl : lookup Entry.entryId x es with
  | none =>
    rw [Reducer.live_of_not_mem (R := entryReducer) ht (lookup_eq_none.mp hl)]
    cases hf : freshEntry event with
    | none => simpa [hf] using h.paired
    | some e => simpa [hf] using h.paired.append_hidden (hfresh e hf)
  | some e =>
    cases htc : touch event e with
    | none =>
      rw [Reducer.live_of_untouched (R := entryReducer) ht hl htc]
      exact h.paired
    | some e' =>
      rw [Reducer.live_of_touch (R := entryReducer) ht hl htc]
      refine h.paired.put_hidden (fun e₂ h₂ => ?_) (htouch e e' htc).2
      rw [hl] at h₂
      cases h₂
      exact (htouch e e' htc).1

/-- A message or tool event on both sides. The caller says what the two sides make of a new
id (`e₀`, `f₀`) and of an entry that exists (`g` on the front end). -/
theorem Aligned.text_event {es : List Entry} {fs : List SessionEntry} {x : String} {e₀ : Entry}
    {f₀ : SessionEntry} {g : SessionEntry → SessionEntry} (h : Aligned es fs)
    (event : TurnEventBody) (ht : targetId event = some x) (hfresh : freshEntry event = some e₀)
    (hp₀ : Pair e₀ f₀)
    (alike : (lookup Entry.entryId x es).isSome = (lookup SessionEntry.id x fs).isSome)
    (honly : ∀ e e', touch event e = some e' → isText e)
    (hpair : ∀ e f, lookup Entry.entryId x es = some e → isText e → Pair e f →
      Pair ((touch event e).getD e) (g f))
    (hother : ∀ f, f.kind = .permissionRequest → (g f).id = f.id ∧ frontView (g f) = frontView f) :
    Paired (entryReducer.live es event)
      (match lookup SessionEntry.id x fs with
        | some f => put SessionEntry.id x (g f) fs
        | none => fs ++ [f₀]) := by
  cases hl : lookup Entry.entryId x es with
  | none =>
    have hfl : lookup SessionEntry.id x fs = none := by simpa [hl] using alike.symm
    rw [Reducer.live_of_not_mem (R := entryReducer) ht (lookup_eq_none.mp hl), hfl]
    simpa [hfresh] using h.paired.append_shown hp₀
  | some e =>
    by_cases htext : isText e
    · obtain ⟨f, hf, hp, hput⟩ := h.paired.find_text h.unshadowed hl htext
      have hpaired := hput _ _ (hpair e f hl htext hp)
      rw [hf]
      cases htc : touch event e with
      | none =>
        rw [Reducer.live_of_untouched (R := entryReducer) ht hl htc]
        simpa [htc, put_eq_self_of_lookup hl] using hpaired
      | some e' =>
        rw [Reducer.live_of_touch (R := entryReducer) ht hl htc]
        simpa [htc] using hpaired
    · obtain ⟨f, hf⟩ := Option.isSome_iff_exists.mp
        (show (lookup SessionEntry.id x fs).isSome by simp [← alike, hl])
      have hkind := h.paired.front_permission h.distinct
        (fun e₂ h₂ => by rw [hl] at h₂; cases h₂; exact htext) hf
      have hnone : touch event e = none := by
        cases htc : touch event e with
        | none => rfl
        | some e' => exact absurd (honly e e' htc) htext
      rw [hf, Reducer.live_of_untouched (R := entryReducer) ht hl hnone]
      exact h.paired.put_same_view hf (hother f hkind).1 (hother f hkind).2

theorem extractText_append (blocks : List ContentBlock) (block : ContentBlock) :
    extractTextFromContentBlocks (blocks ++ [block]) =
      extractTextFromContentBlocks blocks ++ extractTextFromContentBlock block := by
  simp [extractTextFromContentBlocks, String.join, List.foldl_append]

/-- Two message views are the same message. -/
theorem pair_message {id : String} {role : Role} {blocks : List ContentBlock} {f : SessionEntry}
    (h : Pair (.message id role blocks) f) :
    f.kind = .turnMessage ∧ f.role = some role ∧
      f.content = some (extractTextFromContentBlocks blocks) := by
  have hview := h.view
  cases hk : f.kind <;> simp [frontView, backView, hk] at hview ⊢
  exact ⟨hview.2.1, hview.2.2⟩

theorem pair_toolCall {id : String} {patch : ToolCallPatch} {f : SessionEntry}
    (h : Pair (.toolCall id patch) f) :
    f.kind = .toolCall ∧ f.title = some (patch.title.getD "tool_call") ∧
      f.status = some (patch.status.getD .pending) ∧ f.input = patch.input ∧
      f.output = patch.output := by
  have hview := h.view
  cases hk : f.kind <;> simp [frontView, backView, hk] at hview ⊢
  exact ⟨hview.2.1, hview.2.2.1, hview.2.2.2.1, hview.2.2.2.2⟩

/-- A chunk appends its text on both sides. -/
theorem Aligned.messageChunk {es : List Entry} {fs : List SessionEntry} (h : Aligned es fs)
    (chunk : MessageChunk) (now : Nat)
    (alike : (lookup Entry.entryId chunk.messageId es).isSome =
      (lookup SessionEntry.id chunk.messageId fs).isSome) :
    Paired (entryReducer.live es (.messageChunk chunk))
      (frontLive fs (.messageChunk chunk) now) := by
  refine h.text_event (.messageChunk chunk) rfl rfl
    ⟨rfl, by simp [frontView, backView, SessionEntry.base, extractTextFromContentBlocks,
      String.join], rfl⟩ alike ?_ ?_ ?_
  · intro e e' htouch
    cases e <;> simp [touch] at htouch
    exact .inl rfl
  · intro e f hl htext hp
    cases e with
    | message id role blocks =>
      obtain ⟨hk, hr, hc⟩ := pair_message hp
      refine ⟨hp.id, ?_, rfl⟩
      simp [frontView, backView, touch, hk, hr, hc, appendContent, extractText_append, hp.id,
        frontId, Entry.entryId]
    | toolCall id patch =>
      obtain ⟨hk, ht, hs, hi, ho⟩ := pair_toolCall hp
      refine ⟨hp.id, ?_, rfl⟩
      simp [frontView, backView, touch, hk, ht, hs, hi, ho, hp.id, frontId, Entry.entryId]
    | _ => simp [isText, Entry.kind] at htext
  · intro f hk
    simp [frontView, hk]

/-- An upsert sets the same text on both sides, when it keeps the role and has nothing to
clear. -/
theorem Aligned.messageUpsert {es : List Entry} {fs : List SessionEntry} (h : Aligned es fs)
    (upsert : MessageUpsert) (now : Nat)
    (alike : (lookup Entry.entryId upsert.messageId es).isSome =
      (lookup SessionEntry.id upsert.messageId fs).isSome)
    (keeps : ∀ id role blocks,
      lookup Entry.entryId upsert.messageId es = some (.message id role blocks) →
      role = upsert.role ∧
        (upsert.content = .clear → extractTextFromContentBlocks blocks = "")) :
    Paired (entryReducer.live es (.messageUpsert upsert))
      (frontLive fs (.messageUpsert upsert) now) := by
  obtain ⟨messageId, role, patch⟩ := upsert
  refine h.text_event (.messageUpsert ⟨messageId, role, patch⟩) rfl rfl ⟨rfl, ?_, rfl⟩ alike
    ?_ ?_ ?_
  · cases patch <;> simp [frontView, backView, SessionEntry.base, replacement,
      extractTextFromContentBlocks, String.join]
  · intro e e' htouch
    cases e <;> simp [touch] at htouch
    exact .inl rfl
  · intro e f hl htext hp
    cases e with
    | message id existing blocks =>
      obtain ⟨hk, hr, hc⟩ := pair_message hp
      obtain ⟨rfl, hclear⟩ := keeps id existing blocks hl
      refine ⟨hp.id, ?_, rfl⟩
      cases patch with
      | unchanged =>
        simp [frontView, backView, touch, hk, hr, hc, replacement, hp.id, frontId, Entry.entryId]
      | clear =>
        rw [hclear rfl] at hc
        simp [frontView, backView, touch, hk, hr, hc, replacement, hp.id, frontId, Entry.entryId,
          extractTextFromContentBlocks, String.join]
      | set blocks' =>
        simp [frontView, backView, touch, hk, hr, replacement, hp.id, frontId, Entry.entryId]
    | toolCall id patch' =>
      obtain ⟨hk, ht, hs, hi, ho⟩ := pair_toolCall hp
      refine ⟨hp.id, ?_, rfl⟩
      simp [frontView, backView, touch, hk, ht, hs, hi, ho, hp.id, frontId, Entry.entryId]
    | _ => simp [isText, Entry.kind] at htext
  · intro f hk
    simp [frontView, hk]

/-- A tool-call upsert merges the same fields on both sides. -/
theorem Aligned.toolCallUpsert {es : List Entry} {fs : List SessionEntry} (h : Aligned es fs)
    (toolCallId : String) (patch : ToolCallPatch) (now : Nat)
    (alike : (lookup Entry.entryId toolCallId es).isSome =
      (lookup SessionEntry.id toolCallId fs).isSome) :
    Paired (entryReducer.live es (.toolCallUpsert toolCallId patch))
      (frontLive fs (.toolCallUpsert toolCallId patch) now) := by
  refine h.text_event (.toolCallUpsert toolCallId patch) rfl rfl
    ⟨rfl, by simp [frontView, backView, SessionEntry.base], rfl⟩ alike ?_ ?_ ?_
  · intro e e' htouch
    cases e <;> simp [touch] at htouch
    exact .inr rfl
  · intro e f hl htext hp
    cases e with
    | message id role blocks =>
      obtain ⟨hk, hr, hc⟩ := pair_message hp
      refine ⟨hp.id, ?_, rfl⟩
      simp [frontView, backView, touch, hk, hr, hc, hp.id, frontId, Entry.entryId]
    | toolCall id existing =>
      obtain ⟨hk, ht, hs, hi, ho⟩ := pair_toolCall hp
      refine ⟨hp.id, ?_, rfl⟩
      obtain ⟨title, kind, status, input, output, locations⟩ := patch
      cases title <;> cases status <;> cases input <;> cases output <;>
        simp [frontView, backView, touch, mergeToolCall, hk, ht, hs, hi, ho, hp.id, frontId,
          Entry.entryId]
    | _ => simp [isText, Entry.kind] at htext
  · intro f hk
    simp [frontView, hk]

/-- An output chunk that adds no text leaves the back end as it is. -/
theorem Aligned.toolCallContentChunk {es : List Entry} {fs : List SessionEntry} (h : Aligned es fs)
    (toolCallId : String) (item : ToolCallContent)
    (silent : ∀ id patch, lookup Entry.entryId toolCallId es = some (.toolCall id patch) →
      chunkText item = none ∨ chunkText item = some "" ∧ patch.output.isSome) :
    Paired (entryReducer.live es (.toolCallContentChunk toolCallId item)) fs := by
  have ht : entryReducer.target (.toolCallContentChunk toolCallId item) = some toolCallId := rfl
  have hsame : entryReducer.live es (.toolCallContentChunk toolCallId item) = es := by
    cases hl : lookup Entry.entryId toolCallId es with
    | none =>
      rw [Reducer.live_of_not_mem ht (lookup_eq_none.mp hl)]
      exact List.append_nil es
    | some e =>
      cases e with
      | toolCall id patch =>
        rcases silent id patch hl with hnone | ⟨hempty, hsome⟩
        · exact Reducer.live_of_untouched ht hl (by simp [touch, hnone])
        · obtain ⟨output, ho⟩ := Option.isSome_iff_exists.mp hsome
          have hkeep : touch (.toolCallContentChunk toolCallId item) (.toolCall id patch) =
              some (.toolCall id patch) := by
            cases patch
            simp_all [touch]
          rw [Reducer.live_of_touch ht hl hkeep]
          exact put_eq_self_of_lookup hl
      | _ => exact Reducer.live_of_untouched ht hl rfl
  rw [hsame]
  exact h.paired

/-- A permission that is asked for the first time is appended on both sides. -/
theorem Aligned.permissionRequested {es : List Entry} {fs : List SessionEntry} (h : Aligned es fs)
    (request : PermissionRequested) (now : Nat)
    (hnew : lookup Entry.entryId request.reqId es = none) :
    Paired (entryReducer.live es (.permissionRequested request))
      (frontLive fs (.permissionRequested request) now) := by
  have ht : entryReducer.target (.permissionRequested request) = some request.reqId := rfl
  rw [Reducer.live_of_not_mem ht (lookup_eq_none.mp hnew)]
  exact h.paired.append_shown ⟨rfl, by simp [frontView, backView, SessionEntry.base], rfl⟩

/-- The back end's answer to a permission, written as a map over the entries. -/
def resolveEntry (reqId : String) (outcome : PermOutcome) (e : Entry) : Entry :=
  if e.entryId = reqId then (touch (.permissionResolved reqId outcome .user) e).getD e else e

theorem live_permissionResolved {es : List Entry} (hd : (es.map Entry.entryId).Nodup)
    (reqId : String) (outcome : PermOutcome) (decidedBy : Decider) :
    entryReducer.live es (.permissionResolved reqId outcome decidedBy) =
      es.map (resolveEntry reqId outcome) := by
  have ht : entryReducer.target (.permissionResolved reqId outcome decidedBy) = some reqId := rfl
  have hsame : ∀ e, touch (.permissionResolved reqId outcome decidedBy) e =
      touch (.permissionResolved reqId outcome .user) e := by
    intro e
    cases e <;> rfl
  cases hl : lookup Entry.entryId reqId es with
  | none =>
    have hmem := lookup_eq_none.mp hl
    rw [Reducer.live_of_not_mem ht hmem]
    have hid : es.map (resolveEntry reqId outcome) = es := by
      refine (List.map_congr_left fun e he => ?_).trans (List.map_id es)
      have hne : e.entryId ≠ reqId := fun h => hmem (h ▸ List.mem_map_of_mem he)
      simp [resolveEntry, hne]
    rw [hid]
    exact List.append_nil es
  | some e =>
    have hput : entryReducer.live es (.permissionResolved reqId outcome decidedBy) =
        put Entry.entryId reqId ((touch (.permissionResolved reqId outcome .user) e).getD e) es := by
      cases htc : touch (.permissionResolved reqId outcome decidedBy) e with
      | none =>
        rw [Reducer.live_of_untouched ht hl htc, ← hsame, htc]
        exact (put_eq_self_of_lookup hl).symm
      | some e' =>
        rw [Reducer.live_of_touch ht hl htc, ← hsame, htc]
        rfl
    rw [hput, put_eq_map hd]
    refine List.map_congr_left fun e' he' => ?_
    by_cases hk : e'.entryId = reqId
    · have hl' := lookup_of_mem hd he'
      rw [hk, hl] at hl'
      cases hl'
      simp [resolveEntry, hk]
    · simp [resolveEntry, hk]

/-- Answering a permission sets the same outcome on both sides. -/
theorem Aligned.permissionResolved {es : List Entry} {fs : List SessionEntry} (h : Aligned es fs)
    (reqId : String) (outcome : PermOutcome) (decidedBy : Decider) (now : Nat) :
    Paired (entryReducer.live es (.permissionResolved reqId outcome decidedBy))
      (frontLive fs (.permissionResolved reqId outcome decidedBy) now) := by
  rw [live_permissionResolved h.distinct]
  have hp := h.paired
  simp only [frontLive, sessionReducer]
  induction hp with
  | nil => exact .nil
  | @hidden e es fs he hrest ih =>
    refine .hidden ?_ (ih ⟨hrest, h.distinct.of_cons, h.unshadowed.of_cons⟩)
    unfold resolveEntry
    split_ifs
    · cases e <;> simp_all [touch, backView]
    · exact he
  | @shown e f es fs hp hrest ih =>
    refine .shown ?_ (ih ⟨hrest, h.distinct.of_cons, h.unshadowed.of_cons⟩)
    have hview := hp.view
    have hid := hp.id
    cases e with
    | permission id request existing =>
      cases hk : f.kind <;> simp [frontView, backView, hk] at hview
      obtain ⟨item, hitem, rfl, htitle, hdesc, hopts, hres⟩ := hview
      by_cases hreq : item.reqId = reqId
      · subst hreq
        refine ⟨?_, ?_, ?_⟩ <;>
          simp [resolveEntry, touch, Entry.entryId, hk, hitem, frontView, backView, frontId, hid,
            htitle, hdesc, hopts]
      · refine ⟨?_, ?_, ?_⟩ <;>
          simp [resolveEntry, Entry.entryId, hk, hitem, frontView, backView, frontId, hid, htitle,
            hdesc, hopts, hres, hreq]
    | message id role blocks =>
      obtain ⟨hk, -, -⟩ := pair_message hp
      have hsame :
          resolveEntry reqId outcome (.message id role blocks) = .message id role blocks := by
        simp [resolveEntry, touch]
      simpa [hk, hsame] using hp
    | toolCall id patch =>
      obtain ⟨hk, -⟩ := pair_toolCall hp
      have hsame : resolveEntry reqId outcome (.toolCall id patch) = .toolCall id patch := by
        simp [resolveEntry, touch]
      simpa [hk, hsame] using hp
    | _ => exact absurd hp.shown (by simp [backView])

end Tethys.Frontend
