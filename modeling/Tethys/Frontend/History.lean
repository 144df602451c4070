import Tethys.Frontend.Events
import Tethys.Lib.Runs
import Mathlib.Data.List.Dedup

/-!
# The transcript of a session, over its events and history loads

A session takes events and loads of cached history in any order. Beside the reducer's state,
`Session` keeps two records of the run: every entry that was once live, and the user messages
that were created. The result says when the four derived fields stay in step with them.
-/

namespace Tethys.Frontend

open Schema Lib

/-- What no event changes of an entry. -/
structure Face where
  id : String
  kind : EntryTag
  role : Option Role
  deriving DecidableEq

def SessionEntry.face (e : SessionEntry) : Face := ⟨e.id, e.kind, e.role⟩

/-- A user's message. -/
def Face.isUser (f : Face) : Bool := f.kind = .turnMessage ∧ f.role = some .user

inductive SessionAct where
  | event (body : TurnEventBody) (seq : Option Nat) (now : Nat)
  | load (cachedHistory : List SessionEntry) (resumeSupported : Bool)

structure Session where
  state : SessionState
  /-- every entry that was once live -/
  seen : List Face
  /-- the ids of the user messages that events created, in order -/
  created : List String

namespace Session

/-- The faces of the live entries. -/
def faces (s : Session) : List Face := s.state.liveEntries.map SessionEntry.face

/-- The ids of the live entries. -/
def ids (s : Session) : List String := s.state.liveEntries.map SessionEntry.id

def new (sessionId providerId workspaceId title : String) (branchName : Option String) : Session :=
  ⟨createInitialSessionState sessionId providerId workspaceId title branchName, [], []⟩

/-- The user messages of `next` whose ids are new to the session. -/
def newUsers (s : Session) (next : SessionState) : List String :=
  ((next.liveEntries.map SessionEntry.face).filter fun f => f.isUser ∧ f.id ∉ s.ids).map Face.id

def step (s : Session) (act : SessionAct) : Option Session :=
  let next := match act with
    | .event body seq now => sessionReducer s.state body seq now
    | .load cachedHistory resumeSupported =>
      loadHistoryIntoSession s.state cachedHistory resumeSupported
  some {
    state := next
    seen := s.seen ++ next.liveEntries.map SessionEntry.face
    created := match act with
      | .event .. => s.created ++ s.newUsers next
      | .load .. => s.created }

/-- The derived fields are in step with the run. -/
structure InStep (s : Session) : Prop where
  /-- the live entries have distinct ids -/
  distinct : s.ids.Nodup
  /-- every entry that was once live is in the transcript -/
  kept : ∀ f ∈ s.seen, f ∈ s.state.entries.map SessionEntry.face
  /-- history, a divider exactly when both parts are there, live entries -/
  laidOut : ∃ divider : SessionEntry, divider.kind = .historyDivider ∧
    s.state.entries = s.state.historyEntries ++
      (if s.state.historyEntries ≠ [] ∧ s.state.liveEntries ≠ [] then [divider] else []) ++
      s.state.liveEntries
  /-- one turn for each user message created -/
  counted : s.state.turnCount = s.created.dedup.length

/-- A step that keeps them so. A permission request or a user message has to be new, a user's
chunk must not create its message, and a resumed history has to hold every live entry, each id
once. -/
def Safe (s : Session) : SessionAct → Prop
  | .event (.permissionRequested request) _ _ => "perm-" ++ request.reqId ∉ s.ids
  | .event (.messageUpsert upsert) _ _ => upsert.role = .user → upsert.messageId ∉ s.ids
  | .event (.messageChunk chunk) _ _ => chunk.role = .user → chunk.messageId ∈ s.ids
  | .event _ _ _ => True
  | .load cachedHistory true =>
    (cachedHistory.map SessionEntry.id).Nodup ∧
      ∀ f ∈ s.faces, f ∈ cachedHistory.map SessionEntry.face
  | .load _ false => True

/-! ## What one act does -/

/-- The entry that an event appends to live entries with these ids. -/
def arrival (ids : List String) : TurnEventBody → Option Face
  | .messageUpsert upsert =>
    if upsert.messageId ∈ ids then none else some ⟨upsert.messageId, .turnMessage, some upsert.role⟩
  | .messageChunk chunk =>
    if chunk.messageId ∈ ids then none else some ⟨chunk.messageId, .turnMessage, some chunk.role⟩
  | .toolCallUpsert toolCallId _ =>
    if toolCallId ∈ ids then none else some ⟨toolCallId, .toolCall, none⟩
  | .permissionRequested request => some ⟨"perm-" ++ request.reqId, .permissionRequest, none⟩
  | _ => none

/-- Finding an entry and replacing it, or appending one, as the message and tool events do. -/
theorem faces_upsert {x : String} {fresh : SessionEntry} {change : SessionEntry → SessionEntry}
    (live : List SessionEntry) (hchange : ∀ e, (change e).face = e.face) :
    (match lookup SessionEntry.id x live with
      | some e => put SessionEntry.id x (change e) live
      | none => live ++ [fresh]).map SessionEntry.face =
      live.map SessionEntry.face ++
        (if x ∈ live.map SessionEntry.id then none else some fresh.face).toList := by
  cases hl : lookup SessionEntry.id x live with
  | none => simp [lookup_eq_none.mp hl]
  | some e =>
    have hx : x ∈ live.map SessionEntry.id := lookup_isSome.mp (by simp [hl])
    have hput : (put SessionEntry.id x (change e) live).map SessionEntry.face =
        live.map SessionEntry.face := by
      refine map_put SessionEntry.face fun e' he' => ?_
      obtain rfl : e = e' := by simpa [hl] using he'
      exact hchange e
    simp [hx, hput]

theorem faces_event (s : SessionState) (event : TurnEventBody) (seq : Option Nat) (now : Nat) :
    (sessionReducer s event seq now).liveEntries.map SessionEntry.face =
      s.liveEntries.map SessionEntry.face ++
        (arrival (s.liveEntries.map SessionEntry.id) event).toList := by
  cases event with
  | stateChanged changed =>
    obtain ⟨state⟩ := changed
    cases state <;> exact (List.append_nil _).symm
  | messageUpsert upsert =>
    exact faces_upsert s.liveEntries fun e => rfl
  | messageChunk chunk => exact faces_upsert s.liveEntries fun e => rfl
  | toolCallUpsert toolCallId patch => exact faces_upsert s.liveEntries fun e => rfl
  | permissionRequested request => exact List.map_append
  | permissionResolved reqId outcome decidedBy =>
    simp only [sessionReducer, List.map_map, arrival, Option.toList_none, List.append_nil]
    refine List.map_congr_left fun e _ => ?_
    simp only [Function.comp_apply]
    split_ifs <;> rfl
  | _ => exact (List.append_nil _).symm

theorem ids_eq_faces (live : List SessionEntry) :
    live.map SessionEntry.id = (live.map SessionEntry.face).map Face.id := by
  simp [SessionEntry.face]

theorem turnCount_event (s : SessionState) (event : TurnEventBody) (seq : Option Nat) (now : Nat) :
    (sessionReducer s event seq now).turnCount = s.turnCount +
      match event with
      | .messageUpsert upsert => if upsert.role = .user then 1 else 0
      | _ => 0 := by
  cases event with
  | stateChanged changed =>
    obtain ⟨state⟩ := changed
    cases state <;> rfl
  | messageUpsert upsert =>
    simp only [sessionReducer]
    split_ifs <;> rfl
  | _ => rfl

/-- Every event leaves the combined entries combined. -/
theorem entries_event {s : SessionState} (event : TurnEventBody) (seq : Option Nat) (now : Nat)
    (h : s.entries = rebuildCombinedEntries s.historyEntries s.liveEntries) :
    (sessionReducer s event seq now).entries =
      rebuildCombinedEntries s.historyEntries (sessionReducer s event seq now).liveEntries := by
  cases event with
  | stateChanged changed =>
    obtain ⟨state⟩ := changed
    cases state <;> exact h
  | usage _ => exact h
  | error _ _ _ => exact h
  | messageUpsert _ | messageChunk _ | toolCallUpsert _ _ | permissionRequested _
  | permissionResolved _ _ _ => rfl
  | _ => exact h

theorem faces_loadHistory (s : SessionState) (cachedHistory : List SessionEntry) :
    (loadHistoryIntoSession s cachedHistory true).liveEntries.map SessionEntry.face =
      cachedHistory.map SessionEntry.face := by
  simp [loadHistoryIntoSession, SessionEntry.face]

theorem rebuildCombinedEntries_eq (history live : List SessionEntry) :
    ∃ divider : SessionEntry, divider.kind = .historyDivider ∧
      rebuildCombinedEntries history live =
        history ++ (if history ≠ [] ∧ live ≠ [] then [divider] else []) ++ live := by
  unfold rebuildCombinedEntries
  split
  · rename_i last hlast
    have hne : history ≠ [] := by
      rintro rfl
      simp at hlast
    refine ⟨_, ?_, by rw [if_pos ⟨hne, by simp⟩, List.append_cons]⟩
    rfl
  · exact ⟨.base "" .historyDivider 0, rfl, by simp⟩
  · rename_i hlast
    obtain rfl : history = [] := List.getLast?_eq_none_iff.mp hlast
    exact ⟨.base "" .historyDivider 0, rfl, by simp⟩

theorem subset_rebuildCombinedEntries (history live : List SessionEntry) :
    live ⊆ rebuildCombinedEntries history live := by
  obtain ⟨divider, -, heq⟩ := rebuildCombinedEntries_eq history live
  rw [heq]
  exact List.subset_append_right _ _

/-- The only message an event can create is its own. -/
theorem newUsers_event (s : Session) (event : TurnEventBody) (seq : Option Nat) (now : Nat) :
    s.newUsers (sessionReducer s.state event seq now) =
      match event with
      | .messageUpsert upsert =>
        if upsert.role = .user ∧ upsert.messageId ∉ s.ids then [upsert.messageId] else []
      | .messageChunk chunk =>
        if chunk.role = .user ∧ chunk.messageId ∉ s.ids then [chunk.messageId] else []
      | _ => [] := by
  have hold : (s.state.liveEntries.map SessionEntry.face).filter
      (fun f => f.isUser ∧ f.id ∉ s.ids) = [] := by
    refine List.filter_eq_nil_iff.mpr fun f hf => ?_
    obtain ⟨e, he, rfl⟩ := List.mem_map.mp hf
    have hid : e.face.id ∈ s.ids := List.mem_map_of_mem (f := SessionEntry.id) he
    simp [hid]
  have hids : s.state.liveEntries.map SessionEntry.id = s.ids := rfl
  rw [newUsers, faces_event, List.filter_append, hold, List.nil_append, hids]
  cases event with
  | messageUpsert upsert =>
    by_cases hx : upsert.messageId ∈ s.ids <;> by_cases hr : upsert.role = .user <;>
      simp [arrival, hx, hr, Face.isUser]
  | messageChunk chunk =>
    by_cases hx : chunk.messageId ∈ s.ids <;> by_cases hr : chunk.role = .user <;>
      simp [arrival, hx, hr, Face.isUser]
  | toolCallUpsert toolCallId patch =>
    by_cases hx : toolCallId ∈ s.ids <;> simp [arrival, hx, Face.isUser]
  | _ => simp [arrival, Face.isUser]

/-! ## The invariant -/

/-- What holds of a session besides the property, as long as it does. -/
structure Inv (s : Session) : Prop extends InStep s where
  combined : s.state.entries = rebuildCombinedEntries s.state.historyEntries s.state.liveEntries
  seen_iff : ∀ f, f ∈ s.seen ↔ f ∈ s.faces
  created_live : s.created ⊆ s.ids
  once : s.created.Nodup

theorem inv_new (sessionId providerId workspaceId title : String) (branchName : Option String) :
    Inv (new sessionId providerId workspaceId title branchName) where
  distinct := List.nodup_nil
  kept := by simp [new]
  laidOut := ⟨.base "" .historyDivider 0, rfl, rfl⟩
  counted := rfl
  combined := rfl
  seen_iff := fun f => Iff.rfl
  created_live := List.Subset.refl _
  once := List.nodup_nil

variable {s t : Session}

/-- The message an event creates was not created before. -/
theorem Inv.nodup_created (h : Inv s) (event : TurnEventBody) (seq : Option Nat) (now : Nat) :
    (s.created ++ s.newUsers (sessionReducer s.state event seq now)).Nodup := by
  have hnew : ∀ x ∉ s.ids, (s.created ++ [x]).Nodup := by
    intro x hx
    refine List.Nodup.append h.once (List.nodup_singleton x) ?_
    exact List.disjoint_singleton.mpr fun hc => hx (h.created_live hc)
  have hnone : (s.created ++ []).Nodup := by simpa using h.once
  rw [newUsers_event]
  cases event with
  | messageUpsert upsert =>
    dsimp only
    split_ifs with hx
    · exact hnew _ hx.2
    · exact hnone
  | messageChunk chunk =>
    dsimp only
    split_ifs with hx
    · exact hnew _ hx.2
    · exact hnone
  | _ => exact hnone

/-- The ids after an event. -/
theorem ids_event (s : Session) (event : TurnEventBody) (seq : Option Nat) (now : Nat) :
    (sessionReducer s.state event seq now).liveEntries.map SessionEntry.id =
      s.ids ++ ((arrival s.ids event).map Face.id).toList := by
  have hids : s.state.liveEntries.map SessionEntry.id = s.ids := rfl
  rw [ids_eq_faces, faces_event, List.map_append, ← ids_eq_faces, hids]
  cases arrival s.ids event <;> rfl

/-- Ids stay distinct under every event but a permission request whose id is taken. -/
theorem Inv.nodup_event_iff (h : Inv s) (event : TurnEventBody) (seq : Option Nat) (now : Nat) :
    ((sessionReducer s.state event seq now).liveEntries.map SessionEntry.id).Nodup ↔
      ∀ request, event = .permissionRequested request → "perm-" ++ request.reqId ∉ s.ids := by
  have hadd : ∀ x, (s.ids ++ [x]).Nodup ↔ x ∉ s.ids := by
    intro x
    rw [List.nodup_append]
    simp only [h.distinct, List.nodup_singleton, List.mem_singleton]
    grind
  have hsame : (s.ids ++ []).Nodup := by simpa using h.distinct
  rw [ids_event]
  cases event with
  | permissionRequested request =>
    refine (hadd _).trans ⟨?_, fun hx => hx request rfl⟩
    rintro hx _ ⟨⟩
    exact hx
  | messageUpsert upsert =>
    by_cases hx : upsert.messageId ∈ s.ids <;> simp [arrival, hx, hadd, h.distinct]
  | messageChunk chunk =>
    by_cases hx : chunk.messageId ∈ s.ids <;> simp [arrival, hx, hadd, h.distinct]
  | toolCallUpsert toolCallId patch =>
    by_cases hx : toolCallId ∈ s.ids <;> simp [arrival, hx, hadd, h.distinct]
  | _ => exact iff_of_true hsame (by rintro _ ⟨⟩)

/-- The turn count stays right under every event but a user message that is there already, and
a chunk that creates one. -/
theorem Inv.counted_event_iff (h : Inv s) (event : TurnEventBody) (seq : Option Nat) (now : Nat) :
    (sessionReducer s.state event seq now).turnCount =
        (s.created ++ s.newUsers (sessionReducer s.state event seq now)).dedup.length ↔
      (∀ upsert, event = .messageUpsert upsert → upsert.role = .user →
        upsert.messageId ∉ s.ids) ∧
      (∀ chunk, event = .messageChunk chunk → chunk.role = .user → chunk.messageId ∈ s.ids) := by
  have hcount : s.state.turnCount = s.created.length := by
    rw [h.counted, h.once.dedup]
  rw [(h.nodup_created event seq now).dedup, List.length_append, turnCount_event, newUsers_event,
    hcount]
  cases event with
  | messageUpsert upsert =>
    by_cases hx : upsert.messageId ∈ s.ids <;> by_cases hr : upsert.role = .user <;> simp [hx, hr]
  | messageChunk chunk =>
    by_cases hx : chunk.messageId ∈ s.ids <;> by_cases hr : chunk.role = .user <;> simp [hx, hr]
  | _ => exact iff_of_true rfl ⟨by rintro _ ⟨⟩, by rintro _ ⟨⟩⟩

/-- The fields after an event are in step exactly when the event is a safe one. -/
theorem Inv.inStep_event_iff (h : Inv s) {event : TurnEventBody} {seq : Option Nat} {now : Nat}
    (hst : s.step (.event event seq now) = some t) : t.InStep ↔ s.Safe (.event event seq now) := by
  obtain rfl := Option.some.inj hst
  have hcombined := entries_event event seq now h.combined
  have hsafe : s.Safe (.event event seq now) ↔
      (∀ request, event = .permissionRequested request → "perm-" ++ request.reqId ∉ s.ids) ∧
      (∀ upsert, event = .messageUpsert upsert → upsert.role = .user →
        upsert.messageId ∉ s.ids) ∧
      (∀ chunk, event = .messageChunk chunk → chunk.role = .user → chunk.messageId ∈ s.ids) := by
    cases event <;> simp [Safe]
  rw [hsafe, ← h.nodup_event_iff event seq now, ← h.counted_event_iff event seq now]
  refine ⟨fun ht => ⟨ht.distinct, ht.counted⟩, fun ⟨hdistinct, hcounted⟩ => ?_⟩
  refine ⟨hdistinct, ?_, ?_, hcounted⟩
  · intro f hf
    have hlive : f ∈ (sessionReducer s.state event seq now).liveEntries.map SessionEntry.face := by
      rcases List.mem_append.mp hf with hf | hf
      · rw [faces_event]
        exact List.mem_append_left _ ((h.seen_iff f).mp hf)
      · exact hf
    dsimp only
    rw [hcombined]
    exact List.map_subset _ (subset_rebuildCombinedEntries _ _) hlive
  · dsimp only
    rw [hcombined, sessionReducer_historyEntries]
    exact rebuildCombinedEntries_eq _ _

theorem Inv.of_event (h : Inv s) {event : TurnEventBody} {seq : Option Nat} {now : Nat}
    (hst : s.step (.event event seq now) = some t) (ht : t.InStep) : Inv t := by
  obtain rfl := Option.some.inj hst
  refine ⟨ht, ?_, ?_, ?_, h.nodup_created event seq now⟩
  · dsimp only
    rw [entries_event event seq now h.combined, sessionReducer_historyEntries]
  · intro f
    have hsub : f ∈ s.seen →
        f ∈ (sessionReducer s.state event seq now).liveEntries.map SessionEntry.face := by
      intro hf
      rw [faces_event]
      exact List.mem_append_left _ ((h.seen_iff f).mp hf)
    simp only [faces, List.mem_append]
    exact ⟨fun hf => hf.elim hsub id, .inr⟩
  · intro x hx
    rcases List.mem_append.mp hx with hx | hx
    · simp only [ids]
      rw [ids_event]
      exact List.mem_append_left _ (h.created_live hx)
    · obtain ⟨f, hf, rfl⟩ := List.mem_map.mp hx
      simp only [ids]
      rw [ids_eq_faces]
      exact List.mem_map_of_mem (List.mem_of_mem_filter hf)

/-- A load that keeps the live segment apart is always safe. -/
theorem Inv.of_load_apart (h : Inv s) {cachedHistory : List SessionEntry}
    (hst : s.step (.load cachedHistory false) = some t) : Inv t := by
  obtain rfl := Option.some.inj hst
  refine ⟨⟨h.distinct, ?_, rebuildCombinedEntries_eq _ _, h.counted⟩, rfl, ?_, h.created_live,
    h.once⟩
  · intro f hf
    have hlive : f ∈ s.faces := by
      rcases List.mem_append.mp hf with hf | hf
      · exact (h.seen_iff f).mp hf
      · exact hf
    exact List.map_subset _ (subset_rebuildCombinedEntries _ _) hlive
  · intro f
    refine List.mem_append.trans ⟨fun hf => ?_, .inr⟩
    exact hf.elim (h.seen_iff f).mp id

/-- A resumed history replaces the live entries, so it has to hold them all. -/
theorem Inv.inStep_resume_iff (h : Inv s) {cachedHistory : List SessionEntry}
    (hst : s.step (.load cachedHistory true) = some t) :
    t.InStep ↔ s.Safe (.load cachedHistory true) := by
  obtain rfl := Option.some.inj hst
  have hids : (loadHistoryIntoSession s.state cachedHistory true).liveEntries.map SessionEntry.id =
      cachedHistory.map SessionEntry.id := by
    rw [ids_eq_faces, faces_loadHistory, ← ids_eq_faces]
  have hfaces := faces_loadHistory s.state cachedHistory
  constructor
  · intro ht
    refine ⟨hids ▸ ht.distinct, fun f hf => ?_⟩
    rw [← hfaces]
    exact ht.kept f (List.mem_append_left _ ((h.seen_iff f).mpr hf))
  · rintro ⟨hdistinct, hheld⟩
    rw [← hids] at hdistinct
    refine ⟨hdistinct, fun f hf => ?_, rebuildCombinedEntries_eq [] _, h.counted⟩
    rcases List.mem_append.mp hf with hf | hf
    · have hmem := hheld f ((h.seen_iff f).mp hf)
      rw [← hfaces] at hmem
      exact hmem
    · exact hf

theorem Inv.of_resume (h : Inv s) {cachedHistory : List SessionEntry}
    (hst : s.step (.load cachedHistory true) = some t) (ht : t.InStep) : Inv t := by
  obtain ⟨-, hheld⟩ := (h.inStep_resume_iff hst).mp ht
  obtain rfl := Option.some.inj hst
  have hfaces := faces_loadHistory s.state cachedHistory
  refine ⟨ht, (rebuildCombinedEntries_nil _).symm, fun f => ?_, fun x hx => ?_, h.once⟩
  · refine List.mem_append.trans ⟨fun hf => hf.elim (fun hf => ?_) id, .inr⟩
    simp only [faces]
    rw [hfaces]
    exact hheld f ((h.seen_iff f).mp hf)
  · have hmem := h.created_live hx
    simp only [ids] at hmem ⊢
    rw [ids_eq_faces] at hmem ⊢
    obtain ⟨f, hf, rfl⟩ := List.mem_map.mp hmem
    rw [hfaces]
    exact List.mem_map_of_mem (hheld f hf)

theorem Inv.inStep_iff (h : Inv s) {act : SessionAct} (hst : s.step act = some t) :
    t.InStep ↔ s.Safe act := by
  match act with
  | .event _ _ _ => exact h.inStep_event_iff hst
  | .load _ true => exact h.inStep_resume_iff hst
  | .load _ false => exact iff_of_true (h.of_load_apart hst).toInStep trivial

theorem Inv.of_inStep (h : Inv s) {act : SessionAct} (hst : s.step act = some t)
    (ht : t.InStep) : Inv t := by
  match act with
  | .event _ _ _ => exact h.of_event hst ht
  | .load _ true => exact h.of_resume hst ht
  | .load _ false => exact h.of_load_apart hst

/-! ## Whole runs -/

/-- Over a run of events and history loads, the live ids stay distinct, no entry that was once
live leaves the transcript, the transcript is laid out and the turns are counted, in every
state, if and only if every step is a safe one. -/
theorem transcript_in_step_iff (sessionId providerId workspaceId title : String)
    (branchName : Option String) (acts : List SessionAct) :
    Always step InStep (new sessionId providerId workspaceId title branchName) acts ↔
      Meets step Safe (new sessionId providerId workspaceId title branchName) acts :=
  always_iff_meets (I := Inv) (fun _ h => h.toInStep)
    (fun _ _ _ h hsafe hst => h.of_inStep hst ((h.inStep_iff hst).mpr hsafe))
    (fun _ _ _ h hst ht => (h.inStep_iff hst).mp ht) (inv_new ..)

def ask : SessionAct :=
  .event (.permissionRequested ⟨"r", "Run command", none, none, []⟩) (some 1) 0

def say : SessionAct :=
  .event (.messageUpsert ⟨"m", .user, .set [.text "hi"]⟩) (some 1) 0

/-- A permission that is asked for twice, a user message that is sent twice, and a resumed
history that comes after a live message. -/
theorem fields_out_of_step :
    ¬ Always step InStep (new "s" "p" "w" "New Thread" none) [ask, ask] ∧
      ¬ Always step InStep (new "s" "p" "w" "New Thread" none) [say, say] ∧
      ¬ Always step InStep (new "s" "p" "w" "New Thread" none) [say, .load [] true] := by
  refine ⟨fun h => ?_, fun h => ?_, fun h => ?_⟩
  · exact absurd (h.last rfl).distinct (by decide)
  · exact absurd (h.last rfl).counted (by decide)
  · exact absurd (h.last rfl).kept (by decide)

end Session

end Tethys.Frontend
