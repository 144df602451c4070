import Tethys.Thread.State

/-!
# Replayed transcripts

A replayed event creates its entry when the id is new and is dropped otherwise, so a replay
shows every entry as its first event made it. Ids, kinds and order are those of the live
transcript; contents agree for the entries that no later event changed.
-/

namespace Tethys.Thread

open Schema Lib ThreadMachine

/-- The transcript of a fresh thread after the given events, applied live. -/
def liveEntries (events : List TurnEventBody) : List Entry := events.foldl entryReducer.live []

/-- An entry that is final when it is created: some event makes it under a new id, and every
later event for this id, applied to it live, leaves it as it is. -/
def SettledAtCreation (events : List TurnEventBody) (v : Entry) : Prop :=
  ∃ before event after, events = before ++ event :: after ∧
    (applyEvent [] event false).1 = [v] ∧
    v.entryId ∉ (liveEntries before).map Entry.entryId ∧
    ∀ later ∈ after, targetId later = some v.entryId → (applyEvent [v] later false).1 = [v]

/-- The first message is settled, though another one is created after it and its role is given
again. -/
example : SettledAtCreation
    [.messageChunk ⟨"m", .agent, .text "a"⟩, .messageChunk ⟨"n", .user, .text "b"⟩,
      .messageUpsert ⟨"m", .agent, .unchanged⟩] (.message "m" .agent [.text "a"]) :=
  ⟨[], _, _, rfl, rfl, List.not_mem_nil, by decide⟩

theorem fresh_of_applyEvent_nil {event : TurnEventBody} {v : Entry}
    (h : (applyEvent [] event false).1 = [v]) : entryReducer.fresh event = some v := by
  rw [applyEvent_live] at h
  cases ht : entryReducer.target event with
  | none => simp [Reducer.live_of_no_target ht] at h
  | some x =>
    rw [Reducer.live_of_not_mem ht (by simp), List.nil_append] at h
    exact Option.toList_eq_singleton_iff.mp h

/-- The events after the creating one keep the entry, in the reducer's terms. -/
theorem touch_of_applyEvent_self {event : TurnEventBody} {v : Entry}
    (h : (applyEvent [v] event false).1 = [v]) (ht : entryReducer.target event = some v.entryId) :
    (entryReducer.touch event v).getD v = v := by
  have hl : lookup entryReducer.key v.entryId [v] = some v := by simp [lookup_cons]
  cases htouch : entryReducer.touch event v with
  | none => rfl
  | some v' =>
    rw [applyEvent_live, Reducer.live_of_touch ht hl htouch] at h
    simpa [put] using h

/-- A settled entry is in the live transcript, from its creation on. -/
theorem lookup_live_of_settled {before after : List TurnEventBody} {event : TurnEventBody}
    {v : Entry} (hf : entryReducer.fresh event = some v)
    (hnew : v.entryId ∉ (liveEntries before).map Entry.entryId)
    (hkept : ∀ later ∈ after, targetId later = some v.entryId →
      (applyEvent [v] later false).1 = [v]) :
    lookup Entry.entryId v.entryId (liveEntries (before ++ event :: after)) = some v := by
  rw [liveEntries, List.foldl_append, List.foldl_cons]
  refine Reducer.lookup_foldl_live_of_kept (R := entryReducer) after ?_ fun later hl ht =>
    touch_of_applyEvent_self (hkept later hl ht) ht
  rw [← hf]
  exact Reducer.lookup_live_of_none (entryReducer.target_fresh hf) (lookup_eq_none.mpr hnew)

/-- Replaying over a transcript without the id adds the entry of the creating event. -/
theorem lookup_replay_of_created {before after : List TurnEventBody} {event : TurnEventBody}
    {v : Entry} {l : List Entry} (hf : entryReducer.fresh event = some v)
    (hnew : v.entryId ∉ (before.foldl entryReducer.replay l).map Entry.entryId) :
    lookup Entry.entryId v.entryId ((before ++ event :: after).foldl entryReducer.replay l) =
      some v := by
  rw [List.foldl_append, List.foldl_cons]
  refine Reducer.lookup_foldl_replay (R := entryReducer) after ?_
  have hnone : lookup entryReducer.key v.entryId (before.foldl entryReducer.replay l) = none :=
    lookup_eq_none.mpr hnew
  rw [Reducer.replay, Reducer.added_of_not_mem (entryReducer.target_fresh hf) hnew, lookup_append,
    hnone, hf]
  simp [lookup_cons]

/-- A full replay over any live prefix has the ids and kinds of the live transcript. -/
theorem shape_replay_after_live (events : List TurnEventBody) (cut : Nat) :
    (events.foldl entryReducer.replay (liveEntries (events.take cut))).map shape =
      (liveEntries events).map shape := by
  have hsplit := events.take_append_drop cut
  have hreplay : events.foldl entryReducer.replay (liveEntries (events.take cut)) =
      (events.drop cut).foldl entryReducer.replay (liveEntries (events.take cut)) := by
    have h := Reducer.foldl_replay_after_live (R := entryReducer) (events.take cut)
      (events.drop cut) []
    rw [hsplit] at h
    exact h
  have hlive : liveEntries events =
      (events.drop cut).foldl entryReducer.live (liveEntries (events.take cut)) := by
    conv_lhs => rw [← hsplit, liveEntries, List.foldl_append]
    rfl
  rw [hreplay, hlive]
  exact (Reducer.map_foldl_live_eq shape_touch _ rfl rfl).2.symm

theorem ids_replay_after_live (events : List TurnEventBody) (cut : Nat) :
    (events.foldl entryReducer.replay (liveEntries (events.take cut))).map Entry.entryId =
      (liveEntries events).map Entry.entryId := by
  have h := congrArg (List.map Prod.fst) (shape_replay_after_live events cut)
  rw [List.map_map, List.map_map] at h
  exact h

/-- A settled entry survives a full replay over any live prefix. -/
theorem lookup_replay_after_live_of_settled {events : List TurnEventBody} {v : Entry} (cut : Nat)
    (h : SettledAtCreation events v) :
    lookup Entry.entryId v.entryId
      (events.foldl entryReducer.replay (liveEntries (events.take cut))) = some v := by
  obtain ⟨before, event, after, rfl, hcreate, hnew, hkept⟩ := h
  have hf := fresh_of_applyEvent_nil hcreate
  by_cases hcut : cut ≤ before.length
  · -- the prefix ends before the entry exists: the replay creates it
    have htake : (before ++ event :: after).take cut = before.take cut :=
      List.take_append_of_le_length hcut
    rw [htake]
    refine lookup_replay_of_created hf ?_
    rw [ids_replay_after_live]
    exact hnew
  · -- the entry is there already, and a replay keeps it
    obtain ⟨n, rfl⟩ : ∃ n, cut = before.length + (n + 1) := ⟨cut - before.length - 1, by omega⟩
    have htake : (before ++ event :: after).take (before.length + (n + 1)) =
        before ++ event :: after.take n := by
      rw [List.take_length_add_append, List.take_succ_cons]
    rw [htake]
    refine Reducer.lookup_foldl_replay (R := entryReducer) _ ?_
    exact lookup_live_of_settled hf hnew fun later hl => hkept later (List.mem_of_mem_take hl)

/-- What a replay leaves, for every sequence of events and every live prefix of it. On a
fresh thread, and over any live prefix, it shows the entries of the live transcript in the
same order; an entry that the prefix did not have is as its first event made it, those of
the prefix are untouched; and entries that were final when created are the same in all three
transcripts. -/
theorem replay_shows_first_events (id : String) (events : List (Nat × TurnEventBody))
    (cut : Nat) :
    let fresh := ThreadMachine.new id
    let live := fresh.applyAll events .live
    let replayed := fresh.applyAll events .replay
    let started := fresh.applyAll (events.take cut) .live
    let resumed := started.applyAll events .replay
    replayed.entries.map shape = live.entries.map shape ∧
    resumed.entries.map shape = live.entries.map shape ∧
    replayed.entries = entryReducer.firsts [] (events.map Prod.snd) ∧
    resumed.entries = started.entries ++
      entryReducer.firsts (started.entries.map Entry.entryId) (events.map Prod.snd) ∧
    ∀ v, SettledAtCreation (events.map Prod.snd) v →
      findMut live.entries v.entryId = some v ∧
      findMut replayed.entries v.entryId = some v ∧
      findMut resumed.entries v.entryId = some v := by
  intro fresh live replayed started resumed
  have hlive : live.entries = liveEntries (events.map Prod.snd) := applyAll_live_entries _ _
  have hstarted : started.entries = liveEntries ((events.map Prod.snd).take cut) := by
    rw [← List.map_take]
    exact applyAll_live_entries _ _
  have hreplayed : replayed.entries = (events.map Prod.snd).foldl entryReducer.replay
      (liveEntries ((events.map Prod.snd).take 0)) := applyAll_replay_entries _ _
  have hresumed : resumed.entries = (events.map Prod.snd).foldl entryReducer.replay
      (liveEntries ((events.map Prod.snd).take cut)) := by
    rw [← hstarted]
    exact applyAll_replay_entries _ _
  refine ⟨?_, ?_, ?_, ?_, fun v hv => ⟨?_, ?_, ?_⟩⟩
  · rw [hreplayed, hlive, shape_replay_after_live]
  · rw [hresumed, hlive, shape_replay_after_live]
  · rw [hreplayed, Reducer.foldl_replay_eq]
    rfl
  · rw [hresumed, hstarted, Reducer.foldl_replay_eq]
  · obtain ⟨before, event, after, hsplit, hcreate, hnew, hkept⟩ := hv
    rw [hlive, hsplit]
    exact lookup_live_of_settled (fresh_of_applyEvent_nil hcreate) hnew hkept
  · rw [hreplayed]
    exact lookup_replay_after_live_of_settled 0 hv
  · rw [hresumed]
    exact lookup_replay_after_live_of_settled cut hv

/-- Two chunks of one message: live they make one message of two blocks, a replay on a
fresh thread or over the first chunk keeps only the first block. -/
theorem replay_drops_second_chunk :
    let chunk (text : String) : TurnEventBody := .messageChunk ⟨"m", .agent, .text text⟩
    let events := [(0, chunk "hello "), (1, chunk "world")]
    let fresh := ThreadMachine.new "t"
    (fresh.applyAll events .replay).entries ≠ (fresh.applyAll events .live).entries ∧
    ((fresh.applyAll (events.take 1) .live).applyAll events .replay).entries ≠
      (fresh.applyAll events .live).entries := by
  decide

end Tethys.Thread
