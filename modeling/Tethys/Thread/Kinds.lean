import Mathlib.Data.List.Induction
import Tethys.Thread.Replay

/-!
# Entries of different kinds

All kinds of entries share one list and one lookup by id. An event that finds an entry of
another kind under its id is dropped, so that kinds shadow each other where ids collide.
`kinds_apart_iff` says that nothing else makes them interfere: each kind comes out as from its
own events exactly when no id is created under two kinds.
-/

namespace Tethys.Thread

open Schema Lib ThreadMachine

/-- The kind of entry that an event is about. -/
def eventKind : TurnEventBody → Option EntryKind
  | .messageChunk _ | .messageUpsert _ => some .message
  | .toolCallUpsert .. | .toolCallContentChunk .. => some .toolCall
  | .planUpsert .. => some .plan
  | .terminalUpsert .. | .terminalOutputChunk .. => some .terminal
  | .permissionRequested _ | .permissionResolved .. => some .permission
  | .error .. => some .error
  | _ => none

/-- Id and kind of the entry that an event creates where there is none. -/
def creates (event : TurnEventBody) : Option (String × EntryKind) := (freshEntry event).map shape

/-- No id is created under two kinds. -/
def CreatesApart (events : List TurnEventBody) : Prop :=
  ∀ a ∈ events, ∀ b ∈ events, ∀ x k k', creates a = some (x, k) → creates b = some (x, k') → k = k'

variable {events : List TurnEventBody} {event : TurnEventBody} {e e' : Entry} {k : EntryKind}

theorem eventKind_of_touch (h : touch event e = some e') : eventKind event = some e.kind := by
  cases event <;> cases e <;> first | rfl | simp [touch] at h

theorem eventKind_of_fresh (h : freshEntry event = some e) : eventKind event = some e.kind := by
  cases event <;> simp only [freshEntry, Option.some.injEq, reduceCtorEq] at h <;> subst h <;> rfl

theorem targetId_of_fresh (h : freshEntry event = some e) : targetId event = some e.entryId :=
  entryReducer.target_fresh h

theorem creates_of_fresh (h : freshEntry event = some e) :
    creates event = some (e.entryId, e.kind) := by
  simp [creates, h, shape]

theorem liveEntries_append (events : List TurnEventBody) (event : TurnEventBody) :
    liveEntries (events ++ [event]) = entryReducer.live (liveEntries events) event := by
  simp [liveEntries]

theorem nodup_liveEntries (events : List TurnEventBody) :
    ((liveEntries events).map Entry.entryId).Nodup := by
  induction events using List.reverseRecOn with
  | nil => exact List.nodup_nil
  | append_singleton events event ih =>
    rw [liveEntries_append]
    exact Reducer.nodup_live (R := entryReducer) ih

/-- Every entry has an event that creates its id under its kind. -/
theorem exists_creates (h : e ∈ liveEntries events) :
    ∃ event ∈ events, creates event = some (e.entryId, e.kind) := by
  have hshape : shape e ∈ (liveEntries events).map shape := List.mem_map_of_mem h
  clear h
  induction events using List.reverseRecOn with
  | nil => simp [liveEntries] at hshape
  | append_singleton events event ih =>
    rw [liveEntries_append, Reducer.map_live (R := entryReducer) shape_touch] at hshape
    rcases List.mem_append.mp hshape with hold | hnew
    · obtain ⟨a, ha, hcreates⟩ := ih hold
      exact ⟨a, List.mem_append_left _ ha, hcreates⟩
    · obtain ⟨e', he', hshape⟩ := List.mem_map.mp hnew
      have hfresh : freshEntry event = some e' := by simpa using (List.mem_filter.mp he').1
      refine ⟨event, by simp, ?_⟩
      rw [creates, hfresh, Option.map_some, hshape]
      rfl

/-- The entries of one kind are not touched by events of another one. -/
theorem filter_live_of_ne (l : List Entry) (h : eventKind event ≠ some k) :
    (entryReducer.live l event).filter (·.kind = k) = l.filter (·.kind = k) := by
  cases ht : targetId event with
  | none => rw [Reducer.live_of_no_target (R := entryReducer) ht]
  | some x =>
    cases hl : lookup Entry.entryId x l with
    | none =>
      rw [Reducer.live_of_not_mem (R := entryReducer) ht (lookup_eq_none.mp hl), List.filter_append]
      cases hf : freshEntry event with
      | none => simp [hf]
      | some e =>
        have hkind : e.kind ≠ k := fun hk => h (hk ▸ eventKind_of_fresh hf)
        simp [hf, hkind]
    | some e =>
      cases htouch : touch event e with
      | none => rw [Reducer.live_of_untouched (R := entryReducer) ht hl htouch]
      | some e' =>
        have hkind : e.kind ≠ k := fun hk => h (hk ▸ eventKind_of_touch htouch)
        have hkeeps : e'.kind = e.kind := (touch_keeps htouch).2
        rw [Reducer.live_of_touch (R := entryReducer) ht hl htouch,
          filter_put_of_eq hl (by rw [hkeeps])]
        simp [hkind]

/-- With distinct ids, the id of an entry is not one of another kind. -/
theorem entryId_notMem_filter {l : List Entry} (hnodup : (l.map Entry.entryId).Nodup) (he : e ∈ l)
    (hkind : e.kind ≠ k) : e.entryId ∉ (l.filter (·.kind = k)).map Entry.entryId := by
  intro hx
  obtain ⟨e', he', hid⟩ := List.mem_map.mp hx
  obtain ⟨hmem, hkind'⟩ := List.mem_filter.mp he'
  obtain rfl : e' = e := by
    have hlookup := lookup_of_mem hnodup hmem
    rw [hid, lookup_of_mem hnodup he] at hlookup
    exact (Option.some.inj hlookup).symm
  exact hkind (by simpa using hkind')

/-- An event leaves the entries of other kinds. -/
theorem touch_of_other_kind {e : Entry} (h : eventKind event = some k) (hkind : e.kind ≠ k) :
    touch event e = none := by
  by_contra hsome
  obtain ⟨e', he'⟩ := Option.ne_none_iff_exists'.mp hsome
  exact hkind (Option.some.inj ((eventKind_of_touch he').symm.trans h))

theorem fresh_of_no_creation {x : String} (h : eventKind event = some k)
    (ht : targetId event = some x) (hnot : creates event ≠ some (x, k)) :
    freshEntry event = none := by
  by_contra hsome
  obtain ⟨e', he'⟩ := Option.ne_none_iff_exists'.mp hsome
  obtain rfl : k = e'.kind := Option.some.inj (h.symm.trans (eventKind_of_fresh he'))
  obtain rfl : e'.entryId = x := Option.some.inj ((entryReducer.target_fresh he').symm.trans ht)
  exact hnot (creates_of_fresh he')

/-- An event acts on the entries of its kind as on the whole list, unless it is about to create
an entry where one of another kind stands. -/
theorem filter_live_of_kind {l : List Entry} (hnodup : (l.map Entry.entryId).Nodup)
    (h : eventKind event = some k)
    (hclash : ∀ e ∈ l, e.kind ≠ k → creates event ≠ some (e.entryId, k)) :
    (entryReducer.live l event).filter (·.kind = k) =
      entryReducer.live (l.filter (·.kind = k)) event := by
  cases ht : targetId event with
  | none =>
    rw [Reducer.live_of_no_target (R := entryReducer) ht,
      Reducer.live_of_no_target (R := entryReducer) ht]
  | some x =>
    have hsub : ((l.filter (·.kind = k)).map Entry.entryId).Sublist (l.map Entry.entryId) :=
      List.filter_sublist.map Entry.entryId
    cases hl : lookup Entry.entryId x l with
    | none =>
      have hmem : x ∉ l.map Entry.entryId := lookup_eq_none.mp hl
      rw [Reducer.live_of_not_mem (R := entryReducer) ht hmem,
        Reducer.live_of_not_mem (R := entryReducer) ht fun hx => hmem (hsub.subset hx),
        List.filter_append]
      cases hf : freshEntry event with
      | none => simp [hf]
      | some e =>
        obtain rfl : k = e.kind := Option.some.inj (h.symm.trans (eventKind_of_fresh hf))
        simp [hf]
    | some e =>
      have hmem := mem_of_lookup hl
      have hid : e.entryId = x := key_of_lookup hl
      by_cases hkind : e.kind = k
      · -- the entry is of the event's kind, and the same in both lists
        have hfilter : lookup Entry.entryId x (l.filter (·.kind = k)) = some e := by
          rw [← hid]
          exact lookup_of_mem (hnodup.sublist hsub) (List.mem_filter.mpr ⟨hmem, by simp [hkind]⟩)
        cases htouch : touch event e with
        | none =>
          rw [Reducer.live_of_untouched (R := entryReducer) ht hl htouch,
            Reducer.live_of_untouched (R := entryReducer) ht hfilter htouch]
        | some e' =>
          have hkeeps : e'.kind = e.kind := (touch_keeps htouch).2
          rw [Reducer.live_of_touch (R := entryReducer) ht hl htouch,
            Reducer.live_of_touch (R := entryReducer) ht hfilter htouch,
            filter_put_of_eq hl (by rw [hkeeps])]
          simp [hkind]
      · -- an entry of another kind: the event is dropped, and creates nothing by itself
        have htouch := touch_of_other_kind h hkind
        have hfresh := fresh_of_no_creation h (hid.symm ▸ ht) (hclash e hmem hkind)
        have hmissing : x ∉ (l.filter (·.kind = k)).map Entry.entryId :=
          hid ▸ entryId_notMem_filter hnodup hmem hkind
        rw [Reducer.live_of_untouched (R := entryReducer) ht hl htouch,
          Reducer.live_of_not_mem (R := entryReducer) ht hmissing]
        simp [hfresh]

/-- Where no id is created under two kinds, each kind is made by its own events. -/
theorem filter_liveEntries (h : CreatesApart events) (k : EntryKind) :
    (liveEntries events).filter (·.kind = k) =
      liveEntries (events.filter fun event => eventKind event = some k) := by
  induction events using List.reverseRecOn with
  | nil => rfl
  | append_singleton events event ih =>
    have hsub : ∀ a ∈ events, a ∈ events ++ [event] := fun a ha => List.mem_append_left _ ha
    have ih := ih fun a ha b hb => h a (hsub a ha) b (hsub b hb)
    rw [liveEntries_append, List.filter_append]
    by_cases hkind : eventKind event = some k
    · rw [filter_live_of_kind (nodup_liveEntries events) hkind, ih]
      · simp [hkind, liveEntries_append]
      · intro e he hne hcreates
        obtain ⟨a, ha, hcreated⟩ := exists_creates he
        exact hne (h a (hsub a ha) event (by simp) _ _ _ hcreated hcreates)
    · rw [filter_live_of_ne _ hkind, ih]
      simp [hkind]

/-- The events of one kind make entries of this kind only. -/
theorem kind_of_mem_filter (h : e ∈ liveEntries (events.filter fun event => eventKind event = some k)) :
    e.kind = k := by
  obtain ⟨event, hevent, hcreates⟩ := exists_creates h
  have hkind : eventKind event = some k := by simpa using (List.mem_filter.mp hevent).2
  obtain ⟨e', hfresh, hshape⟩ := Option.map_eq_some_iff.mp hcreates
  have hsame : e'.kind = e.kind := congrArg Prod.snd hshape
  rw [← hsame]
  exact Option.some.inj ((eventKind_of_fresh hfresh).symm.trans hkind)

/-- An event that creates has an entry of its id and kind among those of its kind. -/
theorem exists_mem_of_creates {x : String} (hevent : event ∈ events)
    (h : creates event = some (x, k)) :
    ∃ e ∈ liveEntries (events.filter fun event => eventKind event = some k),
      e.entryId = x ∧ e.kind = k := by
  obtain ⟨e', hfresh, hshape⟩ := Option.map_eq_some_iff.mp h
  obtain ⟨rfl, rfl⟩ : e'.entryId = x ∧ e'.kind = k := by simpa [shape] using hshape
  have hmem : event ∈ events.filter fun event => eventKind event = some e'.kind :=
    List.mem_filter.mpr ⟨hevent, by simp [eventKind_of_fresh hfresh]⟩
  obtain ⟨e, he, hid⟩ := List.mem_map.mp
    (Reducer.key_fresh_mem_foldl_live (R := entryReducer) [] hmem hfresh)
  exact ⟨e, he, hid, kind_of_mem_filter he⟩

/-- Every kind of entry is made as by its own events alone, over every sequence of live events,
if and only if no id is created under two kinds. -/
theorem kinds_apart_iff (id : String) (events : List (Nat × TurnEventBody)) :
    (∀ k, ((ThreadMachine.new id).applyAll events .live).entries.filter (·.kind = k) =
      ((ThreadMachine.new id).applyAll
        (events.filter fun event => eventKind event.2 = some k) .live).entries) ↔
      CreatesApart (events.map Prod.snd) := by
  have hkind : ∀ k, (events.filter fun event => eventKind event.2 = some k).map Prod.snd =
      (events.map Prod.snd).filter fun event => eventKind event = some k := by
    intro k
    rw [List.filter_map]
    rfl
  have hentries : ∀ events : List (Nat × TurnEventBody),
      ((ThreadMachine.new id).applyAll events .live).entries = liveEntries (events.map Prod.snd) :=
    fun events => applyAll_live_entries _ events
  simp only [hentries, hkind]
  refine ⟨fun h a ha b hb x k k' hcreates hcreates' => ?_, fun h k => filter_liveEntries h k⟩
  -- the two entries with the id are both in the one transcript, so that they are the same
  obtain ⟨e, he, hid, rfl⟩ := exists_mem_of_creates ha hcreates
  obtain ⟨e', he', hid', rfl⟩ := exists_mem_of_creates hb hcreates'
  rw [← h] at he he'
  have hlookup := lookup_of_mem (nodup_liveEntries _) (List.mem_filter.mp he).1
  have hlookup' := lookup_of_mem (nodup_liveEntries _) (List.mem_filter.mp he').1
  rw [hid] at hlookup
  rw [hid'] at hlookup'
  obtain rfl : e = e' := Option.some.inj (hlookup.symm.trans hlookup')
  rfl

/-- A message under the id of the plan: the plan is dropped. -/
theorem message_shadows_plan :
    let events := [(0, .messageChunk ⟨"default", .agent, .text "hi"⟩), (1, .planUpsert "default" ⟨[]⟩)]
    let plans := fun entries : List Entry => entries.filter (·.kind = .plan)
    plans ((ThreadMachine.new "t").applyAll events .live).entries = [] ∧
    ((ThreadMachine.new "t").applyAll
      (events.filter fun event => eventKind event.2 = some .plan) .live).entries =
        [.plan "default" ⟨[]⟩] := by
  decide

end Tethys.Thread
