import Mathlib.Data.List.Induction
import Tethys.Store.Schema

/-!
# Integrity of the event log

What one `append_batch` does to the tables, for every batch and every statement that can
fail, and what any sequence of calls leaves: each thread's log is the sequence of events it
acknowledged, numbered from one, and its entries are the materialization of that log.
-/

namespace Tethys.Store

open Lib Schema.Store

variable {faults : Faults} {now : Nat → Int} {thread t : String} {events : List NewEvent}
  {db db' : Db}

/-! ### One append -/

/-- The rows of `events` for a batch that starts after `seq`. -/
def eventRows (now : Nat → Int) (thread : String) : Nat → Nat → List NewEvent → List StoredEvent
  | _, _, [] => []
  | id, seq, event :: events =>
    ⟨id + 1, thread, seq + 1, event.kind, event.payload, now (seq + 1)⟩ ::
      eventRows now thread (id + 1) (seq + 1) events

/-- The upserts of a batch that starts after `seq`. -/
def numbered (thread : String) : Nat → List NewEvent → List Upsert
  | _, [] => []
  | seq, event :: events =>
    (event.entry.map fun entry => ⟨thread, seq + 1, entry⟩).toList ++
      numbered thread (seq + 1) events

@[simp] theorem numbered_nil (seq : Nat) : numbered thread seq [] = [] := rfl

theorem numbered_append (seq : Nat) (as bs : List NewEvent) :
    numbered thread seq (as ++ bs) =
      numbered thread seq as ++ numbered thread (seq + as.length) bs := by
  induction as generalizing seq with
  | nil => rfl
  | cons a as ih =>
    simp only [List.cons_append, numbered, ih, List.append_assoc, List.length_cons]
    congr 3
    omega

theorem mem_numbered {seq : Nat} {u : Upsert} (h : u ∈ numbered thread seq events) :
    u.threadId = thread ∧ seq < u.seq ∧ u.seq ≤ seq + events.length := by
  induction events generalizing seq with
  | nil => exact absurd h List.not_mem_nil
  | cons event events ih =>
    rcases List.mem_append.mp h with h | h
    · obtain ⟨entry, -, rfl⟩ : ∃ entry, event.entry = some entry ∧ _ = u := by simpa using h
      exact ⟨rfl, Nat.lt_succ_self seq, by simp⟩
    · obtain ⟨hthread, hlow, hhigh⟩ := ih h
      refine ⟨hthread, by omega, ?_⟩
      rw [List.length_cons]
      omega

theorem seqs_eventRows (id seq : Nat) :
    (eventRows now thread id seq events).map StoredEvent.seq =
      List.range' (seq + 1) events.length := by
  induction events generalizing id seq with
  | nil => rfl
  | cons event events ih =>
    simp only [eventRows, List.map_cons, List.length_cons, List.range'_succ, ih]

theorem thread_of_mem_eventRows {id seq : Nat} {row : StoredEvent}
    (h : row ∈ eventRows now thread id seq events) : row.threadId = thread := by
  induction events generalizing id seq with
  | nil => exact absurd h List.not_mem_nil
  | cons event events ih =>
    rcases List.mem_cons.mp h with rfl | h
    · rfl
    · exact ih h

@[simp] theorem length_eventRows (id seq : Nat) :
    (eventRows now thread id seq events).length = events.length := by
  induction events generalizing id seq with
  | nil => rfl
  | cons event events ih => simp [eventRows, ih]

theorem insertEvent_eq_ok {seq : Nat} {kind payload : String} {at_ : Int}
    (h : db.insertEvent thread seq kind payload at_ = .ok db') :
    db.lastEventId < maxRowId ∧
      db' = { db with
        events := db.events ++ [⟨db.lastEventId + 1, thread, seq, kind, payload, at_⟩]
        lastEventId := db.lastEventId + 1 } := by
  unfold Db.insertEvent at h
  split_ifs at h with hdup hfull hthread
  exact ⟨Nat.lt_of_not_le hfull, (Except.ok.inj h).symm⟩

theorem upsertEntry_eq_ok {u : Upsert} (h : db.upsertEntry u = .ok db') :
    db' = { db with entries := upserts.live db.entries u } := by
  unfold Db.upsertEntry at h
  split_ifs at h with hthread
  exact (Except.ok.inj h).symm

/-- The tables after the loop of `append_batch` over `events`. -/
def Db.withRows (db : Db) (now : Nat → Int) (thread : String) (seq : Nat)
    (events : List NewEvent) : Db :=
  { db with
    events := db.events ++ eventRows now thread db.lastEventId seq events
    entries := (numbered thread seq events).foldl upserts.live db.entries
    lastEventId := db.lastEventId + events.length }

/-- The loop either fails or writes one event row for each event and one upsert for each
entry, in order. -/
theorem appendRows_eq_ok {seq last : Nat}
    (h : Db.appendRows faults now thread seq events db = .ok (db', last)) :
    last = seq + events.length ∧ db' = db.withRows now thread seq events ∧
      (events ≠ [] → db'.lastEventId ≤ maxRowId) := by
  induction events generalizing seq db with
  | nil =>
    obtain ⟨rfl, rfl⟩ : db = db' ∧ seq = last := by simpa [Db.appendRows] using h
    simp [Db.withRows, eventRows]
  | cons event events ih =>
    simp only [Db.appendRows] at h
    obtain ⟨_, -, hinsert⟩ := bind_eq_ok h
    obtain ⟨db₁, h₁, hupsert⟩ := bind_eq_ok hinsert
    obtain ⟨db₂, h₂, hrest⟩ := bind_eq_ok hupsert
    obtain ⟨rfl, rfl, hmax⟩ := ih hrest
    obtain ⟨hid, rfl⟩ := insertEvent_eq_ok h₁
    have hrow : db₂ = { db with
        events := db.events ++
          [⟨db.lastEventId + 1, thread, seq + 1, event.kind, event.payload, now (seq + 1)⟩]
        entries := (event.entry.map fun entry => ⟨thread, seq + 1, entry⟩).toList.foldl
          upserts.live db.entries
        lastEventId := db.lastEventId + 1 } := by
      cases hentry : event.entry with
      | none =>
        rw [hentry] at h₂
        exact (Except.ok.inj h₂).symm
      | some entry =>
        rw [hentry] at h₂
        obtain ⟨_, -, h₂⟩ := bind_eq_ok h₂
        exact upsertEntry_eq_ok h₂
    subst hrow
    refine ⟨by simp; omega, ?_, fun _ => ?_⟩
    · simp only [Db.withRows, eventRows, numbered, List.append_assoc, List.singleton_append,
        List.foldl_append, List.length_cons, Db.mk.injEq, true_and]
      omega
    · by_cases hnil : events = []
      · subst hnil
        exact Nat.succ_le_of_lt hid
      · exact hmax hnil

/-- What `append_batch` can do: fail and leave the database, answer an empty batch with the
current number, or commit the whole batch. -/
inductive Appended (now : Nat → Int) (db : Db) (thread : String) :
    List NewEvent → Db → Except StoreError SeqRange → Prop
  | failed (events : List NewEvent) (e : StoreError) : Appended now db thread events db (.error e)
  | empty (seq : Nat) : db.selectLatestSeq thread = .ok seq →
    Appended now db thread [] db (.ok ⟨seq, seq⟩)
  | committed (seq : Nat) (events : List NewEvent) : db.selectLatestSeq thread = .ok seq →
    events ≠ [] → db.lastEventId + events.length ≤ maxRowId →
    Appended now db thread events
      ((db.withRows now thread seq events).updateLatestSeq thread (seq + events.length))
      (.ok ⟨seq + 1, seq + events.length⟩)

theorem appended_of_appendBatch (faults : Faults) (now : Nat → Int) (db : Db) (thread : String)
    (events : List NewEvent) :
    Appended now db thread events (db.appendBatch faults now thread events).1
      (db.appendBatch faults now thread events).2 := by
  unfold Db.appendBatch
  split_ifs with hempty
  · obtain rfl := List.isEmpty_iff.mp hempty
    cases hr : (do
        faults.check .selectLatestSeq
        let currentSeq ← db.selectLatestSeq thread
        .ok (⟨currentSeq, currentSeq⟩ : SeqRange)) with
    | error e => exact .failed [] e
    | ok range =>
      obtain ⟨_, -, hr⟩ := bind_eq_ok hr
      obtain ⟨seq, hseq, hr⟩ := bind_eq_ok hr
      obtain rfl := Except.ok.inj hr
      exact .empty seq hseq
  · unfold Db.transaction
    cases hb : Db.appendBody faults now thread events db with
    | error e => exact .failed events e
    | ok result =>
      obtain ⟨_, -, hb⟩ := bind_eq_ok hb
      obtain ⟨_, -, hb⟩ := bind_eq_ok hb
      obtain ⟨seq, hseq, hb⟩ := bind_eq_ok hb
      obtain ⟨_, -, hb⟩ := bind_eq_ok hb
      obtain ⟨⟨db₁, last⟩, hrows, hb⟩ := bind_eq_ok hb
      obtain ⟨_, -, hb⟩ := bind_eq_ok hb
      obtain ⟨_, -, hb⟩ := bind_eq_ok hb
      obtain rfl := Except.ok.inj hb
      have hne : events ≠ [] := fun h => hempty (List.isEmpty_iff.mpr h)
      obtain ⟨rfl, rfl, hmax⟩ := appendRows_eq_ok hrows
      exact .committed seq events hseq hne (hmax hne)

/-! ### Sequences of calls -/

/-- One call on the store. -/
inductive Call where
  | ensureWorkspace (id rootPath isolation : String)
  | ensureThread (thread workspaceId : String)
  | appendBatch (faults : Faults) (now : Nat → Int) (thread : String) (events : List NewEvent)

/-- A successful append of a non-empty batch. -/
structure Ack where
  thread : String
  events : List NewEvent
  range : SeqRange
  deriving DecidableEq

/-- The database with the history of what it acknowledged. -/
structure EventStore where
  db : Db
  acks : List Ack
  deriving DecidableEq

namespace EventStore

def empty : EventStore := ⟨.empty, []⟩

def call (s : EventStore) : Call → EventStore
  | .ensureWorkspace id rootPath isolation =>
    { s with db := s.db.ensureWorkspace id rootPath isolation }
  | .ensureThread thread workspaceId => { s with db := (s.db.ensureThread thread workspaceId).1 }
  | .appendBatch faults now thread events =>
    match s.db.appendBatch faults now thread events with
    | (db, .ok range) =>
      if events.isEmpty then { s with db := db } else ⟨db, s.acks ++ [⟨thread, events, range⟩]⟩
    | (db, .error _) => { s with db := db }

/-- The store after a sequence of calls. -/
def after (s : EventStore) (calls : List Call) : EventStore := calls.foldl call s

theorem after_append (s : EventStore) (as bs : List Call) :
    s.after (as ++ bs) = (s.after as).after bs :=
  List.foldl_append

/-- The events a thread acknowledged, in order: the `n`-th one has sequence number `n`. -/
def accepted (s : EventStore) (t : String) : List NewEvent :=
  (s.acks.filter fun a => a.thread = t).flatMap Ack.events

/-- The ranges that the successful non-empty appends on a thread returned. -/
def ranges (s : EventStore) (t : String) : List SeqRange :=
  (s.acks.filter fun a => a.thread = t).map Ack.range

end EventStore

namespace Db

def latestSeq (db : Db) (t : String) : Nat :=
  ((lookup ThreadRow.id t db.threads).map ThreadRow.latestSeq).getD 0

def eventsOf (db : Db) (t : String) : List StoredEvent :=
  db.events.filter fun row => row.threadId = t

def entriesOf (db : Db) (t : String) : List EntryRow :=
  db.entries.filter fun row => row.threadId = t

end Db

/-- The row of an entry, read off the upserts of its key: the first one gives `first_seq`,
the last one `last_seq` and the payload, the last non-null turn index stays. -/
def entryOf (us : List Upsert) : Option EntryRow :=
  match us with
  | [] => none
  | u :: us =>
    let last := us.getLast?.getD u
    some {
      threadId := u.threadId
      kind := u.entry.kind.asStr
      entryId := u.entry.entryId
      firstSeq := u.seq
      lastSeq := last.seq
      turnIndex := ((u :: us).filterMap fun u => u.entry.turnIndex).getLast?
      payload := last.entry.payload }

/-- The log of a thread is what it acknowledged, and its entries materialize that log. -/
structure Intact (s : EventStore) (t : String) : Prop where
  latest : s.db.latestSeq t = (s.accepted t).length
  seqs : (s.db.eventsOf t).map StoredEvent.seq = List.range' 1 (s.accepted t).length
  ranges : (s.ranges t).flatMap SeqRange.seqs = List.range' 1 (s.accepted t).length
  proper : ∀ r ∈ s.ranges t, r.first ≤ r.last
  entries : s.db.entriesOf t = (numbered t 0 (s.accepted t)).foldl upserts.live []

/-! ### Every call keeps the log -/

namespace EventStore

/-- What a call can do to the store. -/
inductive Called (s : EventStore) : EventStore → Prop
  | same : Called s s
  | workspace (rows : List WorkspaceRow) :
    Called s { s with db := { s.db with workspaces := rows } }
  | thread (id workspaceId : String) : id ∉ s.db.threads.map ThreadRow.id →
    Called s { s with db := { s.db with threads := s.db.threads ++ [⟨id, workspaceId, 0⟩] } }
  | committed (now : Nat → Int) (thread : String) (seq : Nat) (events : List NewEvent) :
    s.db.selectLatestSeq thread = .ok seq → events ≠ [] →
    s.db.lastEventId + events.length ≤ maxRowId →
    Called s ⟨(s.db.withRows now thread seq events).updateLatestSeq thread (seq + events.length),
      s.acks ++ [⟨thread, events, ⟨seq + 1, seq + events.length⟩⟩]⟩

theorem called (s : EventStore) (c : Call) : s.Called (s.call c) := by
  cases c with
  | ensureWorkspace id rootPath isolation =>
    simp only [call, Db.ensureWorkspace]
    split_ifs with h
    · exact .same
    · exact .workspace _
  | ensureThread thread workspaceId =>
    unfold call Db.ensureThread
    dsimp only
    split_ifs with h hw
    · exact .same
    · exact .thread thread workspaceId h
    · exact .same
  | appendBatch faults now thread events =>
    have happ := appended_of_appendBatch faults now s.db thread events
    generalize hr : s.db.appendBatch faults now thread events = r at happ
    obtain ⟨db, result⟩ := r
    cases happ with
    | failed events e =>
      simp only [call, hr]
      exact .same
    | empty seq hseq =>
      simp only [call, hr]
      exact .same
    | committed seq events hseq hne hmax =>
      have hsome : events.isEmpty = false := by simpa using hne
      simp only [call, hr, hsome]
      exact .committed now thread seq events hseq hne hmax

end EventStore

theorem latestSeq_of_select {seq : Nat} (h : db.selectLatestSeq thread = .ok seq) :
    ∃ row, lookup ThreadRow.id thread db.threads = some row ∧ row.latestSeq = seq := by
  unfold Db.selectLatestSeq at h
  cases hrow : lookup ThreadRow.id thread db.threads with
  | none => simp [hrow] at h
  | some row => exact ⟨row, rfl, by simpa [hrow] using h⟩

theorem latestSeq_updateLatestSeq (db : Db) (thread t : String) (seq : Nat) :
    (db.updateLatestSeq thread seq).latestSeq t =
      if t = thread ∧ t ∈ db.threads.map ThreadRow.id then seq else db.latestSeq t := by
  have hkey : ∀ row : ThreadRow,
      (if row.id = thread then { row with latestSeq := seq } else row).id = row.id := by
    intro row
    split_ifs <;> rfl
  unfold Db.latestSeq Db.updateLatestSeq
  rw [lookup_map hkey]
  cases hrow : lookup ThreadRow.id t db.threads with
  | none => simp [lookup_eq_none.mp hrow]
  | some row =>
    have hmem : t ∈ db.threads.map ThreadRow.id := lookup_isSome.mp (by simp [hrow])
    have hid : row.id = t := key_of_lookup hrow
    by_cases h : t = thread
    · subst h
      simp [hid, hmem]
    · simp [hid, h]

theorem latestSeq_thread (id workspaceId : String) :
    Db.latestSeq { db with threads := db.threads ++ [⟨id, workspaceId, 0⟩] } t =
      db.latestSeq t := by
  unfold Db.latestSeq
  rw [lookup_append]
  cases hrow : lookup ThreadRow.id t db.threads with
  | some row => rfl
  | none =>
    by_cases ht : id = t <;> simp [lookup_cons, ht]

theorem eventsOf_withRows (db : Db) (now : Nat → Int) (thread t : String) (seq : Nat)
    (events : List NewEvent) :
    (db.withRows now thread seq events).eventsOf t =
      db.eventsOf t ++ if t = thread then eventRows now thread db.lastEventId seq events else [] := by
  unfold Db.eventsOf Db.withRows
  rw [List.filter_append]
  congr 1
  split_ifs with h
  · refine List.filter_eq_self.mpr fun row hrow => ?_
    simp [thread_of_mem_eventRows hrow, h]
  · refine List.filter_eq_nil_iff.mpr fun row hrow => ?_
    simpa [thread_of_mem_eventRows hrow] using Ne.symm h

/-- The upserts of a batch reach the rows of its own thread only. -/
theorem entriesOf_foldl (us : List Upsert) (hus : ∀ u ∈ us, u.threadId = thread)
    (rows : List EntryRow) :
    (us.foldl upserts.live rows).filter (fun row => row.threadId = t) =
      if t = thread then us.foldl upserts.live (rows.filter fun row => row.threadId = t)
      else rows.filter fun row => row.threadId = t := by
  induction us generalizing rows with
  | nil => simp
  | cons u us ih =>
    rw [List.forall_mem_cons] at hus
    rw [List.foldl_cons, ih hus.2]
    split_ifs with h
    · rw [List.foldl_cons]
      congr 1
      exact Reducer.filter_live (R := upserts) (p := fun k => k.1 = t) rfl
        (by simp [Upsert.key, hus.1, h]) rows
    · exact Reducer.filter_live_of_not (R := upserts) (p := fun k => k.1 = t) rfl
        (by simpa [Upsert.key, hus.1] using Ne.symm h) rows

theorem entriesOf_withRows (db : Db) (now : Nat → Int) (thread t : String) (seq : Nat)
    (events : List NewEvent) :
    (db.withRows now thread seq events).entriesOf t =
      if t = thread then (numbered thread seq events).foldl upserts.live (db.entriesOf t)
      else db.entriesOf t :=
  entriesOf_foldl _ (fun _ hu => (mem_numbered hu).1) _

/-- What every reachable store satisfies. -/
structure Sound (s : EventStore) : Prop where
  intact : ∀ t, Intact s t
  counted : s.db.events.length = s.db.lastEventId
  bounded : s.db.lastEventId ≤ maxRowId
  distinct : (s.db.entries.map EntryRow.key).Nodup

theorem nodup_foldl_upserts (us : List Upsert) {rows : List EntryRow}
    (h : (rows.map EntryRow.key).Nodup) :
    ((us.foldl upserts.live rows).map EntryRow.key).Nodup := by
  induction us generalizing rows with
  | nil => exact h
  | cons u us ih => exact ih (Reducer.nodup_live (R := upserts) h)

theorem sound_empty : Sound .empty where
  intact _ := ⟨rfl, rfl, rfl, fun _ h => absurd h List.not_mem_nil, rfl⟩
  counted := rfl
  bounded := Nat.zero_le _
  distinct := .nil

section Commit
variable {s : EventStore} {seq : Nat}

/-- The store after a committed append. -/
def EventStore.commit (s : EventStore) (now : Nat → Int) (thread : String) (seq : Nat)
    (events : List NewEvent) : EventStore :=
  ⟨(s.db.withRows now thread seq events).updateLatestSeq thread (seq + events.length),
    s.acks ++ [⟨thread, events, ⟨seq + 1, seq + events.length⟩⟩]⟩

theorem accepted_commit :
    (s.commit now thread seq events).accepted t =
      s.accepted t ++ if t = thread then events else [] := by
  by_cases h : t = thread
  · simp [EventStore.commit, EventStore.accepted, List.filter_append, h]
  · simp [EventStore.commit, EventStore.accepted, List.filter_append, h, Ne.symm h]

theorem ranges_commit :
    (s.commit now thread seq events).ranges t =
      s.ranges t ++ if t = thread then [⟨seq + 1, seq + events.length⟩] else [] := by
  by_cases h : t = thread
  · simp [EventStore.commit, EventStore.ranges, List.filter_append, h]
  · simp [EventStore.commit, EventStore.ranges, List.filter_append, h, Ne.symm h]

theorem intact_commit (hseq : s.db.selectLatestSeq thread = .ok seq) (hne : events ≠ [])
    (h : Intact s t) (hthread : Intact s thread) :
    Intact (s.commit now thread seq events) t := by
  obtain ⟨row, hrow, rfl⟩ := latestSeq_of_select hseq
  have hmem : thread ∈ s.db.threads.map ThreadRow.id := lookup_isSome.mp (by simp [hrow])
  have hlen : row.latestSeq = (s.accepted thread).length := by
    rw [← hthread.latest, Db.latestSeq, hrow]
    rfl
  have hpos : 0 < events.length := List.length_pos_iff.mpr hne
  have hevents : (s.commit now thread row.latestSeq events).db.eventsOf t = _ :=
    eventsOf_withRows s.db now thread t row.latestSeq events
  have hentries : (s.commit now thread row.latestSeq events).db.entriesOf t = _ :=
    entriesOf_withRows s.db now thread t row.latestSeq events
  have hlatest : (s.commit now thread row.latestSeq events).db.latestSeq t = _ :=
    latestSeq_updateLatestSeq (s.db.withRows now thread row.latestSeq events) thread t
      (row.latestSeq + events.length)
  by_cases ht : t = thread
  · subst ht
    refine ⟨?_, ?_, ?_, ?_, ?_⟩
    · rw [hlatest, accepted_commit, if_pos ⟨rfl, hmem⟩, if_pos rfl, List.length_append, hlen]
    · rw [hevents, accepted_commit, if_pos rfl, if_pos rfl, List.map_append, h.seqs,
        seqs_eventRows, List.length_append, hlen, Nat.add_comm _ 1, List.range'_append_1]
    · rw [ranges_commit, accepted_commit, if_pos rfl, if_pos rfl, List.flatMap_append, h.ranges,
        List.length_append, ← List.range'_append_1, hlen, Nat.add_comm 1]
      congr 1
      simp [SeqRange.seqs]
    · intro r hr
      rw [ranges_commit, if_pos rfl] at hr
      rcases List.mem_append.mp hr with hr | hr
      · exact h.proper r hr
      · obtain rfl := List.mem_singleton.mp hr
        dsimp only
        omega
    · rw [hentries, accepted_commit, if_pos rfl, if_pos rfl, numbered_append, List.foldl_append,
        h.entries, Nat.zero_add, hlen]
  · refine ⟨?_, ?_, ?_, ?_, ?_⟩
    · rw [hlatest, if_neg (by simp [ht]), accepted_commit, if_neg ht, List.append_nil]
      exact h.latest
    · rw [hevents, accepted_commit, if_neg ht, if_neg ht, List.append_nil, List.append_nil]
      exact h.seqs
    · rw [ranges_commit, accepted_commit, if_neg ht, if_neg ht, List.append_nil, List.append_nil]
      exact h.ranges
    · rw [ranges_commit, if_neg ht, List.append_nil]
      exact h.proper
    · rw [hentries, accepted_commit, if_neg ht, if_neg ht, List.append_nil]
      exact h.entries

end Commit

theorem sound_call {s : EventStore} (h : Sound s) (c : Call) : Sound (s.call c) := by
  have hc := s.called c
  generalize s.call c = s' at hc
  cases hc with
  | same => exact h
  | workspace rows =>
    refine ⟨fun t => ?_, h.counted, h.bounded, h.distinct⟩
    exact { h.intact t with latest := (h.intact t).latest }
  | thread id workspaceId hid =>
    refine ⟨fun t => ?_, h.counted, h.bounded, h.distinct⟩
    have hlatest : Db.latestSeq _ t = s.db.latestSeq t := latestSeq_thread id workspaceId
    exact { h.intact t with latest := hlatest.trans (h.intact t).latest }
  | committed now thread seq events hseq hne hmax =>
    refine ⟨fun t => intact_commit hseq hne (h.intact t) (h.intact thread), ?_, hmax, ?_⟩
    · simp [Db.updateLatestSeq, Db.withRows, h.counted]
    · exact nodup_foldl_upserts _ h.distinct

/-- One more upsert of a key updates its row, or creates it. -/
theorem entryOf_append (us : List Upsert) (u : Upsert) :
    entryOf (us ++ [u]) = some (((entryOf us).map u.update).getD u.row) := by
  cases us with
  | nil =>
    cases hturn : u.entry.turnIndex <;> simp [entryOf, Upsert.row, hturn]
  | cons v us =>
    have hturn : ((v :: (us ++ [u])).filterMap fun u => u.entry.turnIndex).getLast? =
        u.entry.turnIndex.or ((v :: us).filterMap fun u => u.entry.turnIndex).getLast? := by
      rw [← List.cons_append, List.filterMap_append, List.getLast?_append]
      cases hu : u.entry.turnIndex <;> simp [hu]
    simp only [List.cons_append, entryOf, Upsert.update, hturn, Option.map_some, Option.getD_some]
    simp

/-- Materializing a log leaves under each key the row that its upserts determine. -/
theorem lookup_foldl_upserts (us : List Upsert) (k : String × String × String) :
    lookup EntryRow.key k (us.foldl upserts.live []) = entryOf (us.filter fun u => u.key = k) := by
  induction us using List.reverseRecOn with
  | nil => rfl
  | append_singleton us u ih =>
    rw [List.foldl_append, List.foldl_cons, List.foldl_nil, List.filter_append]
    by_cases hk : u.key = k
    · have ht : upserts.target u = some k := congrArg some hk
      rw [List.filter_cons_of_pos (by simpa using hk), List.filter_nil, entryOf_append, ← ih]
      cases hl : lookup EntryRow.key k (us.foldl upserts.live []) with
      | none => exact Reducer.lookup_live_of_none ht hl
      | some row => exact Reducer.lookup_live_of_some ht hl
    · have ht : upserts.target u ≠ some k := fun h => hk (Option.some.inj h)
      rw [List.filter_cons_of_neg (by simpa using hk), List.filter_nil, List.append_nil, ← ih]
      exact Reducer.lookup_live_of_ne ht

theorem lookup_entriesOf (db : Db) (t kind id : String) :
    lookup EntryRow.key (t, kind, id) (db.entriesOf t) =
      lookup EntryRow.key (t, kind, id) db.entries :=
  lookup_filter (p := fun k : String × String × String => k.1 = t) (by simp)

/-- The upserts of a key are those of its kind and id. -/
theorem filter_key_numbered (kind id : String) :
    ((numbered t 0 events).filter fun u => u.key = (t, kind, id)) =
      (numbered t 0 events).filter fun u => u.entry.kind.asStr = kind ∧ u.entry.entryId = id := by
  refine List.filter_congr fun u hu => ?_
  obtain ⟨hthread, -, -⟩ := mem_numbered hu
  simp [Upsert.key, hthread]

theorem sound_after {s : EventStore} (h : Sound s) (calls : List Call) : Sound (s.after calls) := by
  induction calls generalizing s with
  | nil => exact h
  | cons c calls ih => exact ih (sound_call h c)

/-- For every sequence of calls and every thread: the stored numbers are `1, .., latest_seq`,
the acknowledged ranges follow each other and cover exactly them, and each entry row is the
one that the upserts of its key determine. Every further append either fails and changes
nothing, or leaves all other threads as they are. -/
theorem append_batch_integrity (calls : List Call) (t : String) :
    let s := EventStore.empty.after calls
    (s.db.eventsOf t).map StoredEvent.seq = List.range' 1 (s.db.latestSeq t) ∧
    (s.ranges t).flatMap SeqRange.seqs = List.range' 1 (s.db.latestSeq t) ∧
    (∀ r ∈ s.ranges t, r.first ≤ r.last) ∧
    (s.db.entries.map EntryRow.key).Nodup ∧
    (∀ kind id, lookup EntryRow.key (t, kind, id) s.db.entries =
      entryOf ((numbered t 0 (s.accepted t)).filter fun u =>
        u.entry.kind.asStr = kind ∧ u.entry.entryId = id)) ∧
    ∀ faults now events,
      let r := s.db.appendBatch faults now t events
      (∀ e, r.2 = .error e → r.1 = s.db) ∧
      ∀ other, other ≠ t →
        r.1.eventsOf other = s.db.eventsOf other ∧ r.1.entriesOf other = s.db.entriesOf other ∧
        r.1.latestSeq other = s.db.latestSeq other := by
  intro s
  have hs : Sound s := sound_after sound_empty calls
  have ht := hs.intact t
  rw [ht.latest]
  refine ⟨ht.seqs, ht.ranges, ht.proper, hs.distinct, fun kind id => ?_, ?_⟩
  · rw [← lookup_entriesOf, ht.entries, lookup_foldl_upserts, filter_key_numbered]
  · intro faults now events r
    have happ : Appended now s.db t events r.1 r.2 :=
      appended_of_appendBatch faults now s.db t events
    generalize r.1 = db' at happ
    generalize r.2 = result at happ
    cases happ with
    | failed events e => exact ⟨fun _ _ => rfl, fun _ _ => ⟨rfl, rfl, rfl⟩⟩
    | empty seq hseq => exact ⟨fun _ h => (nomatch h), fun _ _ => ⟨rfl, rfl, rfl⟩⟩
    | committed seq events hseq hne hmax =>
      refine ⟨fun _ h => (nomatch h), fun other hother => ⟨?_, ?_, ?_⟩⟩
      · refine (eventsOf_withRows s.db now t other seq events).trans ?_
        rw [if_neg hother, List.append_nil]
      · exact (entriesOf_withRows s.db now t other seq events).trans (if_neg hother)
      · rw [latestSeq_updateLatestSeq, if_neg fun h => hother h.1]
        rfl

section Batches

def noFaults : Faults := fun _ => none

/-- The database is locked when a transaction commits. -/
def lockedCommit : Faults := fun s =>
  if s = .commit then some (.sqlite "database is locked") else none

/-- Two batches, with one in between that fails. -/
def twoBatches : List Call :=
  [.ensureWorkspace "w" "/w" "local", .ensureThread "t" "w",
    .appendBatch noFaults (fun _ => 0) "t"
      [⟨"message", "{}", some ⟨.message, "m", some 1, "a"⟩⟩, ⟨"usage", "{}", none⟩],
    .appendBatch lockedCommit (fun _ => 0) "t" [⟨"usage", "{}", none⟩],
    .appendBatch noFaults (fun _ => 0) "t" [⟨"message", "{}", some ⟨.message, "m", none, "ab"⟩⟩]]

/-- The message has the number of its first upsert, the rest from its last one, and the turn that
was given. -/
theorem append_batch_integrity_twoBatches :
    let s := EventStore.empty.after twoBatches
    s.ranges "t" = [⟨1, 2⟩, ⟨3, 3⟩] ∧
    (s.db.eventsOf "t").map StoredEvent.seq = [1, 2, 3] ∧
    lookup EntryRow.key ("t", "message", "m") s.db.entries =
      some ⟨"t", "message", "m", 1, 3, some 1, "ab"⟩ := by
  obtain ⟨hseqs, -, -, -, hentries, -⟩ := append_batch_integrity twoBatches "t"
  refine ⟨by decide, hseqs.trans (by decide), (hentries "message" "m").trans (by decide)⟩

end Batches

end Tethys.Store
