import Tethys.Lib.Runs
import Tethys.Store.Cut

/-!
# Following the log

A reader that asks `events_since` again and again for what comes after the last event it has, while
other calls go on. Its requests come between any calls, with any limits; `reader_follows_log` says
that it gets the log of the thread, from the start and in order, and nothing twice.
-/

namespace Tethys.Store

open Lib Schema.Store

namespace Db

/-- Events from `sinceSeq` on, oldest first. -/
def readEventsInclusive (db : Db) (thread : String) (sinceSeq : UInt64) (limit : UInt32) :
    List StoredEvent :=
  ((db.events.filter fun row => row.threadId = thread ∧ asI64 sinceSeq ≤ row.seq).mergeSort
    fun a b => a.seq ≤ b.seq).take limit.toNat

/-- The number of events of a thread. -/
def countEvents (db : Db) (thread : String) : Nat :=
  (db.events.filter fun row => row.threadId = thread).length

end Db

/-- A reader of a thread beside the calls on the store. -/
structure Follower where
  store : EventStore
  read : List StoredEvent

inductive FollowAct where
  | call (c : Call)
  | page (limit : UInt32)

namespace Follower

def start : Follower := ⟨.empty, []⟩

/-- The number of the last event that was read, 0 before the first. -/
def since (s : Follower) : UInt64 := .ofNat ((s.read.getLast?.map StoredEvent.seq).getD 0)

def nextPage (s : Follower) (t : String) (limit : UInt32) : List StoredEvent :=
  s.store.db.readEventsSince t s.since limit

def step (t : String) (s : Follower) : FollowAct → Option Follower
  | .call c => some { s with store := s.store.call c }
  | .page limit => some { s with read := s.read ++ s.nextPage t limit }

end Follower

/-! ### The log of a thread -/

/-- What an event of the log says. -/
def said (row : StoredEvent) : String × String := (row.eventType, row.payload)

theorem map_said_eventRows (now : Nat → Int) (thread : String) (id seq : Nat)
    (events : List NewEvent) :
    (eventRows now thread id seq events).map said =
      events.map fun event => (event.kind, event.payload) := by
  induction events generalizing id seq with
  | nil => rfl
  | cons event events ih => simp [eventRows, ih, said]

/-- A call adds events at the end of the log, and those it accepts. -/
theorem eventsOf_call (s : EventStore) (c : Call) (t : String) :
    ∃ new, (s.call c).db.eventsOf t = s.db.eventsOf t ++ new ∧
      ∃ events, (s.call c).accepted t = s.accepted t ++ events ∧
        new.map said = events.map fun event => (event.kind, event.payload) := by
  have hcalled := s.called c
  generalize s.call c = s' at hcalled
  cases hcalled with
  | same | workspace | thread =>
    exact ⟨[], (List.append_nil _).symm, [], (List.append_nil _).symm, rfl⟩
  | committed now thread seq events =>
    have haccepted : (s.commit now thread seq events).accepted t =
      s.accepted t ++ if t = thread then events else [] := accepted_commit
    refine ⟨_, eventsOf_withRows s.db now thread t seq events, _, haccepted, ?_⟩
    split_ifs
    · exact map_said_eventRows now thread _ seq events
    · rfl

/-- The events after the `n`-th one. -/
theorem filter_after {l : List StoredEvent} {a : Nat}
    (h : l.map StoredEvent.seq = List.range' (a + 1) l.length) (n : Nat) :
    l.filter (fun row => a + n < row.seq) = l.drop n := by
  induction l generalizing a n with
  | nil => simp
  | cons row l ih =>
    cases n with
    | zero =>
      refine List.filter_eq_self.mpr fun row' hrow => ?_
      have hseq : row'.seq ∈ List.range' (a + 1) (row :: l).length := h ▸ List.mem_map_of_mem hrow
      rw [List.mem_range'_1] at hseq
      simp
      omega
    | succ n =>
      simp only [List.map_cons, List.length_cons, List.range'_succ, List.cons.injEq] at h
      have hrest := ih h.2 n
      have hadd : a + (n + 1) = a + 1 + n := by omega
      rw [List.drop_succ_cons, ← hrest, List.filter_cons_of_neg (by simp; omega), hadd]

section Log
variable {s : EventStore} {t : String} {n : Nat}

theorem Sound.seqs_eventsOf (h : Sound s) (t : String) :
    (s.db.eventsOf t).map StoredEvent.seq = List.range' 1 (s.db.eventsOf t).length := by
  have hseqs := (h.intact t).seqs
  have hlength := congrArg List.length hseqs
  rw [List.length_map, List.length_range'] at hlength
  rw [hseqs, hlength]

theorem Sound.length_eventsOf (h : Sound s) (t : String) :
    (s.db.eventsOf t).length = s.db.latestSeq t := by
  rw [(h.intact t).latest, ← List.length_map StoredEvent.seq, (h.intact t).seqs, List.length_range']

theorem Sound.mergeSort_drop (h : Sound s) (t : String) (n : Nat) :
    ((s.db.eventsOf t).drop n).mergeSort (fun a b => a.seq ≤ b.seq) = (s.db.eventsOf t).drop n := by
  refine List.mergeSort_of_pairwise (.drop ?_)
  have hlt : ((s.db.eventsOf t).map StoredEvent.seq).Pairwise (· < ·) := by
    rw [h.seqs_eventsOf t]
    exact List.pairwise_lt_range'
  refine (List.pairwise_map.mp hlt).imp fun hlt => ?_
  simpa using Nat.le_of_lt hlt

/-- What is read after the `n`-th event. -/
theorem Sound.readEventsSince_eq (h : Sound s) (hn : n ≤ maxRowId) (limit : UInt32) :
    s.db.readEventsSince t (.ofNat n) limit = ((s.db.eventsOf t).drop n).take limit.toNat := by
  have hsplit : s.db.events.filter (fun row => row.threadId = t ∧ (n : Int) < row.seq) =
      (s.db.eventsOf t).drop n := by
    have hafter := filter_after (a := 0) (by simpa using h.seqs_eventsOf t) n
    rw [← hafter, Db.eventsOf, List.filter_filter]
    refine List.filter_congr fun row _ => ?_
    simp [Bool.and_comm]
  rw [Db.readEventsSince, asI64_ofNat hn, hsplit, h.mergeSort_drop]

/-- What is read from the `n`-th event on; the first number is 1, and 0 reads as much. -/
theorem Sound.readEventsInclusive_eq (h : Sound s) (hn : n ≤ maxRowId) (limit : UInt32) :
    s.db.readEventsInclusive t (.ofNat n) limit =
      ((s.db.eventsOf t).drop (n - 1)).take limit.toNat := by
  cases n with
  | zero =>
    have hall : s.db.events.filter (fun row => row.threadId = t ∧ ((0 : Nat) : Int) ≤ row.seq) =
        (s.db.eventsOf t).drop 0 := by
      refine List.filter_congr fun row _ => ?_
      simp
    rw [Db.readEventsInclusive, asI64_ofNat hn, hall, h.mergeSort_drop]
  | succ n =>
    rw [Nat.add_sub_cancel, ← h.readEventsSince_eq (Nat.le_of_lt hn), Db.readEventsInclusive,
      Db.readEventsSince, asI64_ofNat hn, asI64_ofNat (Nat.le_of_lt hn)]
    have hle : ∀ row : StoredEvent, ((n + 1 : Nat) : Int) ≤ row.seq ↔ (n : Int) < row.seq := by
      intro row
      omega
    simp only [hle]

end Log

/-! ### The reader -/

/-- The reader has the first events of the log, and the log says what was accepted. -/
structure Follower.Follows (t : String) (s : Follower) : Prop where
  sound : Sound s.store
  taken : s.read = (s.store.db.eventsOf t).take s.read.length
  said : (s.store.db.eventsOf t).map said =
    (s.store.accepted t).map fun event => (event.kind, event.payload)

section Follows
variable {s s' : Follower} {t : String}

theorem follows_start : Follower.start.Follows t := ⟨sound_empty, rfl, rfl⟩

theorem Follower.Follows.seqs (h : s.Follows t) :
    s.read.map StoredEvent.seq = List.range' 1 s.read.length := by
  have hlength : s.read.length ≤ (s.store.db.eventsOf t).length := by
    have hmin := congrArg List.length h.taken
    rw [List.length_take] at hmin
    omega
  conv_lhs => rw [h.taken, List.map_take, h.sound.seqs_eventsOf t,
    List.take_range'_of_length_ge hlength]

theorem Follower.Follows.length_le (h : s.Follows t) : s.read.length ≤ s.store.db.latestSeq t := by
  have hmin := congrArg List.length h.taken
  rw [List.length_take, h.sound.length_eventsOf t] at hmin
  omega

/-- The cursor is the number of events read. -/
theorem Follower.Follows.since_eq (h : s.Follows t) : s.since = .ofNat s.read.length := by
  have hlast := congrArg List.getLast? h.seqs
  rw [List.getLast?_map, List.getLast?_range'] at hlast
  rw [Follower.since, hlast]
  split_ifs with hzero
  · rw [hzero]
    rfl
  · simp

theorem Follower.Follows.length_le_maxRowId (h : s.Follows t) : s.read.length ≤ maxRowId :=
  le_trans h.length_le (h.sound.latestSeq_le t)

/-- The next page goes on where the last one ended. -/
theorem Follower.Follows.nextPage_eq (h : s.Follows t) (limit : UInt32) :
    s.nextPage t limit = ((s.store.db.eventsOf t).drop s.read.length).take limit.toNat := by
  rw [Follower.nextPage, h.since_eq, h.sound.readEventsSince_eq h.length_le_maxRowId]

/-- A read from the cursor on starts with the last event that was read. -/
theorem Follower.Follows.readEventsInclusive_eq (h : s.Follows t) (limit : UInt32) :
    s.store.db.readEventsInclusive t s.since limit =
      ((s.store.db.eventsOf t).drop (s.read.length - 1)).take limit.toNat := by
  rw [h.since_eq, h.sound.readEventsInclusive_eq h.length_le_maxRowId]

theorem follows_step (h : s.Follows t) {a : FollowAct} (hs : s.step t a = some s') : s'.Follows t := by
  cases a with
  | call c =>
    obtain rfl := Option.some.inj hs
    obtain ⟨new, hnew, events, hevents, hsaid⟩ := eventsOf_call s.store c t
    refine ⟨sound_call h.sound c, ?_, ?_⟩
    · have hlength : s.read.length ≤ (s.store.db.eventsOf t).length := by
        rw [h.sound.length_eventsOf t]
        exact h.length_le
      change s.read = ((s.store.call c).db.eventsOf t).take s.read.length
      rw [hnew, List.take_append_of_le_length hlength]
      exact h.taken
    · change ((s.store.call c).db.eventsOf t).map said = _
      rw [hnew, hevents, List.map_append, List.map_append, h.said, hsaid]
  | page limit =>
    obtain rfl := Option.some.inj hs
    have hread : s.read ++ s.nextPage t limit =
        (s.store.db.eventsOf t).take (s.read.length + limit.toNat) := by
      rw [h.nextPage_eq, List.take_add, ← h.taken]
    refine ⟨h.sound, ?_, h.said⟩
    change s.read ++ s.nextPage t limit =
      (s.store.db.eventsOf t).take (s.read ++ s.nextPage t limit).length
    rw [hread, List.length_take, ← List.take_eq_take_min]

end Follows

/-- Whatever calls come between its requests, the reader has exactly the first events that the
thread accepted, numbered from one; the next page brings as many more as there are and as it asks
for, and a read that takes in the cursor gives the last event once more before them. -/
theorem reader_follows_log (t : String) (acts : List FollowAct) :
    Always (Follower.step t) (fun s =>
      s.read <+: s.store.db.eventsOf t ∧
      s.read.map StoredEvent.seq = List.range' 1 s.read.length ∧
      s.read.map said =
        ((s.store.accepted t).take s.read.length).map (fun event => (event.kind, event.payload)) ∧
      s.store.db.countEvents t = s.store.db.latestSeq t ∧
      ∀ limit,
        (s.nextPage t limit).length =
          min limit.toNat (s.store.db.countEvents t - s.read.length) ∧
        s.store.db.readEventsInclusive t s.since limit =
          ((s.store.db.eventsOf t).drop (s.read.length - 1)).take limit.toNat)
      .start acts := by
  refine always_of_run (I := Follower.Follows t) (fun s h => ?_) (fun s a s' h => follows_step h)
    follows_start
  have hcount : s.store.db.countEvents t = (s.store.db.eventsOf t).length := rfl
  refine ⟨?_, h.seqs, ?_, hcount.trans (h.sound.length_eventsOf t), fun limit => ?_⟩
  · rw [h.taken]
    exact List.take_prefix _ _
  · conv_lhs => rw [h.taken, List.map_take, h.said, ← List.map_take]
  · refine ⟨?_, h.readEventsInclusive_eq limit⟩
    rw [h.nextPage_eq, List.length_take, List.length_drop, hcount]

end Tethys.Store
