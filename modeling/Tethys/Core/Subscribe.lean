import Tethys.Lib.Broadcast
import Tethys.Thread.State
import Mathlib.Algebra.Group.Nat.Defs

/-!
# Thread subscriptions

The event side of a thread in `tethys-core/src/thread_session.rs`: the reader task appends an
event to the log and sends it to the subscribers under one lock, and `subscribe` takes its
receiver and the backlog under the same lock. A stream is the backlog followed by what the
receiver reads, where a `Lagged` answer is skipped.

`gapFree_iff` says exactly when every stream delivers, without gap or duplicate, the events
from its `since_seq` on: no event is appended while a subscriber has a full channel to read,
or while a subscriber waits for later numbers, and the 32-bit counter does not wrap.
-/

namespace Tethys.Core

open Schema Lib Thread

/-- The capacity of a thread's broadcast channel. -/
def capacity : Nat := 1024

/-- A stream that `subscribe` returned: what is left of its backlog, its receiver, and what
it has yielded so far. -/
structure Subscriber where
  sinceSeq : Nat
  backlog : List EventEnvelope
  next : Nat
  yielded : List EventEnvelope
  deriving DecidableEq

/-- The log, the channel and the streams of one thread. `sent` is what the channel took. -/
structure Feed where
  machine : ThreadMachine
  events : List EventEnvelope
  nextSeq : Nat
  sent : List EventEnvelope
  subscribers : List Subscriber
  deriving DecidableEq

/-- One poll of a stream. -/
def Subscriber.poll (sub : Subscriber) (sent : List EventEnvelope) : Subscriber :=
  match sub.backlog with
  | event :: backlog => { sub with backlog := backlog, yielded := sub.yielded ++ [event] }
  | [] =>
    match recv capacity sent sub.next with
    | (.value event, next) => { sub with next := next, yielded := sub.yielded ++ [event] }
    | (.lagged _, next) => { sub with next := next }
    | (.empty, _) => sub

namespace Feed

def new (id : String) : Feed where
  machine := ThreadMachine.new id
  events := []
  nextSeq := 0
  sent := []
  subscribers := []

/-- The reader's section for one event. The channel refuses a message that nobody receives. -/
def append (s : Feed) (event : TurnEventBody) (origin : EventOrigin) : Feed :=
  let machine := s.machine.apply s.nextSeq event origin
  let envelope : EventEnvelope := ⟨machine.id, s.nextSeq, event⟩
  { s with
    machine := machine
    nextSeq := (s.nextSeq + 1) % 2 ^ 32
    events := s.events ++ [envelope]
    sent := if s.subscribers.isEmpty then s.sent else s.sent ++ [envelope] }

def subscribe (s : Feed) (sinceSeq : Nat) : Feed :=
  let backlog := s.events.filter fun event => sinceSeq ≤ event.seq
  { s with subscribers := s.subscribers ++ [⟨sinceSeq, backlog, s.sent.length, []⟩] }

end Feed

/-- The steps: an event of the agent, a new stream, a poll of a stream, a stream dropped. -/
inductive FeedAct where
  | append (event : TurnEventBody) (origin : EventOrigin)
  | subscribe (sinceSeq : Nat)
  | poll (stream : Nat)
  | drop (stream : Nat)
  deriving DecidableEq

namespace Feed

def step (s : Feed) : FeedAct → Option Feed
  | .append event origin => some (s.append event origin)
  | .subscribe sinceSeq => some (s.subscribe sinceSeq)
  | .poll stream =>
    (s.subscribers[stream]?).map fun sub =>
      { s with subscribers := s.subscribers.set stream (sub.poll s.sent) }
  | .drop stream => some { s with subscribers := s.subscribers.eraseIdx stream }

/-- The events a stream is for. -/
def wanted (s : Feed) (sub : Subscriber) : List EventEnvelope :=
  s.events.filter fun event => sub.sinceSeq ≤ event.seq

/-- What a stream has yielded, followed by what it can still yield, is what it is for. -/
def Faithful (s : Feed) (sub : Subscriber) : Prop :=
  sub.yielded ++ (sub.backlog ++ retained capacity s.sent sub.next) = s.wanted sub

/-- The log is numbered upwards, and every stream yields what it is for, one event with each
poll, from where it is to the end. -/
def GapFree (s : Feed) : Prop :=
  s.events.Pairwise (fun a b => a.seq < b.seq) ∧
    ∀ sub ∈ s.subscribers, ∀ n, ((·.poll s.sent)^[n] sub).yielded =
      (s.wanted sub).take (sub.yielded.length + n)

/-- An event is appended only when its number is new, and only while every stream waits for
it and has room for it. -/
def Room (s : Feed) : FeedAct → Prop
  | .append .. => s.events.length < 2 ^ 32 ∧
      ∀ sub ∈ s.subscribers, sub.sinceSeq ≤ s.nextSeq ∧ s.sent.length < sub.next + capacity
  | _ => True

end Feed

/-- A poll moves one event from what a stream can yield to what it has yielded, if any. -/
theorem Subscriber.poll_keeps (sub : Subscriber) {sent : List EventEnvelope}
    (hn : sub.next ≤ sent.length) :
    (sub.poll sent).sinceSeq = sub.sinceSeq ∧ (sub.poll sent).next ≤ sent.length ∧
      (sub.poll sent).yielded ++ ((sub.poll sent).backlog ++
        retained capacity sent (sub.poll sent).next) =
      sub.yielded ++ (sub.backlog ++ retained capacity sent sub.next) := by
  obtain ⟨sinceSeq, backlog, next, yielded⟩ := sub
  cases backlog with
  | cons event backlog => exact ⟨rfl, hn, by simp [Subscriber.poll]⟩
  | nil =>
    rcases recv_cases capacity sent next with ⟨h, -⟩ | ⟨missed, next', h, hle, hsame⟩ |
      ⟨event, h, hle, hcons⟩
    · simp [Subscriber.poll, h, hn]
    · simp [Subscriber.poll, h, hle, hsame]
    · simp [Subscriber.poll, h, hle, hcons]

theorem Subscriber.next_le_poll (sub : Subscriber) (sent : List EventEnvelope) :
    sub.next ≤ (sub.poll sent).next := by
  obtain ⟨sinceSeq, backlog, next, yielded⟩ := sub
  cases backlog with
  | cons event backlog => exact Nat.le_refl _
  | nil =>
    by_cases hlag : next + capacity < sent.length
    · simp only [Subscriber.poll, recv, if_pos hlag]
      omega
    · rcases recv_of_close (Nat.le_of_not_lt hlag) with ⟨h, -⟩ | ⟨event, h, -, -⟩ <;>
        simp [Subscriber.poll, h]

/-- A stream that has lost nothing yields the next event with every poll, if there is one. -/
theorem Subscriber.yielded_polls (sub : Subscriber) {sent : List EventEnvelope}
    (hclose : sent.length ≤ sub.next + capacity) (n : Nat) :
    ((·.poll sent)^[n] sub).yielded =
      sub.yielded ++ (sub.backlog ++ retained capacity sent sub.next).take n := by
  refine yielded_iterate (·.poll sent) Subscriber.yielded
    (fun sub => sub.backlog ++ retained capacity sent sub.next)
    (P := fun sub => sent.length ≤ sub.next + capacity) ?_ hclose n
  rintro ⟨sinceSeq, backlog, next, yielded⟩ hclose
  cases backlog with
  | cons event backlog => exact ⟨hclose, .inr ⟨event, rfl, rfl⟩⟩
  | nil =>
    simp only at hclose
    rcases recv_of_close hclose with ⟨h, hnone⟩ | ⟨event, h, hle, hcons⟩
    · simp [Subscriber.poll, h, hnone, hclose]
    · simp only [Subscriber.poll, h, List.nil_append]
      exact ⟨by omega, .inr ⟨event, hcons, rfl⟩⟩

/-- A stream whose polls yield a list has this list left. -/
theorem Subscriber.keeps_of_polls (sub : Subscriber) {sent l : List EventEnvelope}
    (hn : sub.next ≤ sent.length)
    (h : ∀ n, ((·.poll sent)^[n] sub).yielded = l.take (sub.yielded.length + n)) :
    sub.yielded ++ (sub.backlog ++ retained capacity sent sub.next) = l := by
  refine yielded_append_of_iterate (·.poll sent) Subscriber.yielded
    (fun sub => sub.backlog ++ retained capacity sent sub.next)
    (P := fun sub => sub.next ≤ sent.length)
    (fun sub => sub.backlog.length + (sent.length - sub.next)) (fun sub hn => ?_) hn h
  obtain ⟨-, hnext, hkeeps⟩ := sub.poll_keeps hn
  refine ⟨hnext, hkeeps, ?_⟩
  obtain ⟨sinceSeq, backlog, next, yielded⟩ := sub
  cases backlog with
  | cons event backlog =>
    refine .inr ?_
    simp only [Subscriber.poll, List.length_cons]
    omega
  | nil =>
    by_cases hlag : next + capacity < sent.length
    · simp only [Subscriber.poll, recv, if_pos hlag, List.length_nil]
      omega
    · rcases recv_of_close (Nat.le_of_not_lt hlag) with ⟨h, hnone⟩ | ⟨event, h, hle, -⟩
      · simp [Subscriber.poll, h, hnone]
      · simp only [Subscriber.poll, h, List.length_nil]
        omega

namespace Feed

variable {s t : Feed} {sub : Subscriber} {event : TurnEventBody} {origin : EventOrigin}

/-- The log is numbered from zero, receivers point into the channel and have lost nothing, and
streams are faithful. -/
structure FeedOk (s : Feed) : Prop where
  seqs : s.events.map EventEnvelope.seq = List.range s.events.length
  bound : s.events.length ≤ 2 ^ 32
  nextSeq : s.nextSeq = s.events.length % 2 ^ 32
  cursor : ∀ sub ∈ s.subscribers, sub.next ≤ s.sent.length
  close : ∀ sub ∈ s.subscribers, s.sent.length ≤ sub.next + capacity
  faithful : ∀ sub ∈ s.subscribers, s.Faithful sub

namespace FeedOk

theorem new (id : String) : FeedOk (Feed.new id) :=
  ⟨rfl, Nat.zero_le _, rfl, nofun, nofun, nofun⟩

theorem seq_lt (h : FeedOk s) {e : EventEnvelope} (he : e ∈ s.events) :
    e.seq < s.events.length := by
  have hmem : e.seq ∈ s.events.map EventEnvelope.seq := List.mem_map_of_mem he
  rwa [h.seqs, List.mem_range] at hmem

theorem gapFree (h : FeedOk s) : GapFree s := by
  constructor
  · have hlt := List.pairwise_lt_range (n := s.events.length)
    rwa [← h.seqs, List.pairwise_map] at hlt
  · intro sub hmem n
    rw [sub.yielded_polls (h.close sub hmem), ← h.faithful sub hmem, List.take_length_add_append]

theorem nextSeq_eq (h : FeedOk s) (hlt : s.events.length < 2 ^ 32) :
    s.nextSeq = s.events.length := by
  rw [h.nextSeq, Nat.mod_eq_of_lt hlt]

end FeedOk

theorem wanted_append (s : Feed) (event : TurnEventBody) (origin : EventOrigin)
    (sub : Subscriber) :
    ∃ e, e.seq = s.nextSeq ∧ (s.append event origin).events = s.events ++ [e] ∧
      (s.subscribers ≠ [] → (s.append event origin).sent = s.sent ++ [e]) ∧
      (s.append event origin).wanted sub =
        s.wanted sub ++ if sub.sinceSeq ≤ s.nextSeq then [e] else [] := by
  refine ⟨_, rfl, rfl, ?_, ?_⟩
  · intro hne
    simp [append, List.isEmpty_iff, hne]
  · simp [wanted, append, List.filter_append, List.filter_singleton]

theorem length_sent_append (s : Feed) (event : TurnEventBody) (origin : EventOrigin) :
    s.sent.length ≤ (s.append event origin).sent.length ∧
      (s.append event origin).sent.length ≤ s.sent.length + 1 := by
  unfold append
  split_ifs <;> simp

/-- An event keeps a stream faithful exactly when the stream waits for it and has room. -/
theorem faithful_append_iff (h : FeedOk s) (hlt : s.events.length < 2 ^ 32)
    (hmem : sub ∈ s.subscribers) :
    (s.append event origin).Faithful sub ↔
      sub.sinceSeq ≤ s.nextSeq ∧ s.sent.length < sub.next + capacity := by
  obtain ⟨e, -, -, hsent, hwanted⟩ := wanted_append s event origin sub
  have hold := h.faithful sub hmem
  have hn := h.cursor sub hmem
  rw [Faithful, hsent (List.ne_nil_of_mem hmem), hwanted]
  by_cases hroom : s.sent.length < sub.next + capacity
  · rw [retained_send hn hroom, ← List.append_assoc, ← List.append_assoc, List.append_assoc sub.yielded,
      hold, List.append_cancel_left_eq]
    by_cases hsince : sub.sinceSeq ≤ s.nextSeq <;> simp [hsince, hroom]
  · -- a full channel: the oldest message that the stream has not read is overwritten
    have hfull : sub.next + capacity ≤ s.sent.length := by omega
    refine iff_of_false (fun hnew => ?_) fun hr => hroom hr.2
    have holdlen := congrArg List.length hold
    have hnewlen := congrArg List.length hnew
    have hkept := length_retained_of_full hfull
    have hkept' := length_retained_send_of_full hfull e
    by_cases hsince : sub.sinceSeq ≤ s.nextSeq
    · simp [hsince] at holdlen hnewlen
      omega
    · have hnone : s.wanted sub = [] := by
        refine List.filter_eq_nil_iff.mpr fun e he => ?_
        have := h.seq_lt he
        rw [h.nextSeq_eq hlt] at hsince
        simp
        omega
      have hcap : capacity = 1024 := rfl
      simp only [List.length_append, hkept, hnone, List.length_nil] at holdlen
      omega

theorem FeedOk.append (h : FeedOk s) (hroom : s.Room (.append event origin)) :
    FeedOk (s.append event origin) := by
  obtain ⟨hlt, hsubs⟩ := hroom
  obtain ⟨e, hseq, hevents, -, -⟩ := wanted_append s event origin ⟨0, [], 0, []⟩
  have hlen : (s.append event origin).events.length = s.events.length + 1 := by simp [hevents]
  refine ⟨?_, by omega, ?_, ?_, ?_, ?_⟩
  · rw [hlen, List.range_succ, hevents, List.map_append, h.seqs, List.map_singleton, hseq,
      h.nextSeq_eq hlt]
  · rw [hlen, ← h.nextSeq_eq hlt]
    rfl
  · intro sub hmem
    exact Nat.le_trans (h.cursor sub hmem) (s.length_sent_append event origin).1
  · intro sub hmem
    have := (hsubs sub hmem).2
    have := (s.length_sent_append event origin).2
    change (s.append event origin).sent.length ≤ sub.next + capacity
    omega
  · intro sub hmem
    exact (faithful_append_iff h hlt hmem).mpr (hsubs sub hmem)

theorem FeedOk.subscribe (h : FeedOk s) (sinceSeq : Nat) : FeedOk (s.subscribe sinceSeq) := by
  refine ⟨h.seqs, h.bound, h.nextSeq, ?_, ?_, ?_⟩
  · intro sub hmem
    rcases List.mem_append.mp hmem with hold | hnew
    · exact h.cursor sub hold
    · obtain rfl := List.mem_singleton.mp hnew
      exact Nat.le_refl _
  · intro sub hmem
    rcases List.mem_append.mp hmem with hold | hnew
    · exact h.close sub hold
    · obtain rfl := List.mem_singleton.mp hnew
      exact Nat.le_add_right _ _
  · intro sub hmem
    rcases List.mem_append.mp hmem with hold | hnew
    · exact h.faithful sub hold
    · obtain rfl := List.mem_singleton.mp hnew
      -- the backlog is the whole of it: the receiver starts at the end of the channel
      rw [Faithful, Feed.subscribe, retained_length, List.append_nil, List.nil_append]
      rfl

theorem FeedOk.poll (h : FeedOk s) {stream : Nat} (hget : s.subscribers[stream]? = some sub) :
    FeedOk { s with subscribers := s.subscribers.set stream (sub.poll s.sent) } := by
  have hmem := List.mem_of_getElem? hget
  obtain ⟨hsince, hnext, hkeeps⟩ := sub.poll_keeps (h.cursor sub hmem)
  refine ⟨h.seqs, h.bound, h.nextSeq, ?_, ?_, ?_⟩
  · intro sub' hmem'
    rcases List.mem_or_eq_of_mem_set hmem' with hold | rfl
    · exact h.cursor sub' hold
    · exact hnext
  · intro sub' hmem'
    rcases List.mem_or_eq_of_mem_set hmem' with hold | rfl
    · exact h.close sub' hold
    · have := h.close sub hmem
      have := sub.next_le_poll s.sent
      change s.sent.length ≤ _
      omega
  · intro sub' hmem'
    rcases List.mem_or_eq_of_mem_set hmem' with hold | rfl
    · exact h.faithful sub' hold
    · rw [Faithful, hkeeps, wanted, hsince]
      exact h.faithful sub hmem

theorem FeedOk.step (h : FeedOk s) {a : FeedAct} (hroom : s.Room a) (hstep : s.step a = some t) :
    FeedOk t := by
  cases a with
  | append event origin =>
    obtain rfl := Option.some.inj hstep
    exact h.append hroom
  | subscribe sinceSeq =>
    obtain rfl := Option.some.inj hstep
    exact h.subscribe sinceSeq
  | poll stream =>
    obtain ⟨sub, hget, rfl⟩ := Option.map_eq_some_iff.mp hstep
    exact h.poll hget
  | drop stream =>
    obtain rfl := Option.some.inj hstep
    exact ⟨h.seqs, h.bound, h.nextSeq, fun sub hmem => h.cursor sub (List.mem_of_mem_eraseIdx hmem),
      fun sub hmem => h.close sub (List.mem_of_mem_eraseIdx hmem),
      fun sub hmem => h.faithful sub (List.mem_of_mem_eraseIdx hmem)⟩

/-- An event that finds no room breaks a stream, and one past the counter the numbering. -/
theorem room_of_gapFree (h : FeedOk s) {a : FeedAct} (hstep : s.step a = some t)
    (hgap : GapFree t) : s.Room a := by
  cases a with
  | append event origin =>
    obtain rfl := Option.some.inj hstep
    have hlt : s.events.length < 2 ^ 32 := by
      by_contra hwrap
      have hfull : s.events.length = 2 ^ 32 := by have := h.bound; omega
      obtain ⟨e, hseq, hevents, -, -⟩ := wanted_append s event origin ⟨0, [], 0, []⟩
      have hzero : e.seq = 0 := by rw [hseq, h.nextSeq, hfull, Nat.mod_self]
      obtain ⟨first, hfirst⟩ := List.exists_mem_of_length_pos (l := s.events) (by omega)
      have hup := hgap.1
      rw [hevents, List.pairwise_append] at hup
      have := hup.2.2 first hfirst e (List.mem_singleton.mpr rfl)
      omega
    refine ⟨hlt, fun sub hmem => ?_⟩
    have hnext := Nat.le_trans (h.cursor sub hmem) (s.length_sent_append event origin).1
    have hfaithful : (s.append event origin).Faithful sub :=
      sub.keeps_of_polls hnext (hgap.2 sub hmem)
    exact (faithful_append_iff h hlt hmem).mp hfaithful
  | _ => trivial

/-- Every stream of a thread is without gap and duplicate along a run if and only if every
event of the run finds its number free and every stream waiting and with room. -/
theorem gapFree_iff (id : String) (acts : List FeedAct) :
    Always step GapFree (Feed.new id) acts ↔ Meets step Room (Feed.new id) acts :=
  always_iff_meets (fun _ h => h.gapFree) (fun _ _ _ h hroom hstep => h.step hroom hstep)
    (fun _ _ _ h hstep hgap => room_of_gapFree h hstep hgap) (.new id)

section Lag

/-- The envelopes of `n` equal events. -/
def flood (event : TurnEventBody) (n : Nat) : List EventEnvelope :=
  (List.range n).map fun seq => ⟨"thread-1", seq, event⟩

/-- A subscriber of a fresh thread that sleeps while `n` events arrive. -/
theorem run_flood (n : Nat) (hn : n < 2 ^ 32) :
    ∃ s, run step (Feed.new "thread-1")
        (.subscribe 0 :: List.replicate n (.append (.unknown "") .live)) = some s ∧
      s.machine.id = "thread-1" ∧ s.nextSeq = n ∧ s.events = flood (.unknown "") n ∧
      s.sent = flood (.unknown "") n ∧ s.subscribers = [⟨0, [], 0, []⟩] := by
  induction n with
  | zero => exact ⟨_, rfl, rfl, rfl, rfl, rfl, rfl⟩
  | succ n ih =>
    obtain ⟨s, hrun, hid, hseq, hevents, hsent, hsubs⟩ := ih (by omega)
    refine ⟨s.append (.unknown "") .live, ?_, hid, ?_, ?_, ?_, hsubs⟩
    · rw [List.replicate_succ', ← List.cons_append, run_append, hrun]
      rfl
    · simp [append, hseq]
      omega
    · simp [append, hevents, flood, List.range_succ, hseq, ThreadMachine.apply, hid]
    · simp [append, hsubs, hsent, flood, List.range_succ, hseq, ThreadMachine.apply, hid]

/-- A subscriber that sleeps through 1025 events starts with the second of them. -/
theorem lagging_stream_skips :
    ∃ s, run step (Feed.new "thread-1")
        (.subscribe 0 :: List.replicate 1025 (.append (.unknown "") .live) ++ [.poll 0, .poll 0]) =
          some s ∧
      ∃ sub, s.subscribers = [sub] ∧ sub.yielded = [⟨"thread-1", 1, .unknown ""⟩] ∧
        s.wanted sub = flood (.unknown "") 1025 ∧ ¬ s.Faithful sub ∧ ¬ GapFree s := by
  obtain ⟨s, hrun, -, -, hevents, hsent, hsubs⟩ := run_flood 1025 (by decide)
  have hlen : s.sent.length = 1025 := by simp [hsent, flood]
  have hsecond : s.sent[1]? = some ⟨"thread-1", 1, .unknown ""⟩ := by simp [hsent, flood]
  have hlag : Subscriber.poll ⟨0, [], 0, []⟩ s.sent = ⟨0, [], 1, []⟩ := by
    simp [Subscriber.poll, recv, capacity, hlen]
  have hread : Subscriber.poll ⟨0, [], 1, []⟩ s.sent =
      ⟨0, [], 2, [⟨"thread-1", 1, .unknown ""⟩]⟩ := by
    have hrecv : recv capacity s.sent 1 = (.value ⟨"thread-1", 1, .unknown ""⟩, 2) := by
      rw [recv, if_neg (by rw [hlen]; decide), hsecond]
    simp [Subscriber.poll, hrecv]
  have hwanted : s.wanted ⟨0, [], 2, [⟨"thread-1", 1, .unknown ""⟩]⟩ = flood (.unknown "") 1025 := by
    simp [wanted, hevents]
  have hrange : List.range 1025 = 0 :: (List.range 1024).map Nat.succ := List.range_succ_eq_map
  refine ⟨{ s with subscribers := [⟨0, [], 2, [⟨"thread-1", 1, .unknown ""⟩]⟩] }, ?_, _, rfl, rfl,
    hwanted, fun hfaithful => ?_, fun hgap => ?_⟩
  · rw [run_append, hrun]
    simp [run_cons, step, hsubs, hlag, hread]
  · have hhead := congrArg List.head? (hfaithful.trans hwanted)
    simp [flood, hrange] at hhead
  · have hfirst := hgap.2 _ (List.mem_singleton.mpr rfl) 0
    change [_] = (s.wanted _).take 1 at hfirst
    simp [hwanted, flood, hrange] at hfirst

end Lag

end Feed

end Tethys.Core
