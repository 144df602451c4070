import Mathlib.Data.String.Basic
import Tethys.Lib.Broadcast
import Tethys.Lib.OrdMap
import Tethys.Lib.Runs
import Tethys.Core.Permissions

/-!
# Session event channels

The event side of a connection in `tethys-acp/src/client.rs`. The handlers of the SDK call
`emit` for the events of a session; until somebody subscribes to the session its events are
buffered, and the first `subscribe` drains the buffer into a broadcast channel of 1024
messages. `emit` takes two locks one after the other, so that it is two steps here.

`delivered_iff` says exactly when the first subscriber of every session gets every event once
and in order: at most 1024 events are buffered when it subscribes, and no event is emitted
while it has 1024 unread.
-/

namespace Tethys.Acp

open Schema Lib
open Core (ConnectionEvent)

/-- The capacity of a session's broadcast channel. -/
def channelCapacity : Nat := 1024

/-- A stream that `events` returned: its position in the channel and what it has yielded.
`first` tells the stream that found the buffer. -/
structure EventStream where
  first : Bool
  next : Nat
  yielded : List ConnectionEvent
  deriving DecidableEq

/-- The channel of a session: the messages it took and its receivers, the buffer, and whether
the buffer was drained. `emitted` is the history of `emit`, which the code does not keep. -/
structure SessionChannel where
  sent : List ConnectionEvent
  receivers : List EventStream
  buffer : List ConnectionEvent
  taken : Bool
  emitted : List ConnectionEvent
  deriving DecidableEq

namespace SessionChannel

def new : SessionChannel := ⟨[], [], [], false, []⟩

/-- A send that nobody receives is refused, and the refusal ignored. -/
def send (c : SessionChannel) (event : ConnectionEvent) : SessionChannel :=
  { c with sent := if c.receivers.isEmpty then c.sent else c.sent ++ [event] }

/-- The part of `emit` under the lock of the sessions. -/
def emit (c : SessionChannel) (event : ConnectionEvent) : SessionChannel :=
  let c := { c with emitted := c.emitted ++ [event] }
  if c.taken then c.send event else { c with buffer := c.buffer ++ [event] }

def subscribe (c : SessionChannel) : SessionChannel :=
  let c' := { c with receivers := c.receivers ++ [⟨!c.taken, c.sent.length, []⟩] }
  if c.taken then c'
  else { c'.buffer.foldl send c' with buffer := [], taken := true }

end SessionChannel

/-- One turn of the loop in `events`. A lagging receiver is only reported to the log. -/
def EventStream.poll (stream : EventStream) (sent : List ConnectionEvent) : EventStream :=
  match recv channelCapacity sent stream.next with
  | (.value event, next) => { stream with next := next, yielded := stream.yielded ++ [event] }
  | (.lagged _, next) => { stream with next := next }
  | (.empty, _) => stream

/-- The shared state of the handlers. `emitting` are the calls of `emit` that have read the
replay flag and not yet taken the lock of the sessions. -/
structure Shared where
  sessions : OrdMap String SessionChannel
  replaying : OrdMap String Bool
  emitting : List (String × ConnectionEvent)
  deriving DecidableEq

/-- The steps: the two halves of `emit`, `register`, `set_replaying`, `events`, and a poll and
the drop of a stream that `events` returned. -/
inductive SharedAct where
  | emit (session : String) (body : TurnEventBody)
  | publish (call : Nat)
  | register (session : String)
  | setReplaying (session : String) (replaying : Bool)
  | subscribe (session : String)
  | poll (session : String) (stream : Nat)
  | drop (session : String) (stream : Nat)
  deriving DecidableEq

namespace Shared

def new : Shared := ⟨.empty, .empty, []⟩

/-- The channel of a session, made at its first use. -/
def channel (s : Shared) (session : String) : SessionChannel :=
  (s.sessions.get session).getD .new

def update (s : Shared) (session : String) (f : SessionChannel → SessionChannel) : Shared :=
  { s with sessions := s.sessions.insert session (f (s.channel session)) }

def step (s : Shared) : SharedAct → Option Shared
  | .emit session body =>
    let replayed := (s.replaying.get session).getD false
    some { s with emitting := s.emitting ++ [(session, ⟨body, replayed⟩)] }
  | .publish call =>
    (s.emitting[call]?).map fun (session, event) =>
      { s with emitting := s.emitting.eraseIdx call }.update session (·.emit event)
  | .register session => some (s.update session id)
  | .setReplaying session replaying =>
    some { s with replaying := s.replaying.insert session replaying }
  | .subscribe session => some (s.update session .subscribe)
  | .poll session stream =>
    ((s.channel session).receivers[stream]?).map fun r =>
      s.update session fun c => { c with receivers := c.receivers.set stream (r.poll c.sent) }
  | .drop session stream =>
    some (s.update session fun c => { c with receivers := c.receivers.eraseIdx stream })

end Shared

namespace SessionChannel

/-- What was emitted is in the buffer while there is no subscriber; then the first one yields
it in this order, one event with each poll, from where it is to the end. -/
def Delivers (c : SessionChannel) : Prop :=
  (c.taken = false → c.buffer = c.emitted) ∧
    ∀ r ∈ c.receivers, r.first = true → ∀ n,
      ((·.poll c.sent)^[n] r).yielded = c.emitted.take (r.yielded.length + n)

/-- What the first subscriber has yielded, followed by what it can still read, was emitted. -/
def Owes (c : SessionChannel) : Prop :=
  ∀ r ∈ c.receivers, r.first = true →
    r.yielded ++ retained channelCapacity c.sent r.next = c.emitted

/-- The first subscriber, as long as it listens, has room for one more event. -/
def HasRoom (c : SessionChannel) : Prop :=
  ∀ r ∈ c.receivers, r.first = true → c.sent.length < r.next + channelCapacity

/-- The channel is untouched until the buffer was drained. Receivers point into it, and the
first has lost nothing. -/
structure ChannelOk (c : SessionChannel) : Prop where
  fresh : c.taken = false → c.sent = [] ∧ c.receivers = []
  drained : c.taken = true → c.buffer = []
  buffered : c.taken = false → c.buffer = c.emitted
  cursor : ∀ r ∈ c.receivers, r.next ≤ c.sent.length
  close : ∀ r ∈ c.receivers, r.first = true → c.sent.length ≤ r.next + channelCapacity
  owes : c.Owes

variable {c : SessionChannel} {event : ConnectionEvent} {stream : Nat} {r : EventStream}

/-- A poll moves one event from what a stream can read to what it has yielded, if any. -/
theorem poll_keeps (r : EventStream) {sent : List ConnectionEvent} (hn : r.next ≤ sent.length) :
    (r.poll sent).first = r.first ∧ (r.poll sent).next ≤ sent.length ∧
      (r.poll sent).yielded ++ retained channelCapacity sent (r.poll sent).next =
        r.yielded ++ retained channelCapacity sent r.next := by
  rcases recv_cases channelCapacity sent r.next with ⟨h, -⟩ | ⟨missed, next', h, hle, hsame⟩ |
    ⟨event, h, hle, hcons⟩
  · simp [EventStream.poll, h, hn]
  · simp [EventStream.poll, h, hle, hsame]
  · simp [EventStream.poll, h, hle, hcons]

/-- A poll finds nothing left or moves on. -/
theorem poll_moves (r : EventStream) (sent : List ConnectionEvent) :
    retained channelCapacity sent r.next = [] ∧ r.poll sent = r ∨
      r.next < (r.poll sent).next ∧ r.next < sent.length := by
  by_cases hlag : r.next + channelCapacity < sent.length
  · refine .inr ?_
    simp only [EventStream.poll, recv, if_pos hlag]
    omega
  · rcases recv_of_close (Nat.le_of_not_lt hlag) with ⟨h, hnone⟩ | ⟨event, h, hle, -⟩
    · exact .inl ⟨hnone, by simp [EventStream.poll, h]⟩
    · exact .inr ⟨by simp [EventStream.poll, h], hle⟩

/-- A stream that has lost nothing yields the next event with every poll, if there is one. -/
theorem yielded_polls {sent : List ConnectionEvent}
    (hclose : sent.length ≤ r.next + channelCapacity) (n : Nat) :
    ((·.poll sent)^[n] r).yielded = r.yielded ++ (retained channelCapacity sent r.next).take n := by
  refine yielded_iterate (·.poll sent) EventStream.yielded
    (fun r => retained channelCapacity sent r.next)
    (P := fun r => sent.length ≤ r.next + channelCapacity) (fun r hclose => ?_) hclose n
  rcases recv_of_close hclose with ⟨h, hnone⟩ | ⟨event, h, hle, hcons⟩
  · simp [EventStream.poll, h, hnone, hclose]
  · simp only [EventStream.poll, h]
    exact ⟨by omega, .inr ⟨event, hcons, rfl⟩⟩

theorem ChannelOk.delivers (h : ChannelOk c) : c.Delivers := by
  refine ⟨h.buffered, fun r hr hfirst n => ?_⟩
  rw [yielded_polls (h.close r hr hfirst), ← h.owes r hr hfirst, List.take_length_add_append]

/-- A first subscriber whose polls yield what was emitted has the rest of it left. -/
theorem Delivers.owes (hdel : c.Delivers) (hcursor : ∀ r ∈ c.receivers, r.next ≤ c.sent.length) :
    c.Owes := by
  intro r hr hfirst
  refine yielded_append_of_iterate (·.poll c.sent) EventStream.yielded
    (fun r => retained channelCapacity c.sent r.next) (P := fun r => r.next ≤ c.sent.length)
    (fun r => c.sent.length - r.next) (fun r hn => ?_) (hcursor r hr) (hdel.2 r hr hfirst)
  obtain ⟨-, hnext, hkeeps⟩ := poll_keeps r hn
  refine ⟨hnext, hkeeps, (poll_moves r c.sent).imp_right fun hmoves => ?_⟩
  omega

theorem ChannelOk.new : ChannelOk .new :=
  ⟨fun _ => ⟨rfl, rfl⟩, fun _ => rfl, fun _ => rfl, nofun, nofun, nofun⟩

theorem cursor_emit (event : ConnectionEvent) (hcursor : ∀ r ∈ c.receivers, r.next ≤ c.sent.length) :
    ∀ r ∈ (c.emit event).receivers, r.next ≤ (c.emit event).sent.length := by
  obtain ⟨sent, receivers, buffer, taken, emitted⟩ := c
  intro r hr
  cases taken with
  | false => exact hcursor r hr
  | true =>
    have hn : r.next ≤ sent.length := hcursor r hr
    change r.next ≤ (if receivers.isEmpty then sent else sent ++ [event]).length
    split_ifs
    · exact hn
    · simp
      omega

/-- After an event the first subscriber can get everything exactly when it had room. -/
theorem owes_emit_iff (h : ChannelOk c) : (c.emit event).Owes ↔ c.HasRoom := by
  obtain ⟨sent, receivers, buffer, taken, emitted⟩ := c
  cases taken with
  | false =>
    obtain ⟨rfl, rfl⟩ := h.fresh rfl
    simp [emit, Owes, HasRoom]
  | true =>
    cases receivers with
    | nil => simp [emit, send, Owes, HasRoom]
    | cons r₀ rs =>
      simp only [emit, send, Owes, HasRoom, List.isEmpty_cons, if_true, Bool.false_eq_true, if_false]
      refine forall₃_congr fun r hr hfirst => ?_
      have hold := h.owes r hr hfirst
      have hn := h.cursor r hr
      simp only at hold hn
      by_cases hroom : sent.length < r.next + channelCapacity
      · rw [retained_send hn hroom, ← List.append_assoc, hold]
        simp [hroom]
      · -- the oldest unread event is overwritten, so one event too few is left
        refine iff_of_false (fun hnew => ?_) hroom
        have holdlen := congrArg List.length hold
        have hnewlen := congrArg List.length hnew
        rw [List.length_append, length_retained_of_full (by omega)] at holdlen
        rw [List.length_append, length_retained_send_of_full (by omega), List.length_append] at hnewlen
        simp at hnewlen
        omega

theorem ChannelOk.emit (h : ChannelOk c) (hroom : c.HasRoom) : ChannelOk (c.emit event) := by
  have howes : (c.emit event).Owes := (owes_emit_iff h).mpr hroom
  have hcursor := cursor_emit event h.cursor
  obtain ⟨sent, receivers, buffer, taken, emitted⟩ := c
  cases taken with
  | false =>
    obtain rfl : buffer = emitted := h.buffered rfl
    exact ⟨h.fresh, nofun, fun _ => rfl, hcursor, h.close, howes⟩
  | true =>
    refine ⟨nofun, h.drained, nofun, hcursor, fun r hr hfirst => ?_, howes⟩
    have hlt : sent.length < r.next + channelCapacity := hroom r hr hfirst
    change (if receivers.isEmpty then sent else sent ++ [event]).length ≤ _
    split_ifs
    · omega
    · simp
      omega

/-- Draining sends the whole buffer: there is a receiver. -/
theorem foldl_send (buffer : List ConnectionEvent) (hne : c.receivers ≠ []) :
    buffer.foldl send c = { c with sent := c.sent ++ buffer } := by
  induction buffer generalizing c with
  | nil => simp
  | cons event buffer ih =>
    have hsend : c.send event = { c with sent := c.sent ++ [event] } := by
      simp [send, List.isEmpty_iff, hne]
    rw [List.foldl_cons, hsend, ih (by exact hne)]
    simp

/-- The first subscription: the channel takes the buffer, and its only receiver starts before
it. -/
theorem subscribe_fresh (h : ChannelOk c) (ht : c.taken = false) :
    c.subscribe = ⟨c.emitted, [⟨true, 0, []⟩], [], true, c.emitted⟩ := by
  obtain ⟨sent, receivers, buffer, taken, emitted⟩ := c
  obtain rfl : taken = false := ht
  obtain ⟨rfl, rfl⟩ := h.fresh rfl
  obtain rfl : buffer = emitted := h.buffered rfl
  simp [subscribe, foldl_send]

theorem cursor_subscribe (h : ChannelOk c) :
    ∀ r ∈ c.subscribe.receivers, r.next ≤ c.subscribe.sent.length := by
  intro r hr
  cases ht : c.taken with
  | false =>
    rw [subscribe_fresh h ht] at hr ⊢
    simp [List.mem_singleton.mp hr]
  | true =>
    simp only [SessionChannel.subscribe, ht, if_true] at hr ⊢
    rcases List.mem_append.mp hr with hold | hnew
    · exact h.cursor r hold
    · obtain rfl := List.mem_singleton.mp hnew
      exact Nat.le_refl _

theorem owes_subscribe_iff (h : ChannelOk c) :
    c.subscribe.Owes ↔ c.buffer.length ≤ channelCapacity := by
  cases ht : c.taken with
  | false =>
    rw [subscribe_fresh h ht, h.buffered ht]
    have hlen : (retained channelCapacity c.emitted 0).length =
        c.emitted.length - (c.emitted.length - channelCapacity) := by
      simp [retained]
    refine ⟨fun howes => ?_, fun hle r hr _ => ?_⟩
    · have hkept := congrArg List.length (howes _ (List.mem_singleton.mpr rfl) rfl)
      simp only [List.nil_append, hlen] at hkept
      omega
    · obtain rfl := List.mem_singleton.mp hr
      have hall : retained channelCapacity c.emitted 0 = c.emitted.drop 0 :=
        retained_eq_drop (by omega)
      simpa using hall
  | true =>
    refine iff_of_true (fun r hr hfirst => ?_) (by simp [h.drained ht])
    simp only [subscribe, ht, if_true, Bool.not_true] at hr ⊢
    rcases List.mem_append.mp hr with hold | hnew
    · exact h.owes r hold hfirst
    · -- a later subscriber is not the first
      obtain rfl := List.mem_singleton.mp hnew
      cases hfirst

theorem ChannelOk.subscribe (h : ChannelOk c) (hle : c.buffer.length ≤ channelCapacity) :
    ChannelOk c.subscribe := by
  have howes := (owes_subscribe_iff h).mpr hle
  have hcursor := cursor_subscribe h
  cases ht : c.taken with
  | false =>
    rw [h.buffered ht] at hle
    rw [subscribe_fresh h ht] at howes hcursor ⊢
    refine ⟨nofun, fun _ => rfl, nofun, hcursor, fun r hr _ => ?_, howes⟩
    simp [List.mem_singleton.mp hr, hle]
  | true =>
    simp only [SessionChannel.subscribe, ht, if_true] at howes hcursor ⊢
    refine ⟨by simp, fun _ => h.drained ht, by simp, hcursor, fun r hr hfirst => ?_, howes⟩
    rcases List.mem_append.mp hr with hold | hnew
    · exact h.close r hold hfirst
    · obtain rfl := List.mem_singleton.mp hnew
      exact Nat.le_add_right _ _

theorem ChannelOk.poll (h : ChannelOk c) (hget : c.receivers[stream]? = some r) :
    ChannelOk { c with receivers := c.receivers.set stream (r.poll c.sent) } := by
  have hmem := List.mem_of_getElem? hget
  obtain ⟨hfirst, hnext, hkeeps⟩ := poll_keeps r (h.cursor r hmem)
  refine ⟨fun ht => ?_, h.drained, h.buffered, fun r' hr' => ?_, fun r' hr' hfirst' => ?_,
    fun r' hr' hfirst' => ?_⟩
  · rw [(h.fresh ht).2] at hmem
    cases hmem
  · rcases List.mem_or_eq_of_mem_set hr' with hold | rfl
    · exact h.cursor r' hold
    · exact hnext
  · rcases List.mem_or_eq_of_mem_set hr' with hold | rfl
    · exact h.close r' hold hfirst'
    · have := h.close r hmem (hfirst ▸ hfirst')
      change c.sent.length ≤ _
      rcases poll_moves r c.sent with ⟨-, hsame⟩ | ⟨hmoves, -⟩
      · rwa [hsame]
      · omega
  · rcases List.mem_or_eq_of_mem_set hr' with hold | rfl
    · exact h.owes r' hold hfirst'
    · exact hkeeps.trans (h.owes r hmem (hfirst ▸ hfirst'))

theorem ChannelOk.drop (h : ChannelOk c) (stream : Nat) :
    ChannelOk { c with receivers := c.receivers.eraseIdx stream } := by
  refine ⟨fun ht => ⟨(h.fresh ht).1, by simp [(h.fresh ht).2]⟩, h.drained, h.buffered,
    fun r hr => ?_, fun r hr => ?_, fun r hr => ?_⟩
  · exact h.cursor r (List.mem_of_mem_eraseIdx hr)
  · exact h.close r (List.mem_of_mem_eraseIdx hr)
  · exact h.owes r (List.mem_of_mem_eraseIdx hr)

end SessionChannel

namespace Shared

open SessionChannel

variable {s t : Shared} {a : SharedAct}

/-- In every session the first subscriber gets what was emitted: nothing of it is lost, repeated
or out of order. -/
def Delivered (s : Shared) : Prop := ∀ session, (s.channel session).Delivers

/-- No step overruns a first subscriber: its buffer fits into the channel when it subscribes,
and no event is published while its channel is full. -/
def Room (s : Shared) : SharedAct → Prop
  | .publish call =>
    ∀ session event, s.emitting[call]? = some (session, event) → (s.channel session).HasRoom
  | .subscribe session => (s.channel session).buffer.length ≤ channelCapacity
  | _ => True

@[simp] theorem channel_update (s : Shared) (session x : String)
    (f : SessionChannel → SessionChannel) :
    (s.update session f).channel x = if x = session then f (s.channel session) else s.channel x := by
  simp only [update, channel, OrdMap.get_insert]
  split_ifs <;> rfl

/-- The sections of the lock of the sessions act on one channel. -/
theorem forall_channel_update {P : SessionChannel → Prop} {session : String}
    {f : SessionChannel → SessionChannel} (h : ∀ x, P (s.channel x)) :
    (∀ x, P ((s.update session f).channel x)) ↔ P (f (s.channel session)) := by
  refine ⟨fun hall => by simpa using hall session, fun hone x => ?_⟩
  rw [channel_update]
  split_ifs
  · exact hone
  · exact h x

theorem channelOk_step (h : ∀ x, ChannelOk (s.channel x)) (hroom : s.Room a)
    (hstep : s.step a = some t) : ∀ x, ChannelOk (t.channel x) := by
  cases a with
  | emit session body =>
    obtain rfl := Option.some.inj hstep
    exact h
  | publish call =>
    obtain ⟨⟨session, event⟩, hget, rfl⟩ := Option.map_eq_some_iff.mp hstep
    exact (forall_channel_update (by exact h)).mpr ((h session).emit (hroom session event hget))
  | register session =>
    obtain rfl := Option.some.inj hstep
    exact (forall_channel_update h).mpr (h session)
  | setReplaying session replaying =>
    obtain rfl := Option.some.inj hstep
    exact h
  | subscribe session =>
    obtain rfl := Option.some.inj hstep
    exact (forall_channel_update h).mpr ((h session).subscribe hroom)
  | poll session stream =>
    obtain ⟨r, hget, rfl⟩ := Option.map_eq_some_iff.mp hstep
    exact (forall_channel_update h).mpr ((h session).poll hget)
  | drop session stream =>
    obtain rfl := Option.some.inj hstep
    exact (forall_channel_update h).mpr ((h session).drop stream)

/-- A step that finds no room loses an event of its session. -/
theorem room_of_delivered (h : ∀ x, ChannelOk (s.channel x)) (hstep : s.step a = some t)
    (hdel : t.Delivered) : s.Room a := by
  cases a with
  | publish call =>
    intro session event hget
    simp only [step, hget, Option.map_some, Option.some.injEq] at hstep
    subst hstep
    have hone := (forall_channel_update (fun x => by exact (h x).delivers)).mp hdel
    exact (owes_emit_iff (h session)).mp (hone.owes (cursor_emit event (h session).cursor))
  | subscribe session =>
    obtain rfl := Option.some.inj hstep
    have hone := (forall_channel_update fun x => (h x).delivers).mp hdel
    exact (owes_subscribe_iff (h session)).mp (hone.owes (cursor_subscribe (h session)))
  | _ => trivial

/-- The first subscriber of every session gets every event of the session once and in order,
along a run, if and only if no step of the run overruns it. -/
theorem delivered_iff (acts : List SharedAct) :
    Always step Delivered Shared.new acts ↔ Meets step Room Shared.new acts :=
  always_iff_meets (fun _ h x => (h x).delivers) (fun _ _ _ h hroom hstep => channelOk_step h hroom hstep)
    (fun _ _ _ h hstep hdel => room_of_delivered h hstep hdel) fun _ => ChannelOk.new

section Overrun

/-- The replay of a session: `n` events before anybody listens. -/
def replay (n : Nat) : List SharedAct :=
  (List.replicate n [.emit "session-1" (.unknown ""), .publish 0]).flatten

theorem run_replay (n : Nat) :
    ∃ s, run step Shared.new (replay n) = some s ∧ s.replaying = .empty ∧ s.emitting = [] ∧
      s.channel "session-1" = { SessionChannel.new with
        buffer := List.replicate n ⟨.unknown "", false⟩
        emitted := List.replicate n ⟨.unknown "", false⟩ } := by
  induction n with
  | zero => exact ⟨_, rfl, rfl, rfl, rfl⟩
  | succ n ih =>
    obtain ⟨s, hrun, hflag, hcalls, hchannel⟩ := ih
    refine ⟨s.update "session-1" (·.emit ⟨.unknown "", false⟩), ?_, hflag, hcalls, ?_⟩
    · rw [replay, List.replicate_succ', List.flatten_append, ← replay, run_append, hrun]
      simp [run_cons, step, hflag, hcalls, update, channel]
    · simp [hchannel, SessionChannel.emit, SessionChannel.new, List.replicate_succ']

/-- After 1025 replayed events the first subscriber gets the last 1024, and nobody else gets the
first one. -/
theorem long_replay_loses_an_event :
    ∃ s, run step Shared.new (replay 1025 ++ [.subscribe "session-1"]) = some s ∧
      (∃ r, (s.channel "session-1").receivers = [r] ∧ r.first = true ∧
        (s.channel "session-1").emitted.length = 1025 ∧
        ∀ n, ((·.poll (s.channel "session-1").sent)^[n + 1] r).yielded =
          ((s.channel "session-1").emitted.drop 1).take n) ∧
      ¬ Always step Delivered Shared.new (replay 1025 ++ [.subscribe "session-1"]) := by
  obtain ⟨s, hrun, -, -, hchannel⟩ := run_replay 1025
  have hok : ChannelOk (s.channel "session-1") := by
    rw [hchannel]
    exact ⟨fun _ => ⟨rfl, rfl⟩, nofun, fun _ => rfl, nofun, nofun, nofun⟩
  have hsub := subscribe_fresh hok (by rw [hchannel]; rfl)
  have hlast : run step Shared.new (replay 1025 ++ [.subscribe "session-1"]) =
      some (s.update "session-1" SessionChannel.subscribe) := by
    rw [run_append, hrun]
    rfl
  have hlen : (s.channel "session-1").emitted.length = 1025 := by
    rw [hchannel]
    exact List.length_replicate
  have hpolls : ∀ n, ((fun r : EventStream => r.poll (s.channel "session-1").emitted)^[n + 1]
      ⟨true, 0, []⟩).yielded = ((s.channel "session-1").emitted.drop 1).take n := by
    intro n
    -- the first poll only skips the event that was overwritten
    have hlag : EventStream.poll ⟨true, 0, []⟩ (s.channel "session-1").emitted = ⟨true, 1, []⟩ := by
      simp [EventStream.poll, recv, channelCapacity, hlen]
    have hclose : (s.channel "session-1").emitted.length ≤ 1 + channelCapacity := by
      rw [hlen]
      decide
    rw [Function.iterate_succ_apply, hlag, yielded_polls hclose, retained_eq_drop hclose]
    rfl
  refine ⟨_, hlast, ⟨⟨true, 0, []⟩, ?_⟩, fun halways => ?_⟩
  · rw [channel_update, if_pos rfl, hsub]
    exact ⟨rfl, rfl, hlen, hpolls⟩
  · have hdel := halways.last hlast "session-1"
    rw [channel_update, if_pos rfl, hsub] at hdel
    have hall := congrArg List.length (hdel.2 _ (List.mem_singleton.mpr rfl) rfl (1024 + 1))
    rw [hpolls] at hall
    simp [hlen] at hall

end Overrun

end Shared

end Tethys.Acp
