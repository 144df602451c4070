import Tethys.Frontend.Agreement
import Tethys.Frontend.Stream

/-!
# What the user sees of a thread

The reader of `tethys-core/src/thread_session.rs` applies every event to the machine of the thread,
the stream takes the events to a session, and the manager of `packages/state/src/stream.ts` reduces
them there, a frame at a time. `session_shows_thread` puts the two ends together: whatever is lost
with a connection or waits for a frame, the session shows the thread as it was some events ago, and
once everything was delivered and flushed it shows the thread as it is. The first event never comes
through, so it has to be one that is not seen.
-/

namespace Tethys.Frontend

open Schema Lib Core Thread

/-- The machine of a thread after these live events. -/
def machineAfter (m : ThreadMachine) (events : List EventEnvelope) : ThreadMachine :=
  events.foldl (fun m e => m.apply e.seq e.event .live) m

/-- A session after these events. -/
def sessionAfter (clock : Nat → Nat) (store : SessionState) (events : List EventEnvelope) :
    SessionState :=
  events.foldl (fun state e => sessionReducer state e.event (some e.seq) (clock e.seq)) store

/-- An event of the log as both sides take it. -/
def liveEvent (clock : Nat → Nat) (e : EventEnvelope) : LiveEvent := ⟨e.seq, clock e.seq, e.event⟩

/-- The reducer would leave the status and the transcript as they are. -/
def Unseen (clock : Nat → Nat) (store : SessionState) (e : EventEnvelope) : Prop :=
  let next := sessionReducer store e.event (some e.seq) (clock e.seq)
  next.status = store.status ∧ next.historyEntries = store.historyEntries ∧
    next.entries = store.entries ∧ next.liveEntries = store.liveEntries

instance (clock : Nat → Nat) (store : SessionState) (e : EventEnvelope) :
    Decidable (Unseen clock store e) :=
  inferInstanceAs (Decidable (_ ∧ _ ∧ _ ∧ _))

/-- A log whose first event is not seen, and on whose other events the two reducers agree. -/
def Agreeing (clock : Nat → Nat) (m : ThreadMachine) (store : SessionState) :
    List EventEnvelope → Prop
  | [] => True
  | first :: rest => agrees m store first.event = true ∧ Unseen clock store first ∧
    Meets bothStep (fun p event => agrees p.1 p.2 event.body)
      (m.apply first.seq first.event .live, store) (rest.map (liveEvent clock))

instance (clock : Nat → Nat) (m : ThreadMachine) (store : SessionState) :
    (events : List EventEnvelope) → Decidable (Agreeing clock m store events)
  | [] => isTrue trivial
  | first :: rest => inferInstanceAs (Decidable (agrees m store first.event = true ∧
      Unseen clock store first ∧ Meets bothStep (fun p event => agrees p.1 p.2 event.body)
        (m.apply first.seq first.event .live, store) (rest.map (liveEvent clock))))

variable {clock : Nat → Nat} {m : ThreadMachine} {store : SessionState}

theorem Sim.of_unseen {e : EventEnvelope} (h : Sim m store) (ok : agrees m store e.event = true)
    (hunseen : Unseen clock store e) : Sim (m.apply e.seq e.event .live) store := by
  obtain ⟨hstatus, hhistory, hentries, hlive⟩ := hunseen
  have hnext := h.step (liveEvent clock e) ok
  exact ⟨hstatus.symm.trans hnext.status, h.history, h.combined, hlive ▸ hnext.aligned⟩

/-- After any number of the events. -/
theorem Sim.take {rest : List EventEnvelope} (h : Sim m store)
    (ok : Meets bothStep (fun p event => agrees p.1 p.2 event.body) (m, store)
      (rest.map (liveEvent clock))) (n : Nat) :
    Sim (machineAfter m (rest.take n)) (sessionAfter clock store (rest.take n)) := by
  induction rest generalizing m store n with
  | nil => simpa [machineAfter, sessionAfter] using h
  | cons e rest ih =>
    cases n with
    | zero => exact h
    | succ n =>
      obtain ⟨hagrees, hrest⟩ := ok _ rfl
      exact ih (h.step (liveEvent clock e) hagrees) hrest n

/-- The machine is the first event ahead. -/
theorem Sim.of_agreeing {events : List EventEnvelope} (h : Sim m store)
    (ok : Agreeing clock m store events) (n : Nat) :
    Sim (machineAfter m (events.take (n + 1))) (sessionAfter clock store (events.tail.take n)) := by
  cases events with
  | nil => simpa [machineAfter, sessionAfter] using h
  | cons first rest =>
    obtain ⟨hagrees, hunseen, hrest⟩ := ok
    exact (h.of_unseen hagrees hunseen).take hrest n

namespace Ui

open SessionStreamManager

variable {s t : Ui} {id : String}

/-- The machine is what the log makes of it. -/
def Machined (id : String) (s : Ui) : Prop :=
  s.feed.machine = machineAfter (ThreadMachine.new id) s.feed.events

def appendsLive : UiAct → Prop
  | .append _ origin => origin = .live
  | _ => True

instance : DecidablePred appendsLive
  | .append _ origin => inferInstanceAs (Decidable (origin = .live))
  | .connect | .disconnect | .deliver | .flush | .destroy => isTrue trivial

theorem Machined.step {a : UiAct} (h : Machined id s) (hlive : appendsLive a)
    (hstep : s.step clock a = some t) : Machined id t := by
  cases a with
  | append event origin =>
    obtain rfl : origin = .live := hlive
    obtain rfl := Option.some.inj hstep
    simp only [Machined, Feed.append, machineAfter, List.foldl_append, List.foldl_cons,
      List.foldl_nil]
    rw [h, machineAfter]
  | connect =>
    simp only [Ui.step] at hstep
    split_ifs at hstep
    obtain rfl := Option.some.inj hstep
    exact h
  | deliver =>
    simp only [Ui.step] at hstep
    split at hstep
    · obtain rfl := Option.some.inj hstep
      exact h
    · cases hstep
  | disconnect | flush | destroy =>
    obtain rfl := Option.some.inj hstep
    exact h

/-- The applied events are those that follow the first, up to the highest number. -/
theorem Tracks.applied_eq_take (h : Tracks s) (hg : Grounded s) :
    s.manager.applied = s.feed.events.tail.take s.manager.highestSeq := by
  refine eq_of_map_seq_eq h.feed.seqs (fun e he => (hg.applied e he).2)
    (fun e he => List.mem_of_mem_tail (List.mem_of_mem_take he)) ?_
  have hbound := h.bound
  rw [h.applied, List.map_take, List.map_tail, h.feed.seqs]
  cases hlen : s.feed.events.length with
  | zero =>
    have hzero : s.manager.highestSeq = 0 := by omega
    rw [hzero]
    rfl
  | succ n =>
    rw [List.range_eq_range', List.range'_succ, List.tail_cons,
      List.take_range'_of_length_ge (by omega)]

/-- What holds along a run whose events are live and find room. -/
structure Followed (clock : Nat → Nat) (id : String) (store : SessionState) (s : Ui) : Prop where
  grounded : Grounded s
  live : Live s
  machined : Machined id s
  reduced : Reduced clock store s.manager

theorem Followed.new (hstore : store.seq = 0) : Followed clock id store (Ui.new id store) :=
  ⟨.new id store, .new id store hstore, rfl, rfl⟩

theorem Followed.step {a : UiAct} (h : Followed clock id store s)
    (ok : s.Room a ∧ appendsLive a) (hstep : s.step clock a = some t) :
    Followed clock id store t :=
  ⟨h.grounded.step hstep, h.live.step h.grounded ok.1 hstep, h.machined.step ok.2 hstep,
    reduced_step h.reduced hstep⟩

/-- While the manager lives, the session shows the thread as it was after the events that were
applied and the first one; once everything was delivered and flushed, as it is. -/
theorem session_shows_thread (clock : Nat → Nat)
    (id sessionId providerId workspaceId title : String) (branchName : Option String)
    (acts : List UiAct) (s : Ui)
    (hrun : run (Ui.step clock) (Ui.new id
      (createInitialSessionState sessionId providerId workspaceId title branchName)) acts = some s)
    (hmeets : Meets (Ui.step clock) (fun s a => s.Room a ∧ appendsLive a) (Ui.new id
      (createInitialSessionState sessionId providerId workspaceId title branchName)) acts)
    (hagreeing : Agreeing clock (ThreadMachine.new id)
      (createInitialSessionState sessionId providerId workspaceId title branchName) s.feed.events)
    (halive : s.manager.isDestroyed = false) :
    Corresponds (machineAfter (ThreadMachine.new id)
        (s.feed.events.take (s.manager.highestSeq + 1))) s.manager.store ∧
      (s.Drained → Corresponds s.feed.machine s.manager.store) := by
  have hfollowed : Followed clock id
      (createInitialSessionState sessionId providerId workspaceId title branchName) s :=
    (always_of_meets (fun _ h => h) (fun _ _ _ h ok hstep => h.step ok hstep)
      (Followed.new rfl) hmeets).last hrun
  have htracks := hfollowed.live halive
  have hsim := (Sim.init id sessionId providerId workspaceId title branchName).of_agreeing hagreeing
  constructor
  · have hstore := hfollowed.reduced
    rw [Reduced, htracks.applied_eq_take hfollowed.grounded] at hstore
    rw [hstore]
    exact (hsim s.manager.highestSeq).corresponds
  · intro hd
    have hstore := hfollowed.reduced
    rw [Reduced, htracks.applied_eq_tail hfollowed.grounded hd] at hstore
    have hall := hsim s.feed.events.length
    rw [List.take_of_length_le (Nat.le_succ _), List.take_of_length_le (by simp)] at hall
    rw [hstore, hfollowed.machined]
    exact hall.corresponds

section Turn

/-- A turn: the stream drops in the middle of the answer and the session subscribes again. -/
def brokenTurn : List UiAct :=
  [.append (.unknown "session") .live, .connect, .append (.stateChanged ⟨.running⟩) .live,
    .append (.messageChunk ⟨"m", .agent, .text "hel"⟩) .live, .deliver, .deliver, .deliver, .flush,
    .disconnect, .append (.messageChunk ⟨"m", .agent, .text "lo"⟩) .live, .connect, .deliver,
    .deliver, .flush]

/-- The middle of the turn, before the stream is back, and its end. -/
theorem session_shows_brokenTurn :
    (∃ s, run (Ui.step (fun n => n)) (Ui.new "thread-1" freshStore) (brokenTurn.take 10) = some s ∧
      Corresponds (machineAfter (ThreadMachine.new "thread-1") (s.feed.events.take 3))
        s.manager.store) ∧
    ∃ s, run (Ui.step (fun n => n)) (Ui.new "thread-1" freshStore) brokenTurn = some s ∧
      Corresponds s.feed.machine s.manager.store := by
  constructor
  · exact ⟨_, rfl, (session_shows_thread (fun n => n) "thread-1" "thread-1" "p" "w" "New Thread"
      none (brokenTurn.take 10) _ rfl (by decide) (by decide) rfl).1⟩
  · exact ⟨_, rfl, (session_shows_thread (fun n => n) "thread-1" "thread-1" "p" "w" "New Thread"
      none brokenTurn _ rfl (by decide) (by decide) rfl).2 ⟨rfl, rfl, _, rfl, by decide⟩⟩

end Turn

end Ui

end Tethys.Frontend
