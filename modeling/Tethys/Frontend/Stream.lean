import Mathlib.Data.List.Nodup
import Tethys.Lib.Runs
import Tethys.Core.Subscribe
import Tethys.Frontend.Reducers

/-!
# The stream of a session

`SessionStreamManager` of `packages/state/src/stream.ts`, fed by a subscription to the thread
(`subscribe` in `tethys-core/src/thread_session.rs`). The manager queues what it is given,
applies the queue to the reducer once per frame, and drops every number that is not above the
highest it has applied. That highest number starts at zero, and so does the numbering of the
events: the manager takes the first event for one it has seen.

`applied_eq_iff` says what is left: when everything has been delivered and flushed, the
manager has applied the events from the second on, each once and in order.
-/

namespace Tethys.Frontend

open Schema Lib Core Thread

/-- `frame` is whether a flush is scheduled. `applied` is the history of the calls of the
reducer, which the code does not keep. -/
structure SessionStreamManager where
  store : SessionState
  pendingQueue : List EventEnvelope
  highestSeq : Nat
  frame : Bool
  isDestroyed : Bool
  applied : List EventEnvelope
  deriving DecidableEq

namespace SessionStreamManager

/-- The initial number defaults to zero in the source. -/
def new (store : SessionState) (initialSeq : Nat) : SessionStreamManager where
  store := store
  pendingQueue := []
  highestSeq := max initialSeq store.seq
  frame := false
  isDestroyed := false
  applied := []

def getSinceSeq (m : SessionStreamManager) : Nat := m.highestSeq

def pushEvent (m : SessionStreamManager) (envelope : EventEnvelope) : SessionStreamManager × Bool :=
  if m.isDestroyed then (m, false)
  else if envelope.seq ≤ m.highestSeq then (m, false)
  else ({ m with pendingQueue := m.pendingQueue ++ [envelope], frame := true }, true)

/-- The body of the loop in `pushEvents`. -/
def pushCounted (m : SessionStreamManager × Nat) (envelope : EventEnvelope) :
    SessionStreamManager × Nat :=
  match m.1.pushEvent envelope with
  | (m', true) => (m', m.2 + 1)
  | (m', false) => (m', m.2)

/-- The manager and the number of accepted envelopes. -/
def pushEvents (m : SessionStreamManager) (envelopes : List EventEnvelope) :
    SessionStreamManager × Nat :=
  envelopes.foldl pushCounted (m, 0)

/-- The body of the loop in `flush`. `clock` is the time at which a number is reduced. -/
def applyEvent (clock : Nat → Nat) (m : SessionStreamManager) (envelope : EventEnvelope) :
    SessionStreamManager :=
  if m.highestSeq < envelope.seq then
    { m with
      store := sessionReducer m.store envelope.event (some envelope.seq) (clock envelope.seq)
      highestSeq := envelope.seq
      applied := m.applied ++ [envelope] }
  else m

def flush (clock : Nat → Nat) (m : SessionStreamManager) : SessionStreamManager :=
  let m := { m with frame := false }
  if m.pendingQueue.isEmpty || m.isDestroyed then m
  else m.pendingQueue.foldl (applyEvent clock) { m with pendingQueue := [] }

def destroy (m : SessionStreamManager) : SessionStreamManager :=
  { m with isDestroyed := true, frame := false, pendingQueue := [] }

end SessionStreamManager

/-- A thread and the manager that follows it. The stream of the manager, while it is
connected, is the subscriber of the thread. -/
structure Ui where
  feed : Feed
  manager : SessionStreamManager
  deriving DecidableEq

/-- The steps: an event of the agent, a subscription and its end, an envelope (or a report of
lag) from the stream, a frame, and the end of the manager. -/
inductive UiAct where
  | append (event : TurnEventBody) (origin : EventOrigin)
  | connect
  | disconnect
  | deliver
  | flush
  | destroy
  deriving DecidableEq

namespace Ui

def new (id : String) (store : SessionState) : Ui where
  feed := Feed.new id
  manager := SessionStreamManager.new store 0

def step (clock : Nat → Nat) (s : Ui) : UiAct → Option Ui
  | .append event origin => some { s with feed := s.feed.append event origin }
  | .connect =>
    if s.feed.subscribers = [] then
      some { s with feed := s.feed.subscribe s.manager.getSinceSeq }
    else none
  | .disconnect => some { s with feed := { s.feed with subscribers := [] } }
  | .deliver =>
    match s.feed.subscribers with
    | [sub] =>
      let sub' := sub.poll s.feed.sent
      let envelopes := sub'.yielded.drop sub.yielded.length
      some ⟨{ s.feed with subscribers := [sub'] }, (s.manager.pushEvents envelopes).1⟩
    | _ => none
  | .flush => some { s with manager := s.manager.flush clock }
  | .destroy => some { s with manager := s.manager.destroy }

/-- What a stream has still to yield. -/
def pending (s : Ui) (sub : Subscriber) : List EventEnvelope :=
  sub.backlog ++ retained capacity s.feed.sent sub.next

/-- The manager is alive and connected, and everything was delivered and flushed. -/
def Drained (s : Ui) : Prop :=
  s.manager.isDestroyed = false ∧ s.manager.pendingQueue = [] ∧
    ∃ sub, s.feed.subscribers = [sub] ∧ s.pending sub = []

/-- An event finds its number free and the channel of the manager not full. -/
def Room (s : Ui) : UiAct → Prop
  | .append .. => s.feed.events.length < 2 ^ 32 ∧
      ∀ sub ∈ s.feed.subscribers, s.feed.sent.length < sub.next + capacity
  | _ => True

instance (s : Ui) : (a : UiAct) → Decidable (s.Room a)
  | .append .. => inferInstanceAs (Decidable (s.feed.events.length < 2 ^ 32 ∧
      ∀ sub ∈ s.feed.subscribers, s.feed.sent.length < sub.next + capacity))
  | .connect | .disconnect | .deliver | .flush | .destroy => isTrue trivial

end Ui

/-! ## Numbers without a jump -/

section Gapless

/-- No number of the list is more than one above the highest so far. -/
def Gapless : Nat → List Nat → Prop
  | _, [] => True
  | high, n :: l => n ≤ high + 1 ∧ Gapless (max high n) l

/-- The highest number at the end of the list. -/
def top (high : Nat) (l : List Nat) : Nat := l.foldl max high

theorem top_cons (high n : Nat) (l : List Nat) : top high (n :: l) = top (max high n) l := rfl

theorem top_singleton (high n : Nat) : top high [n] = max high n := rfl

theorem top_append (high : Nat) (l l' : List Nat) : top high (l ++ l') = top (top high l) l' :=
  List.foldl_append

theorem le_top (high : Nat) (l : List Nat) : high ≤ top high l := by
  induction l generalizing high with
  | nil => exact Nat.le_refl _
  | cons n l ih =>
    have := ih (max high n)
    rw [top_cons]
    omega

theorem top_le {high bound : Nat} {l : List Nat} (hb : high ≤ bound) (hl : ∀ n ∈ l, n ≤ bound) :
    top high l ≤ bound := by
  induction l generalizing high with
  | nil => exact hb
  | cons n l ih =>
    obtain ⟨hn, hl⟩ := List.forall_mem_cons.mp hl
    exact ih (by omega) hl

theorem gapless_append {high : Nat} {l l' : List Nat} :
    Gapless high (l ++ l') ↔ Gapless high l ∧ Gapless (top high l) l' := by
  induction l generalizing high with
  | nil => simp [Gapless, top]
  | cons n l ih => simp [Gapless, ih, top_cons, and_assoc]

/-- Numbers that are not above the start do not count. -/
theorem top_filter {low high : Nat} (h : low ≤ high) (l : List Nat) :
    top high (l.filter (low < ·)) = top high l := by
  induction l generalizing high with
  | nil => rfl
  | cons n l ih =>
    by_cases hn : low < n
    · simp only [List.filter_cons, hn, decide_true, if_true, top_cons]
      exact ih (by omega)
    · simp only [List.filter_cons, hn, decide_false, Bool.false_eq_true, if_false, top_cons]
      rw [ih h, Nat.max_eq_left (by omega)]

theorem gapless_filter {low high : Nat} (h : low ≤ high) (l : List Nat) :
    Gapless high (l.filter (low < ·)) ↔ Gapless high l := by
  induction l generalizing high with
  | nil => rfl
  | cons n l ih =>
    by_cases hn : low < n
    · simp only [List.filter_cons, hn, decide_true, if_true, Gapless]
      rw [ih (by omega)]
    · simp only [List.filter_cons, hn, decide_false, Bool.false_eq_true, if_false, Gapless]
      rw [ih h, Nat.max_eq_left (by omega)]
      exact ⟨fun hl => ⟨by omega, hl⟩, fun hl => hl.2⟩

/-- An interval that starts at or below the next number. -/
theorem gapless_range' {low high : Nat} (len : Nat) (h : low ≤ high + 1) :
    Gapless high (List.range' low len) ∧ top high (List.range' low len) = max high (low + len - 1) := by
  induction len generalizing low high with
  | zero => exact ⟨trivial, by simp [top]; omega⟩
  | succ len ih =>
    obtain ⟨hgap, htop⟩ := @ih (low + 1) (max high low) (by omega)
    rw [List.range'_succ]
    refine ⟨⟨h, hgap⟩, ?_⟩
    rw [top_cons, htop]
    omega

/-- The numbers of an initial segment from some number on. -/
theorem filter_le_range (low n : Nat) :
    (List.range n).filter (low ≤ ·) = List.range' low (n - low) := by
  induction n with
  | zero => simp
  | succ n ih =>
    rw [List.range_succ, List.filter_append, ih]
    by_cases h : low ≤ n
    · have hsub : n + 1 - low = n - low + 1 := by omega
      rw [hsub, List.range'_concat]
      simp [h]
    · have hsub : n + 1 - low = 0 := by omega
      have hsub' : n - low = 0 := by omega
      simp [h, hsub, hsub']

end Gapless

/-! ## The manager -/

namespace SessionStreamManager

variable {clock : Nat → Nat} {m : SessionStreamManager} {envelopes : List EventEnvelope}

/-- A live manager queues the envelopes with new numbers. -/
theorem foldl_pushCounted (envelopes : List EventEnvelope) (accepted : Nat)
    (h : m.isDestroyed = false) :
    ∃ m' accepted', envelopes.foldl pushCounted (m, accepted) = (m', accepted') ∧
      m'.isDestroyed = false ∧ m'.highestSeq = m.highestSeq ∧
      m'.applied = m.applied ∧ m'.store = m.store ∧
      m'.pendingQueue = m.pendingQueue ++ envelopes.filter (m.highestSeq < ·.seq) := by
  induction envelopes generalizing m accepted with
  | nil => exact ⟨m, accepted, rfl, h, rfl, rfl, rfl, by simp⟩
  | cons e envelopes ih =>
    by_cases hle : e.seq ≤ m.highestSeq
    · have hpush : pushCounted (m, accepted) e = (m, accepted) := by
        simp [pushCounted, pushEvent, h, hle]
      rw [List.foldl_cons, hpush, List.filter_cons_of_neg (by simp; omega)]
      exact ih accepted h
    · have hpush : pushCounted (m, accepted) e =
          ({ m with pendingQueue := m.pendingQueue ++ [e], frame := true }, accepted + 1) := by
        simp [pushCounted, pushEvent, h, hle]
      rw [List.foldl_cons, hpush, List.filter_cons_of_pos (by simp; omega)]
      obtain ⟨m', accepted', hfold, halive, hhigh, happlied, hstore, hqueue⟩ := ih (accepted + 1)
        (m := { m with pendingQueue := m.pendingQueue ++ [e], frame := true }) h
      exact ⟨m', accepted', hfold, halive, hhigh, happlied, hstore, by simp [hqueue]⟩

/-- A push only queues. -/
theorem pushEvents_frame (m : SessionStreamManager) (envelopes : List EventEnvelope) :
    (m.pushEvents envelopes).1.applied = m.applied ∧
      (m.pushEvents envelopes).1.store = m.store ∧
      (m.pushEvents envelopes).1.isDestroyed = m.isDestroyed ∧
      ∀ e ∈ (m.pushEvents envelopes).1.pendingQueue, e ∈ m.pendingQueue ∨ e ∈ envelopes := by
  cases halive : m.isDestroyed with
  | false =>
    obtain ⟨m', accepted, hfold, hdestroyed, -, happlied, hstore, hqueue⟩ :=
      foldl_pushCounted envelopes 0 halive
    rw [pushEvents, hfold]
    refine ⟨happlied, hstore, hdestroyed, fun e he => ?_⟩
    rw [hqueue] at he
    exact (List.mem_append.mp he).imp_right List.mem_of_mem_filter
  | true =>
    have hsame : envelopes.foldl pushCounted (m, 0) = (m, 0) := by
      induction envelopes with
      | nil => rfl
      | cons e envelopes ih => simpa [pushCounted, pushEvent, halive] using ih
    rw [pushEvents, hsame]
    exact ⟨rfl, rfl, halive, fun e he => .inl he⟩

/-- The store is what the reducer makes of the applied events. -/
def Reduced (clock : Nat → Nat) (store : SessionState) (m : SessionStreamManager) : Prop :=
  m.store = m.applied.foldl
    (fun state e => sessionReducer state e.event (some e.seq) (clock e.seq)) store

theorem Reduced.flush {store : SessionState} (h : Reduced clock store m) :
    Reduced clock store (m.flush clock) := by
  have hloop : ∀ (queue : List EventEnvelope) (m' : SessionStreamManager),
      Reduced clock store m' → Reduced clock store (queue.foldl (applyEvent clock) m') := by
    intro queue
    induction queue with
    | nil => exact fun m' h' => h'
    | cons e queue ih =>
      intro m' h'
      refine ih _ ?_
      unfold applyEvent
      split_ifs
      · simp only [Reduced, List.foldl_append, List.foldl_cons, List.foldl_nil]
        rw [← h']
      · exact h'
  simp only [SessionStreamManager.flush]
  split_ifs
  · exact h
  · exact hloop _ _ h

/-- The loop of `flush` applies the numbers that raise the highest; without a jump these are
all numbers up to the top of the queue. -/
theorem foldl_applyEvent (clock : Nat → Nat) (envelopes : List EventEnvelope)
    (m : SessionStreamManager) :
    ∃ m' fresh, envelopes.foldl (applyEvent clock) m = m' ∧
      m'.isDestroyed = m.isDestroyed ∧ m'.pendingQueue = m.pendingQueue ∧
      m'.highestSeq = top m.highestSeq (envelopes.map (·.seq)) ∧
      m'.applied = m.applied ++ fresh ∧ (∀ e ∈ fresh, e ∈ envelopes ∧ m.highestSeq < e.seq) ∧
      (Gapless m.highestSeq (envelopes.map (·.seq)) →
        fresh.map (·.seq) = List.range' (m.highestSeq + 1) (m'.highestSeq - m.highestSeq)) := by
  induction envelopes generalizing m with
  | nil => exact ⟨m, [], rfl, rfl, rfl, rfl, by simp, by simp, by simp⟩
  | cons e envelopes ih =>
    by_cases hlt : m.highestSeq < e.seq
    · obtain ⟨m', fresh, hfold, halive, hqueue, hhigh, happlied, hfresh, hseqs⟩ :=
        ih (applyEvent clock m e)
      have happly : applyEvent clock m e = { m with
          store := sessionReducer m.store e.event (some e.seq) (clock e.seq)
          highestSeq := e.seq
          applied := m.applied ++ [e] } := if_pos hlt
      rw [happly] at halive hqueue hhigh happlied hfresh hseqs
      simp only at halive hqueue hhigh happlied hfresh hseqs
      have hmax : max m.highestSeq e.seq = e.seq := Nat.max_eq_right (by omega)
      refine ⟨m', e :: fresh, hfold, halive, hqueue, ?_, by simp [happlied], ?_, ?_⟩
      · rw [List.map_cons, top_cons, hmax, hhigh]
      · intro e' he'
        rcases List.mem_cons.mp he' with rfl | he'
        · exact ⟨List.mem_cons_self, hlt⟩
        · have := hfresh e' he'
          exact ⟨List.mem_cons_of_mem _ this.1, by omega⟩
      · rintro ⟨hle, hgap⟩
        have hnext : e.seq = m.highestSeq + 1 := Nat.le_antisymm hle hlt
        have htop := le_top e.seq (envelopes.map (·.seq))
        rw [hmax] at hgap
        rw [List.map_cons, hseqs hgap, hnext, ← List.range'_succ]
        congr 1
        omega
    · obtain ⟨m', fresh, hfold, halive, hqueue, hhigh, happlied, hfresh, hseqs⟩ := ih m
      have hmax : max m.highestSeq e.seq = m.highestSeq := Nat.max_eq_left (by omega)
      refine ⟨m', fresh, ?_, halive, hqueue, ?_, happlied, ?_, ?_⟩
      · rw [List.foldl_cons, applyEvent, if_neg hlt, hfold]
      · rw [List.map_cons, top_cons, hmax, hhigh]
      · intro e' he'
        exact ⟨List.mem_cons_of_mem _ (hfresh e' he').1, (hfresh e' he').2⟩
      · rintro ⟨-, hgap⟩
        exact hseqs (hmax ▸ hgap)

end SessionStreamManager

/-! ## Whole runs -/

namespace Ui

open Feed SessionStreamManager

variable {clock : Nat → Nat} {s t : Ui} {a : UiAct}

/-- What a poll yields is the front of what the stream had to yield. -/
theorem poll_yields (sub : Subscriber) {sent : List EventEnvelope} (hn : sub.next ≤ sent.length) :
    ∃ new, (sub.poll sent).yielded = sub.yielded ++ new ∧
      sub.backlog ++ retained capacity sent sub.next =
        new ++ ((sub.poll sent).backlog ++ retained capacity sent (sub.poll sent).next) := by
  have hnew : ∃ new, (sub.poll sent).yielded = sub.yielded ++ new := by
    unfold Subscriber.poll
    split
    · exact ⟨_, rfl⟩
    · split
      · exact ⟨_, rfl⟩
      · exact ⟨[], by simp⟩
      · exact ⟨[], by simp⟩
  obtain ⟨new, hnew⟩ := hnew
  have hkeeps := (sub.poll_keeps hn).2.2
  rw [hnew, List.append_assoc, List.append_cancel_left_eq] at hkeeps
  exact ⟨new, hnew, hkeeps.symm⟩

theorem reduced_step {store : SessionState} (h : Reduced clock store s.manager)
    (hstep : s.step clock a = some t) : Reduced clock store t.manager := by
  cases a with
  | append event origin =>
    obtain rfl := Option.some.inj hstep
    exact h
  | connect =>
    simp only [Ui.step] at hstep
    split_ifs at hstep
    obtain rfl := Option.some.inj hstep
    exact h
  | deliver =>
    simp only [Ui.step] at hstep
    split at hstep
    · obtain rfl := Option.some.inj hstep
      obtain ⟨happlied, hstore, -, -⟩ := pushEvents_frame s.manager _
      exact hstore.trans (h.trans (by rw [happlied]))
    · cases hstep
  | flush =>
    obtain rfl := Option.some.inj hstep
    exact h.flush
  | disconnect | destroy =>
    obtain rfl := Option.some.inj hstep
    exact h

/-- What holds in every run: the log starts with number zero, everything on its way is in the
log, and what was applied has a number above zero. -/
structure Grounded (s : Ui) : Prop where
  empty : s.feed.events = [] → s.feed.nextSeq = 0
  head : ∀ e ∈ s.feed.events.head?, e.seq = 0
  sent : ∀ e ∈ s.feed.sent, e ∈ s.feed.events
  cursor : ∀ sub ∈ s.feed.subscribers, sub.next ≤ s.feed.sent.length
  stream : ∀ sub ∈ s.feed.subscribers, ∀ e ∈ s.pending sub, e ∈ s.feed.events
  queue : ∀ e ∈ s.manager.pendingQueue, e ∈ s.feed.events
  applied : ∀ e ∈ s.manager.applied, 0 < e.seq ∧ e ∈ s.feed.events

namespace Grounded

theorem new (id : String) (store : SessionState) : Grounded (Ui.new id store) := by
  refine ⟨fun _ => rfl, ?_, ?_, ?_, ?_, ?_, ?_⟩ <;>
    simp [Ui.new, Feed.new, SessionStreamManager.new]

theorem mem_sent_of_mem_pending {sub : Subscriber} {e : EventEnvelope} (he : e ∈ s.pending sub) :
    e ∈ sub.backlog ∨ e ∈ s.feed.sent :=
  (List.mem_append.mp he).imp_right List.mem_of_mem_drop

theorem append (h : Grounded s) (event : TurnEventBody) (origin : EventOrigin) :
    Grounded { s with feed := s.feed.append event origin } := by
  obtain ⟨e, hseq, hevents, -, -⟩ := wanted_append s.feed event origin ⟨0, [], 0, []⟩
  have hkept : ∀ e' ∈ s.feed.events, e' ∈ (s.feed.append event origin).events := by
    intro e' he'
    simp [hevents, he']
  have hsent : ∀ e' ∈ (s.feed.append event origin).sent,
      e' ∈ (s.feed.append event origin).events := by
    intro e' he'
    have := h.sent e'
    simp only [Feed.append] at he' ⊢
    split_ifs at he' <;> grind
  have hlen : s.feed.sent.length ≤ (s.feed.append event origin).sent.length := by
    simp only [Feed.append]
    split_ifs <;> simp
  refine ⟨by simp [hevents], fun e' he' => ?_, hsent, fun sub hmem => ?_, fun sub hmem e' he' => ?_,
    fun e' he' => hkept e' (h.queue e' he'), fun e' he' => (h.applied e' he').imp_right (hkept e')⟩
  · simp only [hevents] at he'
    cases hlog : s.feed.events with
    | nil =>
      simp only [hlog, List.nil_append, List.head?_cons, Option.mem_some_iff] at he'
      rw [← he', hseq, h.empty hlog]
    | cons first rest =>
      simp only [hlog, List.cons_append, List.head?_cons, Option.mem_some_iff] at he'
      exact h.head e' (by simp [hlog, he'])
  · exact Nat.le_trans (h.cursor sub hmem) hlen
  · rcases mem_sent_of_mem_pending he' with he' | he'
    · exact hkept e' (h.stream sub hmem e' (List.mem_append_left _ he'))
    · exact hsent e' he'

theorem connect (h : Grounded s) (sinceSeq : Nat) :
    Grounded { s with feed := s.feed.subscribe sinceSeq } := by
  refine ⟨h.empty, h.head, h.sent, fun sub hmem => ?_, fun sub hmem e he => ?_, h.queue, h.applied⟩
  · rcases List.mem_append.mp hmem with hold | hnew
    · exact h.cursor sub hold
    · obtain rfl := List.mem_singleton.mp hnew
      exact Nat.le_refl _
  · rcases List.mem_append.mp hmem with hold | hnew
    · exact h.stream sub hold e he
    · obtain rfl := List.mem_singleton.mp hnew
      rcases mem_sent_of_mem_pending he with he | he
      · exact List.mem_of_mem_filter he
      · exact h.sent e he

theorem deliver (h : Grounded s) {sub : Subscriber} (hsub : s.feed.subscribers = [sub]) :
    Grounded ⟨{ s.feed with subscribers := [sub.poll s.feed.sent] },
      (s.manager.pushEvents ((sub.poll s.feed.sent).yielded.drop sub.yielded.length)).1⟩ := by
  have hmem : sub ∈ s.feed.subscribers := by simp [hsub]
  obtain ⟨new, hnew, hfront⟩ := poll_yields sub (h.cursor sub hmem)
  have hpending := h.stream sub hmem
  simp only [pending, hfront, List.forall_mem_append] at hpending
  rw [hnew, List.drop_left]
  obtain ⟨happlied, -, -, hqueue⟩ := pushEvents_frame s.manager new
  refine ⟨h.empty, h.head, h.sent, fun sub' hmem' => ?_, fun sub' hmem' e he => ?_, fun e he => ?_,
    happlied ▸ h.applied⟩
  · obtain rfl := List.mem_singleton.mp hmem'
    exact (sub.poll_keeps (h.cursor sub hmem)).2.1
  · obtain rfl := List.mem_singleton.mp hmem'
    exact (List.mem_append.mp he).elim (hpending.2.1 e) (hpending.2.2 e)
  · exact (hqueue e he).elim (h.queue e) (hpending.1 e)

theorem flush (h : Grounded s) : Grounded { s with manager := s.manager.flush clock } := by
  simp only [SessionStreamManager.flush]
  split_ifs
  · exact ⟨h.empty, h.head, h.sent, h.cursor, h.stream, h.queue, h.applied⟩
  · obtain ⟨m, fresh, hfold, -, hqueue, -, happlied, hfresh, -⟩ :=
      foldl_applyEvent clock s.manager.pendingQueue
        { s.manager with frame := false, pendingQueue := [] }
    rw [hfold]
    refine ⟨h.empty, h.head, h.sent, h.cursor, h.stream, by simp [hqueue], fun e he => ?_⟩
    rw [happlied, List.mem_append] at he
    rcases he with he | he
    · exact h.applied e he
    · have := (hfresh e he).2
      exact ⟨by omega, h.queue e (hfresh e he).1⟩

theorem step (h : Grounded s) (hstep : s.step clock a = some t) : Grounded t := by
  cases a with
  | append event origin =>
    obtain rfl := Option.some.inj hstep
    exact h.append event origin
  | connect =>
    simp only [Ui.step] at hstep
    split_ifs at hstep
    obtain rfl := Option.some.inj hstep
    exact h.connect _
  | disconnect =>
    obtain rfl := Option.some.inj hstep
    exact ⟨h.empty, h.head, h.sent, by simp, by simp, h.queue, h.applied⟩
  | deliver =>
    simp only [Ui.step] at hstep
    split at hstep
    · rename_i sub hsub
      obtain rfl := Option.some.inj hstep
      exact h.deliver hsub
    · cases hstep
  | flush =>
    obtain rfl := Option.some.inj hstep
    exact h.flush
  | destroy =>
    obtain rfl := Option.some.inj hstep
    exact ⟨h.empty, h.head, h.sent, h.cursor, h.stream, by simp [destroy], h.applied⟩

/-- The manager has applied the whole log if and only if the log is empty. -/
theorem applied_eq_events_iff (h : Grounded s) :
    s.manager.applied = s.feed.events ↔ s.feed.events = [] := by
  constructor
  · intro heq
    cases hlog : s.feed.events with
    | nil => rfl
    | cons first rest =>
      have hzero := h.head first (by simp [hlog])
      have hpos := (h.applied first (by simp [heq, hlog])).1
      omega
  · intro hnil
    rw [hnil]
    refine List.eq_nil_iff_forall_not_mem.mpr fun e he => ?_
    have := (h.applied e he).2
    rw [hnil] at this
    cases this

end Grounded

/-- What the run has done so far: the manager has applied the numbers from one on, its queue
and its stream go on from there without a jump, and the stream ends with the last event. -/
structure Tracks (s : Ui) : Prop where
  feed : FeedOk s.feed
  single : s.feed.subscribers.length ≤ 1
  since : ∀ sub ∈ s.feed.subscribers, sub.sinceSeq ≤ s.manager.highestSeq
  bound : s.manager.highestSeq ≤ s.feed.events.length - 1
  applied : s.manager.applied.map (·.seq) = List.range' 1 s.manager.highestSeq
  queue : Gapless s.manager.highestSeq (s.manager.pendingQueue.map (·.seq))
  stream : ∀ sub ∈ s.feed.subscribers,
    let seqs := (s.manager.pendingQueue ++ s.pending sub).map (·.seq)
    Gapless s.manager.highestSeq seqs ∧
      top s.manager.highestSeq seqs = s.feed.events.length - 1

/-- While the manager lives. -/
def Live (s : Ui) : Prop := s.manager.isDestroyed = false → Tracks s

namespace Tracks

theorem top_queue_le (h : Tracks s) (hg : Grounded s) :
    top s.manager.highestSeq (s.manager.pendingQueue.map (·.seq)) ≤ s.feed.events.length - 1 := by
  refine top_le h.bound fun n hn => ?_
  obtain ⟨e, he, rfl⟩ := List.mem_map.mp hn
  have := h.feed.seq_lt (hg.queue e he)
  omega

/-- An event reaches the end of the stream. -/
theorem append (h : Tracks s) {event : TurnEventBody} {origin : EventOrigin}
    (hroom : s.Room (.append event origin)) :
    Tracks { s with feed := s.feed.append event origin } := by
  obtain ⟨hlt, hsubs⟩ := hroom
  have hnext := h.feed.nextSeq_eq hlt
  have hroom' : s.feed.Room (.append event origin) := by
    refine ⟨hlt, fun sub hmem => ⟨?_, hsubs sub hmem⟩⟩
    have := h.since sub hmem
    have := h.bound
    omega
  have hfeed := h.feed.append hroom'
  obtain ⟨e, hseq, hevents, -, -⟩ := wanted_append s.feed event origin ⟨0, [], 0, []⟩
  have hlen : (s.feed.append event origin).events.length = s.feed.events.length + 1 := by
    simp [hevents]
  refine ⟨hfeed, h.single, h.since, ?_, h.applied, h.queue, ?_⟩
  · have := h.bound
    simp only [hlen]
    omega
  · intro sub hmem
    -- faithful before and after, so what is left to yield grew by the event
    obtain ⟨e', hseq', hevents', -, hwanted⟩ := wanted_append s.feed event origin sub
    rw [if_pos (hroom'.2 sub hmem).1] at hwanted
    have hold := h.feed.faithful sub hmem
    have hnew := hfeed.faithful sub hmem
    rw [Faithful, hwanted, ← hold, List.append_assoc, List.append_cancel_left_eq] at hnew
    have hpending : pending { s with feed := s.feed.append event origin } sub =
        s.pending sub ++ [e'] := hnew
    obtain ⟨hgap, htop⟩ := h.stream sub hmem
    simp only [hpending, ← List.append_assoc, List.map_append, gapless_append, top_append,
      List.map_singleton, hseq', hnext] at hgap htop ⊢
    refine ⟨⟨hgap, ?_⟩, ?_⟩
    · simp only [htop, Gapless, and_true]
      omega
    · simp only [htop, top_singleton, hlen]
      omega

/-- A new stream starts with the last number that was applied, and reaches to the end. -/
theorem connect (h : Tracks s) (hg : Grounded s) (hnone : s.feed.subscribers = []) :
    Tracks { s with feed := s.feed.subscribe s.manager.getSinceSeq } := by
  have hsubs : (s.feed.subscribe s.manager.getSinceSeq).subscribers =
      [⟨s.manager.highestSeq, s.feed.events.filter (s.manager.highestSeq ≤ ·.seq),
        s.feed.sent.length, []⟩] := by
    simp only [Feed.subscribe, hnone, getSinceSeq, List.nil_append]
    rfl
  refine ⟨h.feed.subscribe _, by simp [hsubs], ?_, h.bound, h.applied, h.queue, ?_⟩
  · intro sub hmem
    simp only [hsubs, List.mem_singleton] at hmem
    simp [hmem]
  · intro sub hmem
    simp only [hsubs, List.mem_singleton] at hmem
    have hpending : pending { s with feed := s.feed.subscribe s.manager.getSinceSeq } sub =
        s.feed.events.filter (s.manager.highestSeq ≤ ·.seq) := by
      simp only [hmem, pending, Feed.subscribe, retained_length, List.append_nil]
    have hseqs : (s.feed.events.filter (s.manager.highestSeq ≤ ·.seq)).map (·.seq) =
        List.range' s.manager.highestSeq (s.feed.events.length - s.manager.highestSeq) := by
      have hfilter := filter_le_range s.manager.highestSeq s.feed.events.length
      rwa [← h.feed.seqs, List.filter_map] at hfilter
    have hle := le_top s.manager.highestSeq (s.manager.pendingQueue.map (·.seq))
    have htop := h.top_queue_le hg
    have hle' : s.manager.highestSeq ≤
        top s.manager.highestSeq (s.manager.pendingQueue.map (·.seq)) + 1 := by omega
    obtain ⟨hgap, htop'⟩ := gapless_range' (s.feed.events.length - s.manager.highestSeq) hle'
    simp only [hpending, List.map_append, hseqs, gapless_append, top_append]
    refine ⟨⟨h.queue, hgap⟩, htop'.trans ?_⟩
    have := h.bound
    change _ = s.feed.events.length - 1
    omega

/-- A delivered envelope moves from the stream to the queue, or is not new. -/
theorem deliver (h : Tracks s) {sub : Subscriber} (hsub : s.feed.subscribers = [sub])
    (halive : s.manager.isDestroyed = false) :
    Tracks ⟨{ s.feed with subscribers := [sub.poll s.feed.sent] },
      (s.manager.pushEvents ((sub.poll s.feed.sent).yielded.drop sub.yielded.length)).1⟩ := by
  have hmem : sub ∈ s.feed.subscribers := by simp [hsub]
  obtain ⟨new, hnew, hfront⟩ := poll_yields sub (h.feed.cursor sub hmem)
  have hfeed : FeedOk { s.feed with subscribers := [sub.poll s.feed.sent] } := by
    have hget : s.feed.subscribers[0]? = some sub := by simp [hsub]
    simpa [hsub] using h.feed.poll hget
  rw [hnew, List.drop_left]
  obtain ⟨m, accepted, hfold, -, hhigh, happlied, -, hqueue⟩ := foldl_pushCounted new 0 halive
  rw [pushEvents, hfold]
  obtain ⟨hgap, htop⟩ := h.stream sub hmem
  simp only [pending, hfront] at hgap htop
  have hsame : ∀ rest : List EventEnvelope,
      ((s.manager.pendingQueue ++ new.filter (s.manager.highestSeq < ·.seq) ++ rest).map
        (·.seq)).filter (s.manager.highestSeq < ·) =
      ((s.manager.pendingQueue ++ (new ++ rest)).map (·.seq)).filter
        (s.manager.highestSeq < ·) := by
    intro rest
    simp [List.filter_append, List.filter_map, Function.comp_def]
  -- what is dropped was not above the highest, so it counts for nothing
  rw [← gapless_filter (Nat.le_refl _), ← hsame, gapless_filter (Nat.le_refl _)] at hgap
  rw [← top_filter (Nat.le_refl _), ← hsame, top_filter (Nat.le_refl _)] at htop
  refine ⟨hfeed, by simp, ?_, ?_, ?_, ?_, ?_⟩
  · intro sub' hmem'
    simp only [List.mem_singleton] at hmem'
    rw [hmem', hhigh, (sub.poll_keeps (h.feed.cursor sub hmem)).1]
    exact h.since sub hmem
  · rw [hhigh]
    exact h.bound
  · rw [happlied, hhigh]
    exact h.applied
  · rw [List.map_append, gapless_append] at hgap
    rw [hqueue, hhigh]
    exact hgap.1
  · intro sub' hmem'
    simp only [List.mem_singleton] at hmem'
    simp only [hmem', pending, hqueue, hhigh]
    exact ⟨hgap, htop⟩

/-- A frame applies the queue up to its top. -/
theorem flush (h : Tracks s) (hg : Grounded s) (halive : s.manager.isDestroyed = false) :
    Tracks { s with manager := s.manager.flush clock } := by
  cases hq : s.manager.pendingQueue with
  | nil =>
    have hsame : s.manager.flush clock = { s.manager with frame := false } := by
      simp [SessionStreamManager.flush, hq]
    rw [hsame]
    exact ⟨h.feed, h.single, h.since, h.bound, h.applied, h.queue, h.stream⟩
  | cons e queue =>
    obtain ⟨m, fresh, hfold, -, hqueue, hhigh, happlied, -, hseqs⟩ :=
      foldl_applyEvent clock s.manager.pendingQueue
        { s.manager with frame := false, pendingQueue := [] }
    have hflush : s.manager.flush clock = m := by
      rw [← hfold]
      simp [SessionStreamManager.flush, hq, halive]
    simp only at hqueue hhigh happlied hseqs
    have hle := le_top s.manager.highestSeq (s.manager.pendingQueue.map (·.seq))
    have hseqs := hseqs h.queue
    have hbound : m.highestSeq ≤ s.feed.events.length - 1 := hhigh ▸ h.top_queue_le hg
    rw [hflush]
    refine ⟨h.feed, h.single, ?_, hbound, ?_, by simp [hqueue, Gapless], ?_⟩
    · intro sub hmem
      have := h.since sub hmem
      simp only [hhigh]
      omega
    · simp only [happlied, List.map_append, h.applied, hseqs]
      rw [Nat.add_comm s.manager.highestSeq 1, List.range'_append_1]
      congr 1
      omega
    · intro sub hmem
      obtain ⟨hgap, htop⟩ := h.stream sub hmem
      simp only [List.map_append, gapless_append, top_append] at hgap htop
      simp only [hqueue, hhigh, List.nil_append]
      exact ⟨hgap.2, htop⟩

end Tracks

theorem Live.new (id : String) (store : SessionState) (hstore : store.seq = 0) :
    Live (Ui.new id store) := by
  intro _
  have hzero : (SessionStreamManager.new store 0).highestSeq = 0 := by
    simp [SessionStreamManager.new, hstore]
  exact ⟨.new id, by simp [Ui.new, Feed.new], by simp [Ui.new, Feed.new], by simp [Ui.new, hzero],
    by simp [Ui.new, SessionStreamManager.new, hstore], trivial, by simp [Ui.new, Feed.new]⟩

theorem Live.step (h : Live s) (hg : Grounded s) (hroom : s.Room a)
    (hstep : s.step clock a = some t) : Live t := by
  intro halive
  cases a with
  | append event origin =>
    obtain rfl := Option.some.inj hstep
    exact (h halive).append hroom
  | connect =>
    simp only [Ui.step] at hstep
    split_ifs at hstep with hnone
    obtain rfl := Option.some.inj hstep
    exact (h halive).connect hg hnone
  | disconnect =>
    obtain rfl := Option.some.inj hstep
    have htracks := h halive
    exact ⟨⟨htracks.feed.seqs, htracks.feed.bound, htracks.feed.nextSeq, by simp, by simp, by simp⟩,
      Nat.zero_le _, by simp, htracks.bound, htracks.applied, htracks.queue, by simp⟩
  | deliver =>
    simp only [Ui.step] at hstep
    split at hstep
    · rename_i sub hsub
      obtain rfl := Option.some.inj hstep
      rw [(pushEvents_frame _ _).2.2.1] at halive
      exact (h halive).deliver hsub halive
    · cases hstep
  | flush =>
    obtain rfl := Option.some.inj hstep
    have halive' : s.manager.isDestroyed = false := by
      simp only [SessionStreamManager.flush] at halive
      split_ifs at halive with hskip
      · exact halive
      · simp only [Bool.or_eq_true, not_or] at hskip
        simpa using hskip.2
    exact (h halive').flush hg halive'
  | destroy =>
    obtain rfl := Option.some.inj hstep
    cases halive

/-- Two lists of events of the log with the same numbers are the same. -/
theorem eq_of_map_seq_eq {events l l' : List EventEnvelope}
    (hseqs : events.map EventEnvelope.seq = List.range events.length)
    (hl : ∀ e ∈ l, e ∈ events) (hl' : ∀ e ∈ l', e ∈ events)
    (h : l.map (·.seq) = l'.map (·.seq)) : l = l' := by
  have hinj := List.inj_on_of_nodup_map (hseqs ▸ List.nodup_range)
  induction l generalizing l' with
  | nil => exact (List.map_eq_nil_iff.mp h.symm).symm
  | cons e l ih =>
    obtain ⟨e', l'', rfl, hhead, htail⟩ := List.map_eq_cons_iff.mp h.symm
    obtain ⟨he, hl⟩ := List.forall_mem_cons.mp hl
    obtain ⟨he', hl''⟩ := List.forall_mem_cons.mp hl'
    rw [hinj he he' hhead.symm, ih hl hl'' htail.symm]

theorem Tracks.applied_eq_tail (h : Tracks s) (hg : Grounded s) (hd : s.Drained) :
    s.manager.applied = s.feed.events.tail := by
  obtain ⟨-, hqueue, sub, hsub, hpending⟩ := hd
  have htop := (h.stream sub (by simp [hsub])).2
  simp only [hqueue, hpending, List.nil_append, List.map_nil, top, List.foldl_nil] at htop
  refine eq_of_map_seq_eq h.feed.seqs (fun e he => (hg.applied e he).2)
    (fun e he => List.mem_of_mem_tail he) ?_
  have htail : s.feed.events.tail.map (·.seq) = (s.feed.events.map (·.seq)).tail :=
    List.map_tail
  rw [h.applied, htail, h.feed.seqs, htop]
  cases s.feed.events.length with
  | zero => rfl
  | succ n => rw [List.range_eq_range', List.range'_succ, List.tail_cons, Nat.add_sub_cancel]

/-- Once everything was delivered and flushed, the events were all applied once and in order
if and only if there were none: the first is always missing. With room for every event, the
others are applied once and in order, whatever the reconnections and the frames. -/
theorem applied_eq_iff (clock : Nat → Nat) (id : String) (store : SessionState)
    (acts : List UiAct) (s : Ui) (hrun : run (step clock) (Ui.new id store) acts = some s)
    (hd : s.Drained) :
    Reduced clock store s.manager ∧
      (s.manager.applied = s.feed.events ↔ s.feed.events = []) ∧
      (store.seq = 0 → Meets (step clock) Room (Ui.new id store) acts →
        s.manager.applied = s.feed.events.tail) := by
  have hg := invariant_of_run (fun _ _ _ h hstep => h.step hstep) (Grounded.new id store) hrun
  have hreduced := invariant_of_run (fun _ _ _ h hstep => reduced_step h hstep)
    (show Reduced clock store (Ui.new id store).manager from rfl) hrun
  refine ⟨hreduced, hg.applied_eq_events_iff, fun hstore hroom => ?_⟩
  have hlive : Always (step clock) Live (Ui.new id store) acts :=
    always_of_meets (I := fun s => Grounded s ∧ Live s) (fun _ h => h.2)
      (fun _ _ _ h hroom hstep => ⟨h.1.step hstep, h.2.step h.1 hroom hstep⟩)
      ⟨.new id store, .new id store hstore⟩ hroom
  exact (hlive.last hrun hd.1).applied_eq_tail hg hd

section First

/-- A fresh session of the thread. -/
def freshStore : SessionState := createInitialSessionState "thread-1" "p" "w" "New Thread" none

/-- Two events, a subscription, and a frame after each of them is delivered. -/
def twoEvents : List UiAct :=
  [.append (.unknown "a") .live, .append (.unknown "b") .live, .connect, .deliver, .flush, .deliver,
    .flush]

theorem run_twoEvents :
    ∃ s, run (step id) (Ui.new "thread-1" freshStore) twoEvents = some s ∧ s.Drained ∧
      s.feed.events = [⟨"thread-1", 0, .unknown "a"⟩, ⟨"thread-1", 1, .unknown "b"⟩] ∧
      s.manager.applied = [⟨"thread-1", 1, .unknown "b"⟩] := by
  refine ⟨_, rfl, ⟨rfl, rfl, _, rfl, ?_⟩, ?_, ?_⟩ <;> decide

/-- Of two events, only the second is applied. -/
theorem first_event_is_not_applied :
    ∃ s, run (step id) (Ui.new "thread-1" freshStore) twoEvents = some s ∧ s.Drained ∧
      s.manager.applied ≠ s.feed.events := by
  obtain ⟨s, hrun, hd, hevents, happlied⟩ := run_twoEvents
  exact ⟨s, hrun, hd, by rw [hevents, happlied]; decide⟩

theorem applied_eq_iff_twoEvents :
    ∃ s, run (step id) (Ui.new "thread-1" freshStore) twoEvents = some s ∧ s.Drained ∧
      Reduced id freshStore s.manager ∧
      (s.manager.applied = s.feed.events ↔ s.feed.events = []) ∧
      s.manager.applied = s.feed.events.tail := by
  obtain ⟨s, hrun, hd, -, -⟩ := run_twoEvents
  have happlied := applied_eq_iff id "thread-1" freshStore twoEvents s hrun hd
  exact ⟨s, hrun, hd, happlied.1, happlied.2.1, happlied.2.2 rfl (by decide)⟩

end First

end Ui

end Tethys.Frontend
