import Tethys.Thread.State

/-!
# Pending approvals

A thread with an unresolved permission should wait in `awaitingApproval`. The machine keeps
no count of what is pending: the first `PermissionResolved` that finds it waiting returns it
to `running`, whatever else was requested. `Waiting` puts the missing count beside the
machine, and `approvals_hold_iff` says that a run keeps the thread waiting exactly when each
resolution answers the last request that is open.
-/

namespace Tethys.Thread

open Schema Lib ThreadMachine

/-- A thread machine beside the ids of the permissions that were requested since the last
turn start, are not resolved, and were not released by an idle, an error, an interruption
or the archive. -/
structure Waiting where
  machine : ThreadMachine
  pending : List String
  deriving DecidableEq

namespace Waiting

def new (id : String) : Waiting where
  machine := .new id
  pending := []

/-- The pending permissions after a call. `starts` decides whether a live `running` is the
start of a turn, seen from the machine that receives it. -/
def pendingAfter (starts : ThreadMachine → Bool) (s : Waiting) : Op → List String
  | .apply _ (.permissionRequested request) .live => s.pending.insert request.reqId
  | .apply _ (.permissionResolved reqId _ _) .live => s.pending.filter (· ≠ reqId)
  | .apply _ (.stateChanged ⟨.running⟩) .live => if starts s.machine then [] else s.pending
  | .apply _ (.stateChanged ⟨.idle _⟩) .live => []
  | .apply _ (.error ..) .live => []
  | .markInterrupted => []
  | .archive => []
  | _ => s.pending

def step (starts : ThreadMachine → Bool) (s : Waiting) (o : Op) : Option Waiting :=
  some ⟨s.machine.op o, s.pendingAfter starts o⟩

/-- Pending approvals hold the thread. -/
def Held (s : Waiting) : Prop := s.pending ≠ [] → s.machine.state = .awaitingApproval

instance : DecidablePred Held := fun s =>
  inferInstanceAs (Decidable (s.pending ≠ [] → s.machine.state = .awaitingApproval))

/-- A resolution answers the last pending request, and a `running` that does not start a
turn finds none. -/
def AnswersLast (starts : ThreadMachine → Bool) (s : Waiting) : Op → Prop
  | .apply _ (.permissionResolved reqId _ _) .live => ∀ other ∈ s.pending, other = reqId
  | .apply _ (.stateChanged ⟨.running⟩) .live => starts s.machine = false → s.pending = []
  | _ => True

end Waiting

/-- The machine's own notion of a turn start: it opens a turn record on every live `running`
that does not find it `running`. -/
def ThreadMachine.opensTurn (m : ThreadMachine) : Bool := m.state ≠ .running

/-! ## What a call does to the state -/

/-- A resolution moves the thread out of `awaitingApproval` and out of no other state. -/
theorem ThreadMachine.apply_resolved_state (m : ThreadMachine) (seq : Nat) (reqId : String)
    (outcome : PermOutcome) (decidedBy : Decider) :
    (m.apply seq (.permissionResolved reqId outcome decidedBy) .live).state =
      if m.state = .awaitingApproval then .running else m.state := rfl

theorem ThreadMachine.apply_replay_state (m : ThreadMachine) (seq : Nat) (event : TurnEventBody) :
    (m.apply seq event .replay).state = m.state := rfl

/-- The calls that leave `awaitingApproval` are the ones `pendingAfter` speaks about. -/
theorem ThreadMachine.op_awaiting {m : ThreadMachine} {o : Op}
    (h : m.state = .awaitingApproval) :
    (m.op o).state = .awaitingApproval ∨
      (∃ seq reqId outcome decidedBy,
        o = .apply seq (.permissionResolved reqId outcome decidedBy) .live) ∨
      (∃ seq, o = .apply seq (.stateChanged ⟨.running⟩) .live) ∨
      (∃ seq stopReason, o = .apply seq (.stateChanged ⟨.idle stopReason⟩) .live) ∨
      (∃ seq code message retryable, o = .apply seq (.error code message retryable) .live) ∨
      o = .markInterrupted ∨ o = .archive := by
  cases o with
  | apply seq event origin =>
    cases origin with
    | replay =>
      left
      exact h
    | live =>
      cases event with
      | stateChanged changed =>
        obtain ⟨state⟩ := changed
        cases state <;> grind [op, apply]
      | _ => grind [op, apply]
  | setSession sessionId =>
    left
    exact h
  | markResumed =>
    left
    simp [op, markResumed, h]
  | markInterrupted => grind
  | archive => grind

namespace Waiting

variable {starts : ThreadMachine → Bool} {s t : Waiting} {o : Op}

/-- A call that puts an id into the pending list is a live request, and it parks the
thread. -/
theorem pendingAfter_of_nil (h : s.pending = []) :
    s.pendingAfter starts o = [] ∨ (s.machine.op o).state = .awaitingApproval := by
  cases o with
  | apply seq event origin =>
    cases event with
    | stateChanged changed =>
      obtain ⟨state⟩ := changed
      cases origin <;> cases state <;> simp [pendingAfter, h]
    | permissionRequested request =>
      cases origin with
      | live =>
        right
        rfl
      | replay =>
        left
        exact h
    | _ => cases origin <;> simp [pendingAfter, h]
  | _ => simp [pendingAfter, h]

theorem held_step (hs : s.Held) (ok : s.AnswersLast starts o) (h : s.step starts o = some t) :
    t.Held := by
  obtain rfl : _ = t := Option.some.inj h
  intro hne
  by_cases hp : s.pending = []
  · exact (pendingAfter_of_nil hp).resolve_left hne
  · obtain hstay | ⟨seq, reqId, outcome, decidedBy, rfl⟩ | ⟨seq, rfl⟩ | ⟨seq, stopReason, rfl⟩ |
      ⟨seq, code, message, retryable, rfl⟩ | rfl | rfl := op_awaiting (o := o) (hs hp)
    · exact hstay
    · -- the resolved request was the only one, so nothing is pending any more
      refine absurd ?_ hne
      refine List.filter_eq_nil_iff.mpr fun other hother => ?_
      simpa using ok other hother
    · cases hstart : starts s.machine with
      | true => exact absurd (by simp [pendingAfter, hstart]) hne
      | false => exact absurd (ok hstart) hp
    all_goals exact absurd rfl hne

/-- A step that answers one of several requests shows in the next state. -/
theorem answersLast_of_held (hs : s.Held) (h : s.step starts o = some t) (ht : t.Held) :
    s.AnswersLast starts o := by
  obtain rfl : _ = t := Option.some.inj h
  unfold AnswersLast
  split
  · next seq reqId outcome decidedBy =>
    intro other hother
    by_contra hne
    have hstill : other ∈ s.pending.filter (· ≠ reqId) := by
      simp [hother, hne]
    have hwait := ht (List.ne_nil_of_mem hstill)
    have hpark := hs (List.ne_nil_of_mem hother)
    rw [op, apply_resolved_state, if_pos hpark] at hwait
    exact absurd hwait (by decide)
  · next seq =>
    intro hstart
    by_contra hne
    have hwait : ThreadState.running = .awaitingApproval :=
      ht (by simpa [pendingAfter, hstart] using hne)
    exact absurd hwait (by decide)
  · trivial

end Waiting

/-- Pending approvals hold the thread in every state of a run if and only if every resolution
in it answers the last pending request and no `running` inside a turn overtakes one, for
every notion of what a turn start is; and a resolution moves no thread out of `idle`,
`error`, `interrupted` or `archived`. -/
theorem approvals_hold_iff (starts : ThreadMachine → Bool) (id : String) (ops : List Op) :
    (Always (Waiting.step starts) Waiting.Held (.new id) ops ↔
      Meets (Waiting.step starts) (Waiting.AnswersLast starts) (.new id) ops) ∧
    ∀ (m : ThreadMachine) (seq : Nat) (reqId : String) (outcome : PermOutcome)
      (decidedBy : Decider) (origin : EventOrigin),
      m.state = .idle ∨ m.state = .error ∨ m.state = .interrupted ∨ m.state = .archived →
      (m.apply seq (.permissionResolved reqId outcome decidedBy) origin).state = m.state := by
  constructor
  · exact always_iff_meets (fun _ h => h) (fun _ _ _ => Waiting.held_step)
      (fun _ _ _ => Waiting.answersLast_of_held) (fun hne => absurd rfl hne)
  · intro m seq reqId outcome decidedBy origin hm
    cases origin with
    | replay => exact apply_replay_state m seq _
    | live =>
      rw [apply_resolved_state]
      grind

/-- The events of a turn with two overlapping requests, of which one is approved. -/
def overlappingRequests : List Op :=
  [.apply 1 (.stateChanged ⟨.running⟩) .live,
   .apply 2 (.permissionRequested ⟨"perm-1", "edit", none, none, []⟩) .live,
   .apply 3 (.permissionRequested ⟨"perm-2", "run", none, none, []⟩) .live,
   .apply 4 (.permissionResolved "perm-1" .approved .user) .live]

theorem approvals_released_early :
    ¬ Always (Waiting.step ThreadMachine.opensTurn) Waiting.Held (.new "thread")
      overlappingRequests := by
  decide

theorem approvals_hold_iff_answered :
    Always (Waiting.step ThreadMachine.opensTurn) Waiting.Held (.new "thread")
      [.apply 1 (.permissionRequested ⟨"perm-1", "edit", none, none, []⟩) .live,
       .apply 2 (.permissionResolved "perm-1" .approved .user) .live] ∧
    ((ThreadMachine.new "thread").apply 1 (.permissionResolved "perm-1" .approved .user)
      .live).state = .idle :=
  ⟨((approvals_hold_iff ThreadMachine.opensTurn "thread" _).1).mpr
      (by simp [Meets, Waiting.step, Waiting.AnswersLast, Waiting.pendingAfter, Waiting.new]),
    (approvals_hold_iff ThreadMachine.opensTurn "thread" []).2 _ 1 "perm-1" .approved .user .live
      (.inl rfl)⟩

end Tethys.Thread
