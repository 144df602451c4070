import Tethys.Lib.Runs
import Tethys.Thread.State

/-!
# A thread and its calls

`prompt`, `resume`, `ensure_connection`, `start_reader` and `mark_transport_lost` of
`tethys-core/src/thread_session.rs`, on one thread. A call is its program counter; every
section under the thread's lock or under the lock of the reader slot, and every await that
returns, is one step, so that a run is an interleaving of any number of calls with the
reader tasks and with connections that close. The end of a reader task holds the thread's
lock while it clears the slot; it is one step here, since what a call can do in between
commutes with its first half.
-/

namespace Tethys.Core

open Schema Lib Thread

/-- The identity of an `Arc<AcpConnection>`. -/
abbrev Connection := Nat

/-- Where a call stands. The cases from `start` to `store` are `ensure_connection` with
`start_reader`. -/
inductive Pc where
  /-- `resume`, before its section -/
  | resuming
  /-- before the session is read -/
  | start
  /-- before the first look at `live_connection` -/
  | check (existing : Option String)
  /-- waiting for the store's `acquire` -/
  | acquiring (existing : Option String)
  /-- with a lease, waiting for `resume_session` or `new_session` -/
  | acquired (existing : Option String) (connection : Connection)
  /-- before session and lease are put in place -/
  | install (connection : Connection) (session : String)
  /-- before `start_reader` looks at the slot -/
  | startReader (connection : Connection) (session : String)
  /-- the slot was empty, before the task is spawned -/
  | spawn (connection : Connection) (session : String)
  /-- before the handle of the task is put into the slot -/
  | store (task : Nat)
  /-- after `ensure_connection` -/
  | ensured
  /-- waiting for the agent to answer the prompt -/
  | prompting
  /-- the prompt failed, before `mark_transport_lost` -/
  | lost
  deriving DecidableEq

inductive Kind where
  | prompt | resume
  deriving DecidableEq

structure Call where
  kind : Kind
  pc : Pc
  deriving DecidableEq

/-- A running reader task. -/
structure Task where
  id : Nat
  connection : Connection
  session : String
  deriving DecidableEq

structure Handle where
  machine : ThreadMachine
  session : Option String
  lease : Option Connection
  /-- the slot of the reader's `JoinHandle`, which may be that of a task that has ended -/
  reader : Option Nat
  tasks : List Task
  calls : List Call
  closed : List Connection
  spawned : Nat
  deriving DecidableEq

inductive HandleAct where
  | call (kind : Kind)
  /-- the section of `resume` -/
  | resume (call : Call)
  | readSession (call : Call)
  | checkLive (call : Call)
  | acquired (call : Call) (connection : Connection)
  /-- `resume_session` or `new_session` answered -/
  | sessionReady (call : Call) (fresh : String)
  /-- an error, or the caller drops the call at an await -/
  | fail (call : Call)
  | install (call : Call)
  | checkSlot (call : Call)
  | spawn (call : Call)
  | store (call : Call)
  /-- `prompt` after `ensure_connection`; `resume` returns -/
  | ensured (call : Call)
  | promptAnswered (call : Call)
  | promptFailed (call : Call)
  | transportLost (call : Call)
  | event (task : Task) (seq : Nat) (body : TurnEventBody) (origin : EventOrigin)
  /-- the task's connection closed -/
  | taskEnd (task : Task)
  /-- the task's event stream ended or failed -/
  | streamEnd (task : Task)
  | close (connection : Connection)
  deriving DecidableEq

namespace Handle

def new (id : String) : Handle where
  machine := ThreadMachine.new id
  session := none
  lease := none
  reader := none
  tasks := []
  calls := []
  closed := []
  spawned := 0

/-- The call goes on at `pc`. -/
def advance (s : Handle) (call : Call) (pc : Pc) : Handle :=
  { s with calls := { call with pc := pc } :: s.calls.erase call }

/-- The call returns. -/
def finish (s : Handle) (call : Call) : Handle := { s with calls := s.calls.erase call }

/-- The thread is in the middle of a turn. -/
def active (machine : ThreadMachine) : Bool :=
  machine.state = .running ∨ machine.state = .awaitingApproval

/-- `live_connection`. -/
def live (s : Handle) : Bool := s.lease.isSome ∧ s.session.isSome

/-- The end of a reader task. -/
def endTask (s : Handle) (task : Task) : Handle :=
  { s with
    machine := if active s.machine then s.machine.markInterrupted else s.machine
    lease := none
    reader := none
    tasks := s.tasks.erase task }

/-- The step of a call that is at the given place. -/
def stepAt (s : Handle) (call : Call) (place : Pc → Option Handle) : Option Handle :=
  if call ∈ s.calls then place call.pc else none

def step (s : Handle) : HandleAct → Option Handle
  | .call .prompt => some { s with calls := ⟨.prompt, .start⟩ :: s.calls }
  | .call .resume => some { s with calls := ⟨.resume, .resuming⟩ :: s.calls }
  | .resume call => s.stepAt call fun
    | .resuming =>
      some { s.advance call .start with lease := none, machine := s.machine.markResumed }
    | _ => none
  | .readSession call => s.stepAt call fun
    | .start => some (s.advance call (.check s.session))
    | _ => none
  | .checkLive call => s.stepAt call fun
    | .check existing => some (s.advance call (if s.live then .ensured else .acquiring existing))
    | _ => none
  | .acquired call connection => s.stepAt call fun
    | .acquiring existing => some (s.advance call (.acquired existing connection))
    | _ => none
  | .sessionReady call fresh => s.stepAt call fun
    | .acquired existing connection =>
      some (s.advance call (.install connection (existing.getD fresh)))
    | _ => none
  | .fail call => s.stepAt call fun
    | .start | .acquiring _ | .acquired _ _ | .prompting => some (s.finish call)
    | _ => none
  | .install call => s.stepAt call fun
    | .install connection session =>
      some { s.advance call (.startReader connection session) with
        session := some session, lease := some connection }
    | _ => none
  | .checkSlot call => s.stepAt call fun
    | .startReader connection session =>
      some (s.advance call (if s.reader.isSome then .ensured else .spawn connection session))
    | _ => none
  | .spawn call => s.stepAt call fun
    | .spawn connection session =>
      some { s.advance call (.store s.spawned) with
        tasks := ⟨s.spawned, connection, session⟩ :: s.tasks, spawned := s.spawned + 1 }
    | _ => none
  | .store call => s.stepAt call fun
    | .store task => some { s.advance call .ensured with reader := some task }
    | _ => none
  | .ensured call => s.stepAt call fun
    | .ensured =>
      some (if call.kind = .prompt ∧ s.live then s.advance call .prompting else s.finish call)
    | _ => none
  | .promptAnswered call => s.stepAt call fun
    | .prompting => some (s.finish call)
    | _ => none
  | .promptFailed call => s.stepAt call fun
    | .prompting => some (s.advance call .lost)
    | _ => none
  | .transportLost call => s.stepAt call fun
    | .lost =>
      some { s.finish call with lease := none, machine := s.machine.markInterrupted }
    | _ => none
  | .event task seq body origin =>
    if task ∈ s.tasks then some { s with machine := s.machine.apply seq body origin } else none
  | .taskEnd task =>
    if task ∈ s.tasks ∧ task.connection ∈ s.closed then some (s.endTask task) else none
  | .streamEnd task => if task ∈ s.tasks then some (s.endTask task) else none
  | .close connection => some { s with closed := connection :: s.closed }

/-! ## What a step does -/

/-- The steps, with the place of the call that takes one. -/
inductive Stepped (s : Handle) : HandleAct → Handle → Prop where
  | prompt : Stepped s (.call .prompt) { s with calls := ⟨.prompt, .start⟩ :: s.calls }
  | resumed : Stepped s (.call .resume) { s with calls := ⟨.resume, .resuming⟩ :: s.calls }
  | resume (kind : Kind) (hmem : ⟨kind, .resuming⟩ ∈ s.calls) :
      Stepped s (.resume ⟨kind, .resuming⟩)
        { s.advance ⟨kind, .resuming⟩ .start with
          lease := none, machine := s.machine.markResumed }
  | readSession (kind : Kind) (hmem : ⟨kind, .start⟩ ∈ s.calls) :
      Stepped s (.readSession ⟨kind, .start⟩) (s.advance ⟨kind, .start⟩ (.check s.session))
  | checkLive (kind : Kind) (existing : Option String) (hmem : ⟨kind, .check existing⟩ ∈ s.calls) :
      Stepped s (.checkLive ⟨kind, .check existing⟩)
        (s.advance ⟨kind, .check existing⟩ (if s.live then .ensured else .acquiring existing))
  | acquired (kind : Kind) (existing : Option String) (connection : Connection)
      (hmem : ⟨kind, .acquiring existing⟩ ∈ s.calls) :
      Stepped s (.acquired ⟨kind, .acquiring existing⟩ connection)
        (s.advance ⟨kind, .acquiring existing⟩ (.acquired existing connection))
  | sessionReady (kind : Kind) (existing : Option String) (connection : Connection)
      (fresh : String) (hmem : ⟨kind, .acquired existing connection⟩ ∈ s.calls) :
      Stepped s (.sessionReady ⟨kind, .acquired existing connection⟩ fresh)
        (s.advance ⟨kind, .acquired existing connection⟩
          (.install connection (existing.getD fresh)))
  | fail (call : Call) (hmem : call ∈ s.calls)
      (hpc : call.pc = .start ∨ (∃ existing, call.pc = .acquiring existing) ∨
        (∃ existing connection, call.pc = .acquired existing connection) ∨
        call.pc = .prompting) :
      Stepped s (.fail call) (s.finish call)
  | install (kind : Kind) (connection : Connection) (session : String)
      (hmem : ⟨kind, .install connection session⟩ ∈ s.calls) :
      Stepped s (.install ⟨kind, .install connection session⟩)
        { s.advance ⟨kind, .install connection session⟩ (.startReader connection session) with
          session := some session, lease := some connection }
  | checkSlot (kind : Kind) (connection : Connection) (session : String)
      (hmem : ⟨kind, .startReader connection session⟩ ∈ s.calls) :
      Stepped s (.checkSlot ⟨kind, .startReader connection session⟩)
        (s.advance ⟨kind, .startReader connection session⟩
          (if s.reader.isSome then .ensured else .spawn connection session))
  | spawn (kind : Kind) (connection : Connection) (session : String)
      (hmem : ⟨kind, .spawn connection session⟩ ∈ s.calls) :
      Stepped s (.spawn ⟨kind, .spawn connection session⟩)
        { s.advance ⟨kind, .spawn connection session⟩ (.store s.spawned) with
          tasks := ⟨s.spawned, connection, session⟩ :: s.tasks, spawned := s.spawned + 1 }
  | store (kind : Kind) (task : Nat) (hmem : ⟨kind, .store task⟩ ∈ s.calls) :
      Stepped s (.store ⟨kind, .store task⟩)
        { s.advance ⟨kind, .store task⟩ .ensured with reader := some task }
  | ensured (kind : Kind) (hmem : ⟨kind, .ensured⟩ ∈ s.calls) :
      Stepped s (.ensured ⟨kind, .ensured⟩)
        (if kind = .prompt ∧ s.live then s.advance ⟨kind, .ensured⟩ .prompting
          else s.finish ⟨kind, .ensured⟩)
  | promptAnswered (kind : Kind) (hmem : ⟨kind, .prompting⟩ ∈ s.calls) :
      Stepped s (.promptAnswered ⟨kind, .prompting⟩) (s.finish ⟨kind, .prompting⟩)
  | promptFailed (kind : Kind) (hmem : ⟨kind, .prompting⟩ ∈ s.calls) :
      Stepped s (.promptFailed ⟨kind, .prompting⟩) (s.advance ⟨kind, .prompting⟩ .lost)
  | transportLost (kind : Kind) (hmem : ⟨kind, .lost⟩ ∈ s.calls) :
      Stepped s (.transportLost ⟨kind, .lost⟩)
        { s.finish ⟨kind, .lost⟩ with lease := none, machine := s.machine.markInterrupted }
  | event (task : Task) (seq : Nat) (body : TurnEventBody) (origin : EventOrigin)
      (hmem : task ∈ s.tasks) :
      Stepped s (.event task seq body origin)
        { s with machine := s.machine.apply seq body origin }
  | taskEnd (task : Task) (hmem : task ∈ s.tasks) : Stepped s (.taskEnd task) (s.endTask task)
  | streamEnd (task : Task) (hmem : task ∈ s.tasks) :
      Stepped s (.streamEnd task) (s.endTask task)
  | close (connection : Connection) :
      Stepped s (.close connection) { s with closed := connection :: s.closed }

variable {s t : Handle} {call : Call} {a : HandleAct}

theorem stepAt_eq_some {place : Pc → Option Handle} (h : s.stepAt call place = some t) :
    call ∈ s.calls ∧ place call.pc = some t := by
  unfold stepAt at h
  split_ifs at h with hmem
  exact ⟨hmem, h⟩

theorem stepped_of_step (h : s.step a = some t) : Stepped s a t := by
  cases a with
  | call kind =>
    cases kind with
    | prompt =>
      obtain rfl := Option.some.inj h
      exact .prompt
    | resume =>
      obtain rfl := Option.some.inj h
      exact .resumed
  | fail call =>
    simp only [step] at h
    obtain ⟨hmem, hplace⟩ := stepAt_eq_some h
    split at hplace
    case h_5 => exact nomatch hplace
    all_goals
      rename_i hpc
      obtain rfl := Option.some.inj hplace
      exact .fail call hmem (by simp [hpc])
  | resume call | readSession call | checkLive call | acquired call connection
  | sessionReady call fresh | install call | checkSlot call | spawn call | store call
  | ensured call | promptAnswered call | promptFailed call | transportLost call =>
    obtain ⟨kind, pc⟩ := call
    simp only [step] at h
    obtain ⟨hmem, hplace⟩ := stepAt_eq_some h
    split at hplace
    case h_1 hpc =>
      obtain rfl : pc = _ := hpc
      obtain rfl := Option.some.inj hplace
      constructor
      exact hmem
    case h_2 => exact nomatch hplace
  | event task seq body origin =>
    simp only [step] at h
    split_ifs at h with hmem
    obtain rfl := Option.some.inj h
    exact .event task seq body origin hmem
  | taskEnd task =>
    simp only [step] at h
    split_ifs at h with hmem
    obtain rfl := Option.some.inj h
    exact .taskEnd task hmem.1
  | streamEnd task =>
    simp only [step] at h
    split_ifs at h with hmem
    obtain rfl := Option.some.inj h
    exact .streamEnd task hmem
  | close connection =>
    obtain rfl := Option.some.inj h
    exact .close connection

end Handle

end Tethys.Core
