import Tethys.AgentServers.ConnectionStore

/-!
# The recovery ladder

`recover` of `tethys-agent-servers/src/recovery.rs`, over the steps of the connection store. A call
goes from rung to rung, and whatever it awaits may be answered, fail or be timed out in any order
with the steps of the other holders of leases and of the agents. `running`, `pending` and `handed` are
history: what ran when a call returned, the processes that calls have reported as restarted, and what
the next `acquire` made of each of them. The condition that the ladder needs is `keepsPromises`.
-/

namespace Tethys.AgentServers

open Lib Store

structure StoreOptions where
  idleGrace : Nat
  cancelGrace : Nat

abbrev SessionId := String

inductive RecoveryOutcome where
  | cancelled | sessionResumed | processRestarted | interrupted
  deriving DecidableEq

/-- Where a call of `recover` stands. -/
inductive Rung where
  | called
  /-- it has found a connection, and cancels the session -/
  | live (connection : Agent)
  /-- it waits for the answer to `close_session`, and does not look at it -/
  | closing (connection : Agent)
  | resuming (connection : Agent) (deadline : Nat)
  /-- the session was not resumed -/
  | lost
  /-- `restart` has emptied the entry and kills the child -/
  | killing (child : Option Agent)
  | acquiring
  | leased (lease : ConnectionLease)
  deriving DecidableEq

/-- A call. `since` counts the agents that were spawned before it found or left its entry empty. -/
structure Call where
  id : Nat
  key : ConnectionKey
  session : SessionId
  since : Nat
  rung : Rung
  deriving DecidableEq

/-- A request to resume a session. -/
structure ResumeRequest where
  call : Nat
  agent : Agent
  session : SessionId
  deriving DecidableEq

/-- What a call returned, whether a turn of its session ran then, and the process it has leased. -/
structure Return where
  call : Call
  outcome : RecoveryOutcome
  running : Bool
  started : Option Agent
  deriving DecidableEq

/-- A process that was reported as restarted, for the grace period. -/
structure Promise where
  key : ConnectionKey
  agent : Agent
  deadline : Nat
  deriving DecidableEq

structure Ladder where
  store : Store
  /-- the call that holds the connect guard, if a call does -/
  holder : Option Call
  calls : List Call
  nextCall : Nat
  turns : List (Agent × SessionId)
  requests : List ResumeRequest
  answers : List (ResumeRequest × Bool)
  returned : List Return
  pending : List Promise
  handed : List (Promise × Option Agent)

/-- The lease that a section of `acquire` hands out. -/
def Store.grants (s : Store) : Act → Option ConnectionLease
  | .reuse =>
    match s.guard with
    | some (key, .entered) =>
      ((s.find key).bind (Entry.liveConnection s.exited)).map fun connection => ⟨key, connection⟩
    | _ => none
  | .install =>
    match s.guard with
    | some (key, .spawning) => some ⟨key, ⟨key, s.serial⟩⟩
    | _ => none
  | _ => none

/-- A call that awaits something can be dropped by its caller. -/
def Rung.awaits : Rung → Bool
  | .closing _ | .resuming .. | .killing _ | .acquiring => true
  | .called | .live _ | .lost | .leased _ => false

namespace Ladder

def new : Ladder where
  store := .new
  holder := none
  calls := []
  nextCall := 0
  turns := []
  requests := []
  answers := []
  returned := []
  pending := []
  handed := []

/-- A turn of the session runs in a process that is alive. -/
def running (s : Ladder) (session : SessionId) : Bool :=
  s.turns.any fun turn => turn.2 = session ∧ turn.1 ∉ s.store.exited

/-- The calls that hold a lease of this kind. -/
def held (s : Ladder) (lease : ConnectionLease) : Nat :=
  s.calls.countP fun call => call.rung = .leased lease

def remove (s : Ladder) (call : Call) : Ladder := { s with calls := s.calls.erase call }

def replace (s : Ladder) (call call' : Call) : Ladder := { s with calls := call' :: s.calls.erase call }

def finish (s : Ladder) (call : Call) (outcome : RecoveryOutcome) (started : Option Agent) : Ladder :=
  { s.remove call with returned := s.returned ++ [⟨call, outcome, s.running call.session, started⟩] }

/-- The next `acquire` on a key looks at its entry: the promises on it that are still of use are compared
with what it is handed. -/
def resolve (s : Ladder) : Act → Ladder
  | .reuse =>
    match s.store.guard with
    | some (key, .entered) =>
      let due := s.pending.filter fun p => p.key = key ∧ s.store.now < p.deadline
      { s with
        pending := s.pending.filter fun p => p.key ≠ key
        handed := s.handed ++ due.map fun p => (p, (s.store.grants .reuse).map (·.connection)) }
    | _ => s
  | _ => s

/-- A step of the store, and what it tells the call that holds the guard. -/
def settle (s : Ladder) (a : Act) (t : Store) : Ladder :=
  let s' := { s.resolve a with store := t }
  match s.holder with
  | none => s'
  | some call =>
    match s.store.grants a with
    | some lease => { s'.replace call { call with rung := .leased lease } with holder := none }
    | none =>
      if t.guard.isSome then s'
      else if a = .spawnAbandoned then { s'.remove call with holder := none }
      else { s'.finish call .interrupted none with holder := none }

end Ladder

/-- What a call does or learns. -/
inductive Event where
  | look
  | cancel (sent : Bool)
  | closed
  | resumed
  | resumeFailed
  | restart
  | killed (ok : Bool)
  | lock
  | drop
  | abandon
  deriving DecidableEq

/-- The steps of the store, of the agents and of the calls. -/
inductive Move where
  | store (a : Act)
  | prompt (agent : Agent) (session : SessionId)
  | turnEnd (agent : Agent) (session : SessionId)
  | answer (request : ResumeRequest) (ok : Bool)
  | recover (key : ConnectionKey) (session : SessionId)
  | call (call : Call) (event : Event)
  deriving DecidableEq

namespace Ladder
variable (o : StoreOptions) (s : Ladder)

/-- A call on its rung. -/
def climb (call : Call) : Rung → Event → Option Ladder
  | .called, .look =>
    match s.store.find call.key with
    | some e =>
      match e.connection with
      | some connection => some (s.replace call { call with rung := .live connection })
      | none => some (s.replace call { call with since := s.store.serial, rung := .acquiring })
    | none => some (s.remove call)
  | .live connection, .cancel sent =>
    -- a notification: it is sent, or the sender fails
    if sent then some (s.finish call .cancelled none)
    else some (s.replace call { call with rung := .closing connection })
  | .closing connection, .closed =>
    let deadline := s.store.now + o.cancelGrace
    some { s.replace call { call with rung := .resuming connection deadline } with
      requests := ⟨call.id, connection, call.session⟩ :: s.requests }
  | .resuming connection _, .resumed =>
    if (⟨call.id, connection, call.session⟩, true) ∈ s.answers then
      some (s.finish call .sessionResumed none)
    else none
  | .resuming connection deadline, .resumeFailed =>
    if (⟨call.id, connection, call.session⟩, false) ∈ s.answers ∨ connection ∈ s.store.closed ∨
        deadline ≤ s.store.now then
      some (s.replace call { call with rung := .lost })
    else none
  | .lost, .restart =>
    let child := (s.store.find call.key).bind (·.child)
    (s.store.step o.idleGrace (.restart call.key)).map fun t =>
      { s.replace call { call with since := s.store.serial, rung := .killing child } with store := t }
  | .killing child, .killed ok =>
    if ok then some (s.replace call { call with rung := .acquiring })
    else if child.isSome then some (s.finish call .interrupted none)
    else none
  | .acquiring, .lock =>
    if s.holder = some call then none
    else
      ((s.store.step o.idleGrace (.acquire call.key)).bind fun t => t.step o.idleGrace (.lock call.key)).map
        fun t => { s with store := t, holder := some call }
  | .leased lease, .drop =>
    (s.store.step o.idleGrace (.release lease)).map fun t =>
      let s' := { s with store := t }
      { s'.finish call .processRestarted (some lease.connection) with
        pending := ⟨call.key, lease.connection, t.now + o.idleGrace⟩ :: s.pending }
  | rung, .abandon => if rung.awaits ∧ s.holder ≠ some call then some (s.remove call) else none
  | _, _ => none

/-- Whether a step of the store is anyone's: the lease that a call holds is dropped by the call. -/
def free : Act → Bool
  | .release lease => s.held lease < s.store.outstanding.count lease
  | _ => true

def step : Move → Option Ladder
  | .store a => if s.free a then (s.store.step o.idleGrace a).map (s.settle a) else none
  | .prompt agent session => some { s with turns := (agent, session) :: s.turns }
  | .turnEnd agent session => some { s with turns := s.turns.erase (agent, session) }
  | .answer request ok =>
    if request ∈ s.requests then some { s with answers := (request, ok) :: s.answers } else none
  | .recover key session =>
    some { s with
      calls := ⟨s.nextCall, key, session, 0, .called⟩ :: s.calls
      nextCall := s.nextCall + 1 }
  | .call call event => if call ∈ s.calls then s.climb o call call.rung event else none

end Ladder

/-! ## What is promised -/

/-- A cancelled session has no turn running, a resumed one was acknowledged by an agent, and a
restarted process is a fresh one. -/
structure Justified (answers : List (ResumeRequest × Bool)) (r : Return) : Prop where
  cancelled : r.outcome = .cancelled → r.running = false
  resumed : r.outcome = .sessionResumed → ∃ agent, (⟨r.call.id, agent, r.call.session⟩, true) ∈ answers
  restarted : r.outcome = .processRestarted → ∃ agent, r.started = some agent ∧ r.call.since ≤ agent.serial

/-- The ladder is sound: its outcomes are justified, and the next `acquire` within the grace period gets
the process that was reported as restarted. -/
structure Sound (s : Ladder) : Prop where
  returned : ∀ r ∈ s.returned, Justified s.answers r
  handed : ∀ h ∈ s.handed, h.2 = some h.1.agent

/-- The cancel is sent when no turn runs, the entry of a call has the process the call has leased when the
call gives it back, and the next `acquire` within the grace period finds that entry connected and
its child running. -/
def keepsPromises (s : Ladder) : Move → Bool
  | .call call (.cancel sent) => !(sent && s.running call.session)
  | .call call .drop =>
    match call.rung with
    | .leased lease => (s.store.find call.key).any fun e => e.connection = some lease.connection
    | _ => true
  | .store .reuse =>
    match s.store.guard with
    | some (key, .entered) =>
      (s.pending.all fun p => !(p.key = key ∧ s.store.now < p.deadline)) ||
        (s.store.find key).any fun e => e.state = .connected ∧ e.child.all (· ∉ s.store.exited)
    | _ => true
  | _ => true

end Tethys.AgentServers
