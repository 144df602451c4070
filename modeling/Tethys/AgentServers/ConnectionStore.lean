import Tethys.Lib.Runs
import Tethys.Lib.Materialize

/-!
# The connection store

`ConnectionStore` of `tethys-agent-servers/src/connection_store.rs`. Every section that
holds the entries lock is one step, so a run is an interleaving of any number of `acquire`,
`reap_idle`, `restart`, `entries` and `entry` calls, lease drops and connection watchers,
with child exits, closing transports and the clock in between.

A spawned child and the connection over its pipes are made together and share an `Agent`
identity. `leases` and the other `u32` counters are natural numbers here: an overflow needs
2^32 leases alive at once. `terminated` and `lastHeld` are history variables, which no step
reads.
-/

namespace Tethys.AgentServers

open Lib

/-- One entry per profile and host. -/
structure ConnectionKey where
  profileId : String
  host : String
  deriving DecidableEq

inductive Lifecycle where
  | connecting | connected | error | draining | terminated
  deriving DecidableEq

/-- A spawned child process and the connection to it. -/
structure Agent where
  key : ConnectionKey
  serial : Nat
  deriving DecidableEq

structure Entry where
  key : ConnectionKey
  state : Lifecycle
  restarts : Nat
  spawnCount : Nat
  leases : Nat
  lastActive : Nat
  child : Option Agent
  connection : Option Agent
  deriving DecidableEq

structure ConnectionLease where
  key : ConnectionKey
  connection : Agent
  deriving DecidableEq

/-- Where the `acquire` that holds the connect guard stands: before `reuse`, between `reuse`
and `begin_spawn`, or between `begin_spawn` and the end of the spawn. -/
inductive Phase where
  | entered | missed | spawning
  deriving DecidableEq

/-- What took a child out of its entry. -/
inductive Cause where
  | respawn | reap | restart
  deriving DecidableEq

/-- A child taken from its entry: whether it was healthy, how many leases its entry had out,
and when a lease on it was last given back. -/
structure Termination where
  agent : Agent
  cause : Cause
  healthy : Bool
  leases : Nat
  lastHeld : Nat
  time : Nat
  deriving DecidableEq

structure Store where
  entries : List Entry
  guard : Option (ConnectionKey × Phase)
  /-- the calls of `acquire` that wait for the guard -/
  waiting : List ConnectionKey
  outstanding : List ConnectionLease
  watchers : List ConnectionLease
  /-- the candidates each `reap_idle` call still has to look at -/
  reapers : List (List ConnectionKey)
  exited : List Agent
  closed : List Agent
  now : Nat
  serial : Nat
  terminated : List Termination
  lastHeld : Agent → Nat

/-! ## The sections under the entries lock, on one entry -/

namespace Entry

def new (key : ConnectionKey) (now : Nat) : Entry where
  key := key
  state := .terminated
  restarts := 0
  spawnCount := 0
  leases := 0
  lastActive := now
  child := none
  connection := none

def refreshLiveness (exited : List Agent) (e : Entry) : Entry :=
  if e.state = .connected ∧ e.child.any (· ∈ exited) then
    { e with connection := none, state := .error }
  else e

/-- The connection that `reuse` finds, after the liveness check. -/
def liveConnection (exited : List Agent) (e : Entry) : Option Agent :=
  let e := e.refreshLiveness exited
  if e.state = .connected then e.connection else none

/-- The counter part of `reuse`. -/
def addLease (now : Nat) (e : Entry) : Entry :=
  { e with leases := e.leases + 1, lastActive := now }

def beginSpawn (e : Entry) : Entry :=
  { e with
    spawnCount := e.spawnCount + 1
    restarts := if e.spawnCount + 1 > 1 then e.restarts + 1 else e.restarts
    state := .connecting
    child := none
    connection := none }

def install (agent : Agent) (now : Nat) (e : Entry) : Entry :=
  { e with
    state := .connected
    child := some agent
    connection := some agent
    leases := e.leases + 1
    lastActive := now }

def release (now : Nat) (e : Entry) : Entry :=
  { e with
    leases := e.leases - 1
    lastActive := now
    state := if e.leases - 1 = 0 ∧ e.state = .connected then .draining else e.state }

def markError (e : Entry) : Entry := { e with state := .error, connection := none }

def restart (e : Entry) : Entry := { e with state := .error, child := none, connection := none }

def reap (e : Entry) : Entry := { e with state := .terminated, child := none, connection := none }

/-- The end of `watch_connection`. -/
def connectionClosed (agent : Agent) (e : Entry) : Entry :=
  if e.connection = some agent ∧ e.state = .connected then
    { e with connection := none, state := .error }
  else e

end Entry

namespace Store

def new : Store where
  entries := []
  guard := none
  waiting := []
  outstanding := []
  watchers := []
  reapers := []
  exited := []
  closed := []
  now := 0
  serial := 0
  terminated := []
  lastHeld := fun _ => 0

def find (s : Store) (key : ConnectionKey) : Option Entry := lookup Entry.key key s.entries

def register (s : Store) (key : ConnectionKey) : Store :=
  { s with
    entries := if (s.find key).isSome then s.entries else s.entries ++ [Entry.new key s.now] }

/-- Apply a section to the entry with the given key, if there is one. -/
def modify (s : Store) (key : ConnectionKey) (f : Entry → Entry) : Store :=
  { s with
    entries := match s.find key with
      | some e => put Entry.key key (f e) s.entries
      | none => s.entries }

/-- The leases on an entry that are out. -/
def leasesOn (s : Store) (key : ConnectionKey) : Nat :=
  s.outstanding.countP fun lease => lease.key = key

/-- The entry's child runs and its transport is open. -/
def healthy (s : Store) (e : Entry) : Bool :=
  e.child.any (· ∉ s.exited) && e.connection.any (· ∉ s.closed)

/-- The record of taking the child of an entry. -/
def takes (s : Store) (cause : Cause) (e : Entry) : List Termination :=
  e.child.toList.map fun agent =>
    { agent := agent
      cause := cause
      healthy := s.healthy e
      leases := s.leasesOn e.key
      lastHeld := s.lastHeld agent
      time := s.now }

/-- Apply a section that takes the child of its entry. -/
def takeChild (s : Store) (cause : Cause) (key : ConnectionKey) (f : Entry → Entry) : Store :=
  { s.modify key f with
    terminated := s.terminated ++ (s.find key).toList.flatMap (s.takes cause) }

/-- The first section of `acquire`: refresh the entry and lease its connection if it is
connected. -/
def reuse (s : Store) (key : ConnectionKey) : Store :=
  match (s.find key).bind (Entry.liveConnection s.exited) with
  | some connection =>
    { s.modify key (fun e => (e.refreshLiveness s.exited).addLease s.now) with
      outstanding := ⟨key, connection⟩ :: s.outstanding
      guard := none }
  | none =>
    { s.modify key (Entry.refreshLiveness s.exited) with guard := some (key, .missed) }

/-- The second section: an unknown key fails, a known one is emptied for the new child. -/
def beginSpawn (s : Store) (key : ConnectionKey) : Store :=
  { s.takeChild .respawn key Entry.beginSpawn with
    guard := if (s.find key).isSome then some (key, .spawning) else none }

/-- A new child, connected, and the lease on it. -/
def install (s : Store) (key : ConnectionKey) : Store :=
  let lease : ConnectionLease := ⟨key, ⟨key, s.serial⟩⟩
  { s.modify key (Entry.install lease.connection s.now) with
    outstanding := lease :: s.outstanding
    watchers := lease :: s.watchers
    serial := s.serial + 1
    guard := none }

/-- Dropping a lease. -/
def release (s : Store) (lease : ConnectionLease) : Store :=
  { s.modify lease.key (Entry.release s.now) with
    outstanding := s.outstanding.erase lease
    lastHeld := fun agent => if agent = lease.connection then s.now else s.lastHeld agent }

/-- Nothing happens for an unknown key. -/
def restart (s : Store) (key : ConnectionKey) : Store := s.takeChild .restart key Entry.restart

/-- The entries `reap_idle` collects. -/
def candidates (s : Store) (grace : Nat) : List ConnectionKey :=
  (s.entries.filter fun e =>
    e.state = .draining ∧ e.leases = 0 ∧ grace ≤ s.now - e.lastActive).map Entry.key

/-- What `reap_idle` looks at again before it takes a child: not the time. -/
def reapable (s : Store) (key : ConnectionKey) : Bool :=
  (s.find key).any fun e => e.state = .draining ∧ e.leases = 0

/-- One round of the loop of `reap_idle`. -/
def reap (s : Store) (key : ConnectionKey) : Store :=
  if s.reapable key then s.takeChild .reap key Entry.reap else s

end Store

/-- The atomic steps. -/
inductive Act where
  | register (key : ConnectionKey)
  | acquire (key : ConnectionKey)
  | abandon (key : ConnectionKey)
  | lock (key : ConnectionKey)
  | reuse
  | beginSpawn
  | install
  | spawnFailed
  | spawnAbandoned
  | release (lease : ConnectionLease)
  | restart (key : ConnectionKey)
  | reapStart (order : List ConnectionKey)
  | reapNext (reaper : Nat)
  | refresh (key : ConnectionKey)
  | refreshAll
  | watch (watcher : ConnectionLease)
  | childExit (agent : Agent)
  | transportClose (agent : Agent)
  | tick (time : Nat)
  deriving DecidableEq

namespace Store

/-- One step, for the given `idle_grace`. -/
def step (grace : Nat) (s : Store) : Act → Option Store
  | .register key => some (s.register key)
  | .acquire key => some { s with waiting := key :: s.waiting }
  | .abandon key =>
    -- the caller drops the future while it waits
    if key ∈ s.waiting then some { s with waiting := s.waiting.erase key } else none
  | .lock key =>
    if s.guard = none ∧ key ∈ s.waiting then
      some { s with waiting := s.waiting.erase key, guard := some (key, .entered) }
    else none
  | .reuse =>
    match s.guard with
    | some (key, .entered) => some (s.reuse key)
    | _ => none
  | .beginSpawn =>
    match s.guard with
    | some (key, .missed) => some (s.beginSpawn key)
    | _ => none
  | .install =>
    match s.guard with
    | some (key, .spawning) => some (s.install key)
    | _ => none
  | .spawnFailed =>
    match s.guard with
    | some (key, .spawning) => some { s.modify key Entry.markError with guard := none }
    | _ => none
  | .spawnAbandoned =>
    match s.guard with
    | some (_, .spawning) => some { s with guard := none }
    | _ => none
  | .release lease => if lease ∈ s.outstanding then some (s.release lease) else none
  | .restart key => some (s.restart key)
  | .reapStart order =>
    -- the map lists its entries in no particular order
    if order.isPerm (s.candidates grace) then some { s with reapers := s.reapers ++ [order] }
    else none
  | .reapNext reaper =>
    match s.reapers[reaper]? with
    | some (key :: rest) => some { s.reap key with reapers := s.reapers.set reaper rest }
    | _ => none
  | .refresh key => some (s.modify key (Entry.refreshLiveness s.exited))
  | .refreshAll => some { s with entries := s.entries.map (Entry.refreshLiveness s.exited) }
  | .watch watcher =>
    if watcher ∈ s.watchers ∧ watcher.connection ∈ s.closed then
      some { s.modify watcher.key (Entry.connectionClosed watcher.connection) with
        watchers := s.watchers.erase watcher }
    else none
  | .childExit agent => some { s with exited := agent :: s.exited }
  | .transportClose agent => some { s with closed := agent :: s.closed }
  | .tick time => some { s with now := s.now + time }

end Store

end Tethys.AgentServers
