import Tethys.Lib.Runs
import Tethys.Thread.Entries
import Mathlib.Algebra.Group.Nat.Defs

/-!
# Thread state machine

The pure reducer of `tethys-thread/src/state.rs`: thread state, turns, and materialized
entries over the normalized event stream. `Op` lists the operations other components call
on a machine; a run of a thread is a list of them from `ThreadMachine.new`.
-/

namespace Tethys.Thread

open Schema Lib

inductive EventOrigin where
  | live | replay
  deriving DecidableEq

structure TurnRecord where
  index : Nat
  startedSeq : Nat
  endedSeq : Option Nat
  stopReason : Option StopReason
  deriving DecidableEq

structure ThreadMachine where
  id : String
  state : ThreadState
  entries : List Entry
  turns : List TurnRecord
  latestSeq : Nat
  sessionId : Option String
  title : Option String
  deriving DecidableEq

namespace ThreadMachine

def new (id : String) : ThreadMachine where
  id := id
  state := .idle
  entries := []
  turns := []
  latestSeq := 0
  sessionId := none
  title := none

def setSession (m : ThreadMachine) (sessionId : String) : ThreadMachine :=
  { m with sessionId := some sessionId }

/-- Close the first turn that is still open. -/
def endTurn (seq : Nat) (stopReason : Option StopReason) : List TurnRecord → List TurnRecord
  | [] => []
  | turn :: turns =>
    if turn.endedSeq.isNone then
      { turn with endedSeq := some seq, stopReason := stopReason } :: turns
    else turn :: endTurn seq stopReason turns

/-- Apply a normalized event. Replayed events only materialize entries that do not exist
yet and never drive state transitions: a resume transcript describes the past. -/
def apply (m : ThreadMachine) (seq : Nat) (event : TurnEventBody) (origin : EventOrigin) :
    ThreadMachine :=
  let m := { m with latestSeq := max m.latestSeq seq }
  if origin = .replay then
    { m with entries := (applyEvent m.entries event true).1 }
  else
    match event with
    | .stateChanged ⟨.running⟩ =>
      let turns := if m.state ≠ .running then
          -- the source casts the length to `u32`
          m.turns ++ [⟨m.turns.length % 2 ^ 32, seq, none, none⟩]
        else m.turns
      { m with turns := turns, state := .running }
    | .stateChanged ⟨.idle stopReason⟩ =>
      { m with turns := endTurn seq stopReason m.turns, state := .idle }
    | .stateChanged ⟨.requiresAction⟩ => { m with state := .awaitingApproval }
    | .permissionRequested _ =>
      { m with entries := (applyEvent m.entries event false).1, state := .awaitingApproval }
    | .permissionResolved .. =>
      { m with
        entries := (applyEvent m.entries event false).1
        state := if m.state = .awaitingApproval then .running else m.state }
    | .sessionInfo info => { m with title := if info.title.isSome then info.title else m.title }
    | .error .. => { m with entries := (applyEvent m.entries event false).1, state := .error }
    | _ => { m with entries := (applyEvent m.entries event false).1 }

/-- A successful resume reconnects a thread parked in `interrupted`. -/
def markResumed (m : ThreadMachine) : ThreadMachine :=
  if m.state = .interrupted then { m with state := .idle } else m

/-- Process death or transport loss mid-turn. -/
def markInterrupted (m : ThreadMachine) : ThreadMachine :=
  { m with turns := endTurn m.latestSeq (some .error) m.turns, state := .interrupted }

def archive (m : ThreadMachine) : ThreadMachine := { m with state := .archived }

end ThreadMachine

/-- One call on a thread machine. -/
inductive Op where
  | apply (seq : Nat) (event : TurnEventBody) (origin : EventOrigin)
  | setSession (sessionId : String)
  | markResumed
  | markInterrupted
  | archive
  deriving DecidableEq

namespace ThreadMachine

def op (m : ThreadMachine) : Op → ThreadMachine
  | .apply seq event origin => m.apply seq event origin
  | .setSession sessionId => m.setSession sessionId
  | .markResumed => m.markResumed
  | .markInterrupted => m.markInterrupted
  | .archive => m.archive

/-- The machine as a transition system: every call is always enabled. -/
def step (m : ThreadMachine) (o : Op) : Option ThreadMachine := some (m.op o)

/-- Apply a sequence of numbered events with one origin. -/
def applyAll (m : ThreadMachine) (events : List (Nat × TurnEventBody)) (origin : EventOrigin) :
    ThreadMachine :=
  events.foldl (fun m event => m.apply event.1 event.2 origin) m

/-- Live events reach the entries through the live reducer, whatever else they change. -/
theorem apply_live_entries (m : ThreadMachine) (seq : Nat) (event : TurnEventBody) :
    (m.apply seq event .live).entries = entryReducer.live m.entries event := by
  rw [← applyEvent_live]
  cases event with
  | stateChanged changed => obtain ⟨state⟩ := changed; cases state <;> rfl
  | _ => rfl

theorem apply_replay_entries (m : ThreadMachine) (seq : Nat) (event : TurnEventBody) :
    (m.apply seq event .replay).entries = entryReducer.replay m.entries event := by
  rw [← applyEvent_replay]
  rfl

theorem applyAll_live_entries (m : ThreadMachine) (events : List (Nat × TurnEventBody)) :
    (m.applyAll events .live).entries =
      (events.map Prod.snd).foldl entryReducer.live m.entries := by
  induction events generalizing m with
  | nil => rfl
  | cons event events ih =>
    simpa [applyAll, apply_live_entries] using ih (m.apply event.1 event.2 .live)

theorem applyAll_replay_entries (m : ThreadMachine) (events : List (Nat × TurnEventBody)) :
    (m.applyAll events .replay).entries =
      (events.map Prod.snd).foldl entryReducer.replay m.entries := by
  induction events generalizing m with
  | nil => rfl
  | cons event events ih =>
    simpa [applyAll, apply_replay_entries] using ih (m.apply event.1 event.2 .replay)

end ThreadMachine

end Tethys.Thread
