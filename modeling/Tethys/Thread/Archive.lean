import Tethys.Thread.State

/-!
# Archived threads

`archive` only sets the state, and the reader task goes on: a live event or the loss of the
connection can take the thread out of the archive again. `archived_final_iff` lists the calls
that do; all others leave the state and the turns alone.
-/

namespace Tethys.Thread

open Schema Lib ThreadMachine

/-- The events that set the state, whatever it was. -/
def drivesState : TurnEventBody → Bool
  | .stateChanged _ | .permissionRequested _ | .error .. => true
  | _ => false

/-- The calls that take a thread out of the archive: live events that set the state, and the
loss of the connection. -/
def Op.Wakes : Op → Prop
  | .apply _ event .live => drivesState event = true
  | .markInterrupted => True
  | _ => False

/-- The thread is archived and has these turns. -/
def ArchivedWith (turns : List TurnRecord) (m : ThreadMachine) : Prop :=
  m.state = .archived ∧ m.turns = turns

variable {m : ThreadMachine} {turns : List TurnRecord} {o : Op}

theorem archivedWith_archive (m : ThreadMachine) : ArchivedWith m.turns m.archive := ⟨rfl, rfl⟩

/-- A live event of another kind only reaches the entries and the title. -/
theorem apply_live_of_not_wakes {seq : Nat} {event : TurnEventBody}
    (ho : ¬ (Op.apply seq event .live).Wakes) (h : ArchivedWith turns m) :
    ArchivedWith turns (m.apply seq event .live) := by
  obtain ⟨hstate, hturns⟩ := h
  cases event with
  | stateChanged changed => exact absurd rfl ho
  | permissionRequested request => exact absurd rfl ho
  | error code message retryable => exact absurd rfl ho
  | permissionResolved reqId outcome decidedBy =>
    refine ⟨?_, hturns⟩
    simp [ThreadMachine.apply, hstate]
  | _ => exact ⟨hstate, hturns⟩

theorem op_of_not_wakes (ho : ¬ o.Wakes) (h : ArchivedWith turns m) :
    ArchivedWith turns (m.op o) := by
  cases o with
  | apply seq event origin =>
    cases origin with
    | live => exact apply_live_of_not_wakes ho h
    | replay => exact h
  | setSession sessionId => exact h
  | markResumed =>
    have hstate : m.state ≠ .interrupted := by rw [h.1]; decide
    rw [op, markResumed, if_neg hstate]
    exact h
  | markInterrupted => exact absurd trivial ho
  | archive => exact ⟨rfl, h.2⟩

/-- The others are gone from the archive at once. -/
theorem not_wakes_of_archived (h : (m.op o).state = .archived) : ¬ o.Wakes := by
  intro ho
  cases o with
  | apply seq event origin =>
    cases origin with
    | replay => exact ho
    | live =>
      cases event with
      | stateChanged changed =>
        obtain ⟨state⟩ := changed
        cases state <;> exact nomatch h
      | permissionRequested request => exact nomatch h
      | error code message retryable => exact nomatch h
      | _ => exact nomatch ho
  | markInterrupted => exact nomatch h
  | _ => exact ho

/-- Every call is enabled, so that a condition on the calls is one on the list of them. -/
theorem meets_step_iff {P : Op → Prop} (m : ThreadMachine) (ops : List Op) :
    Meets step (fun _ o => P o) m ops ↔ ∀ o ∈ ops, P o := by
  induction ops generalizing m with
  | nil => simp [Meets]
  | cons o ops ih => simp [Meets, step, ih]

/-- After `archive`, the thread stays archived and gets no new turn exactly as long as none of
these calls comes. -/
theorem archived_final_iff (m : ThreadMachine) (ops : List Op) :
    Always step (fun m' => m'.state = .archived ∧ m'.turns = m.turns) m.archive ops ↔
      ∀ o ∈ ops, ¬ o.Wakes := by
  rw [← meets_step_iff m.archive ops]
  refine always_iff_meets (I := ArchivedWith m.turns) (fun _ h => h) ?_ ?_ (archivedWith_archive m)
  · intro s o t hs ho ht
    obtain rfl := Option.some.inj ht
    exact op_of_not_wakes ho hs
  · intro s o t hs ht hP
    obtain rfl := Option.some.inj ht
    exact not_wakes_of_archived hP.1

/-- The agent goes on with a turn of an archived thread. -/
theorem running_leaves_archive :
    let m := (ThreadMachine.new "t").archive
    (m.apply 0 (.stateChanged ⟨.running⟩) .live).state = .running ∧
    (m.apply 0 (.stateChanged ⟨.running⟩) .live).turns ≠ m.turns := by
  decide

end Tethys.Thread
