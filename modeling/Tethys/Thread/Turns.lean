import Tethys.Thread.State

/-!
# Turn bracketing

At most one turn is open, none is open while the thread rests, and a stop reason lands on
the turn that was started last. The machine opens a turn on every live `running` that does
not find it `running` already, so a `running` that arrives while it waits for an approval,
or sits in `error` or `archived`, opens a second turn on top of the open one.
`bracketing_iff_no_reopening` says that this is the only way to lose the brackets.
-/

namespace Tethys.Thread

open Schema Lib ThreadMachine

def TurnRecord.Open (turn : TurnRecord) : Prop := turn.endedSeq = none

instance (turn : TurnRecord) : Decidable turn.Open :=
  inferInstanceAs (Decidable (turn.endedSeq = none))

def ThreadMachine.openTurns (m : ThreadMachine) : List TurnRecord :=
  m.turns.filter (·.Open)

/-- At most one turn is open, and none while the thread is idle or interrupted. -/
def Bracketed (m : ThreadMachine) : Prop :=
  m.openTurns.length ≤ 1 ∧ (m.state = .idle ∨ m.state = .interrupted → m.openTurns = [])

/-- A live `idle` closes the turn that was started last, with its own stop reason, and
touches no older turn; when no turn is open there is nothing to record. -/
def StopReasonOnLast (m : ThreadMachine) : Op → Prop
  | .apply seq (.stateChanged ⟨.idle stopReason⟩) .live =>
    let after := (m.apply seq (.stateChanged ⟨.idle stopReason⟩) .live).turns
    (∀ older last, m.turns = older ++ [last] → m.openTurns ≠ [] →
      after = older ++ [{ last with endedSeq := some seq, stopReason := stopReason }]) ∧
    (m.openTurns = [] → after = m.turns)
  | _ => True

/-- The step that goes wrong: a live `running` that finds an open turn but a thread state
other than `running`. -/
def ReopensTurn (m : ThreadMachine) : Op → Prop
  | .apply _ (.stateChanged ⟨.running⟩) .live => m.state ≠ .running ∧ m.openTurns ≠ []
  | _ => False

/-! ## Closing a turn -/

/-- Only the last turn of the list may be open. -/
def OpenOnlyLast (turns : List TurnRecord) : Prop := ∀ turn ∈ turns.dropLast, ¬ turn.Open

theorem endTurn_cons_closed {turn : TurnRecord} (seq : Nat) (stopReason : Option StopReason)
    (turns : List TurnRecord) (h : ¬ turn.Open) :
    endTurn seq stopReason (turn :: turns) = turn :: endTurn seq stopReason turns := by
  have hsome : ¬ turn.endedSeq.isNone := by simpa [TurnRecord.Open] using h
  rw [endTurn, if_neg hsome]

theorem endTurn_of_closed {turns : List TurnRecord} (seq : Nat) (stopReason : Option StopReason)
    (h : ∀ turn ∈ turns, ¬ turn.Open) : endTurn seq stopReason turns = turns := by
  induction turns with
  | nil => rfl
  | cons turn turns ih =>
    rw [List.forall_mem_cons] at h
    rw [endTurn_cons_closed seq stopReason turns h.1, ih h.2]

theorem endTurn_append {older : List TurnRecord} {last : TurnRecord} (seq : Nat)
    (stopReason : Option StopReason) (h : ∀ turn ∈ older, ¬ turn.Open) (hl : last.Open) :
    endTurn seq stopReason (older ++ [last]) =
      older ++ [{ last with endedSeq := some seq, stopReason := stopReason }] := by
  induction older with
  | nil =>
    have hnone : last.endedSeq.isNone := by simpa [TurnRecord.Open] using hl
    simp [endTurn, hnone]
  | cons turn older ih =>
    rw [List.forall_mem_cons] at h
    rw [List.cons_append, endTurn_cons_closed seq stopReason _ h.1, ih h.2, List.cons_append]

theorem closed_append {older : List TurnRecord} {last : TurnRecord}
    (h : OpenOnlyLast (older ++ [last])) : ∀ turn ∈ older, ¬ turn.Open := by
  simpa [OpenOnlyLast] using h

/-- Closing the only turn that can be open leaves none open. -/
theorem endTurn_closed {turns : List TurnRecord} (seq : Nat) (stopReason : Option StopReason)
    (h : OpenOnlyLast turns) : ∀ turn ∈ endTurn seq stopReason turns, ¬ turn.Open := by
  rcases List.eq_nil_or_concat turns with rfl | ⟨older, last, rfl⟩
  · simp [endTurn]
  · rw [List.concat_eq_append] at h ⊢
    have hold := closed_append h
    by_cases hl : last.Open
    · rw [endTurn_append seq stopReason hold hl]
      intro turn hturn
      rcases List.mem_append.mp hturn with ht | ht
      · exact hold turn ht
      · obtain rfl := List.mem_singleton.mp ht
        simp [TurnRecord.Open]
    · have hall : ∀ turn ∈ older ++ [last], ¬ turn.Open := by
        intro turn hturn
        rcases List.mem_append.mp hturn with ht | ht
        · exact hold turn ht
        · exact List.mem_singleton.mp ht ▸ hl
      rwa [endTurn_of_closed seq stopReason hall]

theorem OpenOnlyLast.of_closed {turns : List TurnRecord} (h : ∀ turn ∈ turns, ¬ turn.Open) :
    OpenOnlyLast turns := fun turn ht => h turn (List.dropLast_subset _ ht)

theorem openTurns_eq_nil {m : ThreadMachine} :
    m.openTurns = [] ↔ ∀ turn ∈ m.turns, ¬ turn.Open := by
  simp [openTurns, List.filter_eq_nil_iff]

/-! ## The invariant -/

/-- The brackets in the form a step keeps: the open turn, if any, is the last one. -/
structure TurnsInv (m : ThreadMachine) : Prop where
  last : OpenOnlyLast m.turns
  resting : m.state = .idle ∨ m.state = .interrupted → ∀ turn ∈ m.turns, ¬ turn.Open

theorem TurnsInv.new (id : String) : TurnsInv (ThreadMachine.new id) :=
  ⟨by simp [OpenOnlyLast, ThreadMachine.new], by simp [ThreadMachine.new]⟩

theorem TurnsInv.bracketed {m : ThreadMachine} (h : TurnsInv m) : Bracketed m := by
  refine ⟨?_, fun hs => openTurns_eq_nil.mpr (h.resting hs)⟩
  have hlast := h.last
  unfold openTurns
  rcases List.eq_nil_or_concat m.turns with ht | ⟨older, last, ht⟩
  · simp [ht]
  · rw [List.concat_eq_append] at ht
    rw [ht] at hlast ⊢
    have hold : older.filter (·.Open) = [] := by
      simpa [List.filter_eq_nil_iff] using closed_append hlast
    rw [List.filter_append, hold, List.nil_append]
    exact Nat.le_trans (List.length_filter_le _ _) (by simp)

/-- Closing a turn and moving to any state restores the invariant. -/
theorem TurnsInv.close {m m' : ThreadMachine} (h : TurnsInv m) (seq : Nat)
    (stopReason : Option StopReason) (ht : m'.turns = endTurn seq stopReason m.turns) :
    TurnsInv m' := by
  have hclosed := endTurn_closed seq stopReason h.last
  rw [← ht] at hclosed
  exact ⟨.of_closed hclosed, fun _ => hclosed⟩

/-- A step that keeps the turns keeps the invariant, unless it comes to rest. -/
theorem TurnsInv.same_turns {m m' : ThreadMachine} (h : TurnsInv m) (ht : m'.turns = m.turns)
    (hs : m'.state = .idle ∨ m'.state = .interrupted → m.state = .idle ∨ m.state = .interrupted) :
    TurnsInv m' :=
  ⟨ht ▸ h.last, fun hm' => ht ▸ h.resting (hs hm')⟩

/-- A live `running` keeps the invariant when it does not open a second turn. -/
theorem TurnsInv.running {m : ThreadMachine} (h : TurnsInv m) (seq : Nat)
    (ok : ¬ (m.state ≠ .running ∧ m.openTurns ≠ [])) :
    TurnsInv (m.apply seq (.stateChanged ⟨.running⟩) .live) := by
  refine ⟨?_, by simp [ThreadMachine.apply]⟩
  by_cases hr : m.state = .running
  · simpa [ThreadMachine.apply, hr] using h.last
  · have hnil : m.openTurns = [] := by
      by_contra hne
      exact ok ⟨hr, hne⟩
    have hclosed := openTurns_eq_nil.mp hnil
    simpa [ThreadMachine.apply, hr, OpenOnlyLast] using hclosed

theorem TurnsInv.apply {m : ThreadMachine} (h : TurnsInv m) (seq : Nat) (event : TurnEventBody)
    (origin : EventOrigin) (ok : ¬ ReopensTurn m (.apply seq event origin)) :
    TurnsInv (m.apply seq event origin) := by
  cases origin with
  | replay => exact h.same_turns rfl id
  | live =>
    cases event with
    | stateChanged changed =>
      obtain ⟨state⟩ := changed
      cases state with
      | running => exact h.running seq ok
      | idle stopReason => exact h.close seq stopReason rfl
      | requiresAction => exact h.same_turns rfl (by simp [ThreadMachine.apply])
    | permissionRequested request => exact h.same_turns rfl (by simp [ThreadMachine.apply])
    | permissionResolved reqId outcome decidedBy =>
      refine h.same_turns rfl fun hs => ?_
      by_cases ha : m.state = .awaitingApproval <;> simp_all [ThreadMachine.apply]
    | error code message retryable => exact h.same_turns rfl (by simp [ThreadMachine.apply])
    | _ => exact h.same_turns rfl id

theorem TurnsInv.op {m : ThreadMachine} (h : TurnsInv m) (o : Op) (ok : ¬ ReopensTurn m o) :
    TurnsInv (m.op o) := by
  cases o with
  | apply seq event origin => exact h.apply seq event origin ok
  | setSession sessionId => exact h.same_turns rfl id
  | markResumed =>
    show TurnsInv m.markResumed
    unfold markResumed
    split_ifs with hi
    · exact h.same_turns rfl fun _ => .inr hi
    · exact h
  | markInterrupted => exact h.close m.latestSeq (some .error) rfl
  | archive => exact h.same_turns rfl (by simp [ThreadMachine.op, ThreadMachine.archive])

/-- A second open turn is visible at once: two turns are open after the bad step. -/
theorem not_bracketed_of_reopens {m : ThreadMachine} {o : Op} (bad : ReopensTurn m o) :
    ¬ Bracketed (m.op o) := by
  match o, bad with
  | .apply seq (.stateChanged ⟨.running⟩) .live, ⟨hstate, hopen⟩ =>
    intro hb
    have hlen := hb.1
    have hpos := List.length_pos_iff.mpr hopen
    have hadd : (m.op (.apply seq (.stateChanged ⟨.running⟩) .live)).openTurns.length =
        m.openTurns.length + 1 := by
      simp [ThreadMachine.op, ThreadMachine.apply, openTurns, hstate, TurnRecord.Open]
    omega

/-- Under the invariant the stop reason of a live `idle` lands on the last turn. -/
theorem TurnsInv.stopReasonOnLast {m : ThreadMachine} (h : TurnsInv m) (o : Op) :
    StopReasonOnLast m o := by
  unfold StopReasonOnLast
  split
  · rename_i seq stopReason
    refine ⟨?_, ?_⟩
    · intro older last ht hopen
      have hl := h.last
      rw [ht] at hl
      have hold := closed_append hl
      have hlast : last.Open := by
        by_contra hc
        refine hopen (openTurns_eq_nil.mpr fun turn hturn => ?_)
        rw [ht] at hturn
        rcases List.mem_append.mp hturn with hm | hm
        · exact hold turn hm
        · exact List.mem_singleton.mp hm ▸ hc
      calc (m.apply seq (.stateChanged ⟨.idle stopReason⟩) .live).turns
          = endTurn seq stopReason (older ++ [last]) := by rw [← ht]; rfl
        _ = _ := endTurn_append seq stopReason hold hlast
    · intro hnil
      exact endTurn_of_closed seq stopReason (openTurns_eq_nil.mp hnil)
  · trivial

/-! ## Whole runs -/

/-- Over every run from a fresh machine, the brackets hold in every state and every stop
reason lands on the last turn exactly when no live `running` finds an open turn in a
thread that is not `running`. -/
theorem bracketing_iff_no_reopening (id : String) (ops : List Op) :
    (Always step Bracketed (ThreadMachine.new id) ops ∧
      Meets step StopReasonOnLast (ThreadMachine.new id) ops) ↔
    Meets step (fun m o => ¬ ReopensTurn m o) (ThreadMachine.new id) ops := by
  have pres : ∀ m o m', TurnsInv m → ¬ ReopensTurn m o → step m o = some m' → TurnsInv m' := by
    intro m o m' hi ok hm
    cases hm
    exact hi.op o ok
  have sharp : ∀ m o m', TurnsInv m → step m o = some m' → Bracketed m' → ¬ ReopensTurn m o := by
    intro m o m' _ hm hb bad
    cases hm
    exact not_bracketed_of_reopens bad hb
  have init := TurnsInv.new id
  rw [always_iff_meets (fun m => TurnsInv.bracketed) pres sharp init]
  refine ⟨And.left, fun hm => ⟨hm, ?_⟩⟩
  exact meets_of_meets (fun m o _ hi _ _ => hi.stopReasonOnLast o) pres init hm

/-- A v2 agent that asks for an action in the middle of a turn and then runs on: the second
`running` opens a second turn, the closing `idle` writes its stop reason on the first one
and comes to rest with the second turn still open. -/
theorem requiresAction_splits_turn :
    let ops : List Op := [
      .apply 0 (.stateChanged ⟨.running⟩) .live,
      .apply 1 (.stateChanged ⟨.requiresAction⟩) .live,
      .apply 2 (.stateChanged ⟨.running⟩) .live,
      .apply 3 (.stateChanged ⟨.idle (some .endTurn)⟩) .live]
    ¬ (Always step Bracketed (ThreadMachine.new "t") ops ∧
      Meets step StopReasonOnLast (ThreadMachine.new "t") ops) ∧
    (run step (ThreadMachine.new "t") ops).map (fun m => (m.state, m.turns)) =
      some (.idle, [⟨0, 0, some 3, some .endTurn⟩, ⟨1, 2, none, none⟩]) := by
  refine ⟨fun h => ?_, by decide⟩
  have hlast := h.1.last (u := (ThreadMachine.new "t").op (.apply 0 (.stateChanged ⟨.running⟩) .live)
    |>.op (.apply 1 (.stateChanged ⟨.requiresAction⟩) .live)
    |>.op (.apply 2 (.stateChanged ⟨.running⟩) .live)
    |>.op (.apply 3 (.stateChanged ⟨.idle (some .endTurn)⟩) .live)) rfl
  have hnone := hlast.2 (.inl (by decide))
  revert hnone
  decide

end Tethys.Thread
