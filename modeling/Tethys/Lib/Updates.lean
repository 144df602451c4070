import Mathlib.Data.List.Perm.Basic
import Tethys.Lib.Runs

/-!
# Calls that read a value, change it and write it back

Any number of calls share one value. A call reads it, decides what to do, and may write a new
value later; others can write in between. `Serial` says that the value is what the
acknowledged calls leave when each of them runs alone, in some order. `inOrder_iff` gives the
exact condition for the order in which the calls took effect.
-/

namespace Tethys.Lib

/-- Where a call is: before its read, before its write, or returned. -/
inductive Stage (σ ε ρ : Type) where
  | reading
  | writing (next : σ) (reply : ρ)
  | returned (result : Except ε ρ)

/-- The shared value, the calls in the order in which they came, and the acknowledged ones in
the order in which they took effect. -/
structure Updating (σ υ ε ρ : Type) where
  value : σ
  callers : List (υ × Stage σ ε ρ) := []
  order : List υ := []

inductive UpdateAct (υ ε : Type) where
  | call (u : υ)
  | read (i : Nat)
  | write (i : Nat)
  /-- The read or the write fails, and the call returns the error. -/
  | fail (i : Nat) (error : ε)

namespace Updating

variable {σ υ ε ρ : Type}

/-- The call, if it has returned without an error. -/
def acked : υ × Stage σ ε ρ → List υ
  | (u, .returned (.ok _)) => [u]
  | _ => []

def acknowledged (s : Updating σ υ ε ρ) : List υ := s.callers.flatMap acked

variable (afterRead : υ → σ → Stage σ ε ρ)

/-- The steps of the calls. `afterRead` is what a call does with the value that it reads; a
call that returns at once has taken effect there. -/
def step (s : Updating σ υ ε ρ) : UpdateAct υ ε → Option (Updating σ υ ε ρ)
  | .call u => some { s with callers := s.callers ++ [(u, .reading)] }
  | .read i =>
    match s.callers[i]? with
    | some (u, .reading) =>
      let caller := (u, afterRead u s.value)
      some { s with callers := s.callers.set i caller, order := s.order ++ acked caller }
    | _ => none
  | .write i =>
    match s.callers[i]? with
    | some (u, .writing next reply) =>
      some ⟨next, s.callers.set i (u, .returned (.ok reply)), s.order ++ [u]⟩
    | _ => none
  | .fail i error =>
    match s.callers[i]? with
    | some (u, .reading) | some (u, .writing _ _) =>
      some { s with callers := s.callers.set i (u, .returned (.error error)) }
    | _ => none

/-- The value after a call that runs alone. -/
def alone (value : σ) (u : υ) : σ :=
  match afterRead u value with
  | .writing next _ => next
  | _ => value

/-- The acknowledged calls, one after the other in some order, leave the value. -/
def Serial (start : σ) (s : Updating σ υ ε ρ) : Prop :=
  ∃ order : List υ, order.Perm s.acknowledged ∧ order.foldl (alone afterRead) start = s.value

/-- The acknowledged calls leave the value in the order in which they took effect. -/
def InOrder (start : σ) (s : Updating σ υ ε ρ) : Prop :=
  s.order.Perm s.acknowledged ∧ s.order.foldl (alone afterRead) start = s.value

/-- A write puts down what the call would leave if it ran now. -/
def Current (s : Updating σ υ ε ρ) : UpdateAct υ ε → Prop
  | .write i => ∀ u next reply, s.callers[i]? = some (u, .writing next reply) →
      next = alone afterRead s.value u
  | _ => True

/-- What holds of the value to be written and the present value, for every call that is about
to write. -/
def AllHeld (Held : υ → σ → σ → Prop) (s : Updating σ υ ε ρ) : Prop :=
  ∀ u next reply, (u, .writing next reply) ∈ s.callers → Held u next s.value

variable {afterRead} {s t : Updating σ υ ε ρ} {a : UpdateAct υ ε} {start : σ}

theorem InOrder.serial (h : InOrder afterRead start s) : Serial afterRead start s :=
  ⟨s.order, h.1, h.2⟩

/-- A call arrives, reads, writes, or fails. -/
theorem step_cases (h : step afterRead s a = some t) :
    (∃ u, a = .call u ∧ t = { s with callers := s.callers ++ [(u, .reading)] }) ∨
    (∃ i u, a = .read i ∧ s.callers[i]? = some (u, .reading) ∧
      t = ⟨s.value, s.callers.set i (u, afterRead u s.value),
        s.order ++ acked (u, afterRead u s.value)⟩) ∨
    (∃ i u next reply, a = .write i ∧ s.callers[i]? = some (u, .writing next reply) ∧
      t = ⟨next, s.callers.set i (u, .returned (.ok reply)), s.order ++ [u]⟩) ∨
    ∃ i u stage error, a = .fail i error ∧ s.callers[i]? = some (u, stage) ∧
      acked (u, stage) = [] ∧
      t = ⟨s.value, s.callers.set i (u, .returned (.error error)), s.order⟩ := by
  cases a with
  | call u => exact .inl ⟨u, rfl, (Option.some.inj h).symm⟩
  | read i =>
    simp only [step] at h
    split at h
    · next u hget => exact .inr (.inl ⟨i, u, rfl, hget, (Option.some.inj h).symm⟩)
    · cases h
  | write i =>
    simp only [step] at h
    split at h
    · next u next reply hget =>
      exact .inr (.inr (.inl ⟨i, u, next, reply, rfl, hget, (Option.some.inj h).symm⟩))
    · cases h
  | fail i error =>
    simp only [step] at h
    split at h
    · next u hget =>
      exact .inr (.inr (.inr ⟨i, u, _, error, rfl, hget, rfl, (Option.some.inj h).symm⟩))
    · next u next reply hget =>
      exact .inr (.inr (.inr ⟨i, u, _, error, rfl, hget, rfl, (Option.some.inj h).symm⟩))
    · cases h

/-- A call that is answered joins the acknowledged ones. -/
theorem acknowledged_set {callers : List (υ × Stage σ ε ρ)} {i : Nat} {c : υ × Stage σ ε ρ}
    (h : callers[i]? = some c) (hc : acked c = []) (c' : υ × Stage σ ε ρ) :
    ((callers.set i c').flatMap acked).Perm (callers.flatMap acked ++ acked c') := by
  induction callers generalizing i with
  | nil => simp at h
  | cons d callers ih =>
    cases i with
    | zero =>
      obtain rfl : d = c := by simpa using h
      simpa [hc] using List.perm_append_comm
    | succ i =>
      have h : callers[i]? = some c := by simpa using h
      simpa using (ih h).append_left (acked d)

theorem perm_step (h : step afterRead s a = some t) (hs : s.order.Perm s.acknowledged) :
    t.order.Perm t.acknowledged := by
  obtain ⟨u, -, rfl⟩ | ⟨i, u, -, hget, rfl⟩ | ⟨i, u, next, reply, -, hget, rfl⟩ |
    ⟨i, u, stage, error, -, hget, hstage, rfl⟩ := step_cases h
  · simpa [acknowledged, acked] using hs
  · exact (hs.append_right _).trans (acknowledged_set hget rfl _).symm
  · have hset := acknowledged_set hget rfl (u, .returned (.ok reply))
    exact (hs.append_right [u]).trans hset.symm
  · have hset := acknowledged_set hget hstage (u, .returned (.error error))
    exact hs.trans (by simpa [acknowledged, acked] using hset.symm)

/-- A step keeps the order exactly when it is current. -/
theorem inOrder_step (h : step afterRead s a = some t) (hs : InOrder afterRead start s) :
    InOrder afterRead start t ↔ Current afterRead s a := by
  have hperm := perm_step h hs.1
  obtain ⟨u, rfl, rfl⟩ | ⟨i, u, rfl, hget, rfl⟩ | ⟨i, u, next, reply, rfl, hget, rfl⟩ |
    ⟨i, u, stage, error, rfl, hget, -, rfl⟩ := step_cases h
  · exact ⟨fun _ => trivial, fun _ => ⟨hperm, hs.2⟩⟩
  · refine ⟨fun _ => trivial, fun _ => ⟨hperm, ?_⟩⟩
    change (s.order ++ acked (u, afterRead u s.value)).foldl (alone afterRead) start = s.value
    rw [List.foldl_append, hs.2]
    -- a call that returns at once leaves the value when it runs alone
    cases hread : afterRead u s.value with
    | reading => rfl
    | writing next reply => rfl
    | returned result =>
      cases result with
      | error error => rfl
      | ok reply => simp [acked, alone, hread]
  · have hfold : (s.order ++ [u]).foldl (alone afterRead) start = alone afterRead s.value u := by
      rw [List.foldl_append, hs.2]
      rfl
    constructor
    · rintro ⟨-, horder⟩ u' next' reply' hget'
      obtain ⟨rfl, hstage⟩ := Prod.mk.inj (Option.some.inj (hget.symm.trans hget'))
      obtain ⟨rfl, -⟩ := Stage.writing.inj hstage
      exact horder.symm.trans hfold
    · intro hcurrent
      exact ⟨hperm, hfold.trans (hcurrent u next reply hget).symm⟩
  · exact ⟨fun _ => trivial, fun _ => ⟨hperm, hs.2⟩⟩

/-- The calls take effect one after the other, in every state of a run, if and only if every
write of the run is current. -/
theorem inOrder_iff (start : σ) (as : List (UpdateAct υ ε)) :
    Always (step afterRead) (InOrder afterRead start) ⟨start, [], []⟩ as ↔
      Meets (step afterRead) (Current afterRead) ⟨start, [], []⟩ as :=
  always_iff_meets (fun _ h => h) (fun _ _ _ hs hcurrent h => (inOrder_step h hs).mpr hcurrent)
    (fun _ _ _ hs h ht => (inOrder_step h hs).mp ht) ⟨.nil, rfl⟩

/-- What each call establishes with its read, and every write keeps. -/
theorem allHeld_step {Held : υ → σ → σ → Prop}
    (hread : ∀ u value next reply, afterRead u value = .writing next reply → Held u next value)
    (hwrite : ∀ u next u' next' value, Held u next value → Held u' next' value →
      Held u next next')
    (h : step afterRead s a = some t) (hs : AllHeld Held s) : AllHeld Held t := by
  obtain ⟨u, -, rfl⟩ | ⟨i, u, -, hget, rfl⟩ | ⟨i, u, next', reply', -, hget, rfl⟩ |
    ⟨i, u, stage, error, -, hget, -, rfl⟩ := step_cases h <;> intro v next reply hmem
  · exact hs v next reply (by simpa using hmem)
  · rcases List.mem_or_eq_of_mem_set hmem with hmem | heq
    · exact hs v next reply hmem
    · obtain ⟨rfl, hstage⟩ := Prod.mk.inj heq
      exact hread v s.value next reply hstage.symm
  · rcases List.mem_or_eq_of_mem_set hmem with hmem | heq
    · exact hwrite v next u next' s.value (hs v next reply hmem)
        (hs u next' reply' (List.mem_of_getElem? hget))
    · cases heq
  · rcases List.mem_or_eq_of_mem_set hmem with hmem | heq
    · exact hs v next reply hmem
    · cases heq

end Updating

end Tethys.Lib
