import Mathlib.Data.List.Basic
import Mathlib.Tactic.Common

/-!
# Batches of steps

The steps of a batch are made one after the other until one is refused; what was made before that
stays. Each step has a place of its own and changes nothing elsewhere. `whole_iff` says when a batch
is made as a whole or not at all.
-/

namespace Tethys.Lib

variable {ι σ κ α ε : Type*}

/-- Steps that have a place in the state. -/
structure Batch (ι σ κ α ε : Type*) where
  step : ι → σ → Except ε σ
  place : ι → κ
  get : σ → κ → α
  ext : ∀ {s t}, (∀ k, get s k = get t k) → s = t
  frame : ∀ {i s t}, step i s = .ok t → ∀ k, k ≠ place i → get t k = get s k

namespace Batch
variable (B : Batch ι σ κ α ε) (meets : ι → α → Prop)

/-- The steps up to the first one that is refused. -/
def run : List ι → σ → Except ε Unit × σ
  | [], s => (.ok (), s)
  | i :: is, s =>
    match B.step i s with
    | .ok t => run is t
    | .error e => (.error e, s)

/-- Each place has what its step is meant to leave there, and the others are as they were. -/
def Made (is : List ι) (s t : σ) : Prop :=
  (∀ i ∈ is, meets i (B.get t (B.place i))) ∧ ∀ k, k ∉ is.map B.place → B.get t k = B.get s k

/-- All steps are made, or an error leaves the state as it was. -/
def Whole (is : List ι) (s : σ) : Prop :=
  match B.run is s with
  | (.ok _, t) => B.Made meets is s t
  | (.error _, t) => t = s

/-- Each step is made, and leaves what it is meant to. -/
def Every : List ι → σ → Prop
  | [], _ => True
  | i :: is, s => ∃ t, B.step i s = .ok t ∧ meets i (B.get t (B.place i)) ∧ Every is t

/-- A step is refused before any step changes something. -/
def Barred : List ι → σ → Prop
  | [], _ => False
  | i :: is, s => (∃ e, B.step i s = .error e) ∨ B.step i s = .ok s ∧ Barred is s

section Run
variable {B meets} {i : ι} {is : List ι} {s t : σ} {e : ε}

theorem run_cons_ok (h : B.step i s = .ok t) : B.run (i :: is) s = B.run is t := by
  rw [run, h]

theorem run_cons_error (h : B.step i s = .error e) : B.run (i :: is) s = (.error e, s) := by
  rw [run, h]

/-- A run changes the places of its steps only. -/
theorem get_run {k : κ} (hk : k ∉ is.map B.place) : B.get (B.run is s).2 k = B.get s k := by
  induction is generalizing s with
  | nil => rfl
  | cons i is ih =>
    rw [List.map_cons, List.mem_cons, not_or] at hk
    cases hstep : B.step i s with
    | ok t => rw [run_cons_ok hstep, ih hk.2, B.frame hstep k hk.1]
    | error e => rw [run_cons_error hstep]

/-- As the places differ, what a step leaves is there in the end. -/
theorem every_iff (hplaces : (is.map B.place).Nodup) : B.Every meets is s ↔
    (B.run is s).1 = .ok () ∧ ∀ i ∈ is, meets i (B.get (B.run is s).2 (B.place i)) := by
  induction is generalizing s with
  | nil => simp [Every, run]
  | cons i is ih =>
    rw [List.map_cons, List.nodup_cons] at hplaces
    cases hstep : B.step i s with
    | ok t =>
      have hkept : B.get (B.run is t).2 (B.place i) = B.get t (B.place i) := get_run hplaces.1
      rw [run_cons_ok hstep, List.forall_mem_cons, hkept]
      simp only [Every, hstep, Except.ok.injEq, exists_eq_left', ih hplaces.2]
      tauto
    | error e =>
      rw [run_cons_error hstep]
      simp [Every, hstep]

/-- and what it changes is not undone by the others. -/
theorem barred_iff (hplaces : (is.map B.place).Nodup) :
    B.Barred is s ↔ (∃ e, (B.run is s).1 = .error e) ∧ (B.run is s).2 = s := by
  induction is generalizing s with
  | nil => simp [Barred, run]
  | cons i is ih =>
    rw [List.map_cons, List.nodup_cons] at hplaces
    cases hstep : B.step i s with
    | error e =>
      rw [run_cons_error hstep]
      simp [Barred, hstep]
    | ok t =>
      rw [run_cons_ok hstep]
      have hsame : (B.run is t).2 = s → t = s := fun hend => B.ext fun k => by
        by_cases hk : k = B.place i
        · have hkept : B.get (B.run is t).2 (B.place i) = B.get t (B.place i) := get_run hplaces.1
          rw [hk, ← hkept, hend]
        · exact B.frame hstep k hk
      simp only [Barred, hstep, reduceCtorEq, exists_false, false_or, Except.ok.injEq]
      constructor
      · rintro ⟨rfl, hrest⟩
        exact (ih hplaces.2).mp hrest
      · rintro ⟨herror, hend⟩
        obtain rfl := hsame hend
        exact ⟨rfl, (ih hplaces.2).mpr ⟨herror, hend⟩⟩

/-- A batch is made as a whole or not at all if and only if each step is made and leaves what it is
meant to, or one is refused before anything is changed. -/
theorem whole_iff (hplaces : (is.map B.place).Nodup) :
    B.Whole meets is s ↔ B.Every meets is s ∨ B.Barred is s := by
  have hframe : ∀ k, k ∉ is.map B.place → B.get (B.run is s).2 k = B.get s k := fun k hk => get_run hk
  rw [every_iff hplaces, barred_iff hplaces, Whole]
  rcases hrun : B.run is s with ⟨r, t⟩
  rw [hrun] at hframe
  cases r with
  | ok u => simp only [Made, true_and, reduceCtorEq, exists_false, false_and, or_false]; tauto
  | error e => simp

end Run

end Batch

end Tethys.Lib
