import Mathlib.Data.List.Basic
import Mathlib.Tactic.Common

/-!
# Runs of deterministic partial machines

A machine is a step function `σ → α → Option σ`: `none` means that the action is not
enabled. `run` folds a list of actions. `Always` speaks about every state of a run,
`Meets` about every step of it. The rules below turn one step lemma into a statement
about whole runs; `always_iff_meets` is the exact form, for a step condition whose
failure shows in the very next state.
-/

namespace Tethys.Lib

universe u v
variable {σ : Type u} {α : Type v} {step : σ → α → Option σ}

/-- Execute a list of actions, stopping at the first one that is not enabled. -/
def run (step : σ → α → Option σ) : σ → List α → Option σ
  | s, [] => some s
  | s, a :: as => (step s a).bind fun t => run step t as

@[simp] theorem run_nil (s : σ) : run step s [] = some s := rfl

theorem run_cons (s : σ) (a : α) (as : List α) :
    run step s (a :: as) = (step s a).bind fun t => run step t as := rfl

theorem run_cons_eq_some {s u : σ} {a : α} {as : List α} :
    run step s (a :: as) = some u ↔ ∃ t, step s a = some t ∧ run step t as = some u := by
  simp [run_cons, Option.bind_eq_some_iff]

theorem run_append (s : σ) (as bs : List α) :
    run step s (as ++ bs) = (run step s as).bind fun t => run step t bs := by
  induction as generalizing s with
  | nil => rfl
  | cons a as ih =>
    simp only [List.cons_append, run_cons, Option.bind_assoc]
    congr 1
    funext t
    exact ih t

/-- `P` holds in every state of the run, the first and the last included. -/
def Always (step : σ → α → Option σ) (P : σ → Prop) : σ → List α → Prop
  | s, [] => P s
  | s, a :: as => P s ∧ ∀ t, step s a = some t → Always step P t as

/-- Every enabled action of the run meets `ok` in the state it is taken from. -/
def Meets (step : σ → α → Option σ) (ok : σ → α → Prop) : σ → List α → Prop
  | _, [] => True
  | s, a :: as => ∀ t, step s a = some t → ok s a ∧ Meets step ok t as

instance Always.decidable (P : σ → Prop) [DecidablePred P] :
    (s : σ) → (as : List α) → Decidable (Always step P s as)
  | s, [] => inferInstanceAs (Decidable (P s))
  | s, a :: as =>
    match h : step s a with
    | none => decidable_of_iff (P s) (by simp [Always, h])
    | some t =>
      have := Always.decidable P t as
      decidable_of_iff (P s ∧ Always step P t as) (by simp [Always, h])

instance Meets.decidable (ok : σ → α → Prop) [∀ s a, Decidable (ok s a)] :
    (s : σ) → (as : List α) → Decidable (Meets step ok s as)
  | _, [] => isTrue trivial
  | s, a :: as =>
    match h : step s a with
    | none => isTrue (by simp [Meets, h])
    | some t =>
      have := Meets.decidable ok t as
      decidable_of_iff (ok s a ∧ Meets step ok t as) (by simp [Meets, h])

theorem Always.head {P : σ → Prop} {s : σ} {as : List α} (h : Always step P s as) : P s := by
  cases as with
  | nil => exact h
  | cons a as => exact h.1

theorem Always.imp {P Q : σ → Prop} {s : σ} {as : List α} (h : Always step P s as)
    (himp : ∀ s, P s → Q s) : Always step Q s as := by
  induction as generalizing s with
  | nil => exact himp s h
  | cons a as ih => exact ⟨himp s h.1, fun t ht => ih (h.2 t ht)⟩

theorem Always.last {P : σ → Prop} {s u : σ} {as : List α} (h : Always step P s as)
    (hr : run step s as = some u) : P u := by
  induction as generalizing s with
  | nil =>
    obtain rfl : s = u := by simpa using hr
    exact h
  | cons a as ih =>
    obtain ⟨t, ht, hu⟩ := run_cons_eq_some.mp hr
    exact ih (h.2 t ht) hu

theorem Meets.last {ok : σ → α → Prop} {s t u : σ} {a : α} {as : List α}
    (h : Meets step ok s (as ++ [a])) (hr : run step s as = some t) (ht : step t a = some u) :
    ok t a := by
  induction as generalizing s with
  | nil =>
    obtain rfl : s = t := by simpa using hr
    exact (h u ht).1
  | cons b as ih =>
    obtain ⟨r, hb, hr⟩ := run_cons_eq_some.mp hr
    exact ih (h r hb).2 hr

/-- The invariant rule without a condition on the steps. -/
theorem invariant_of_run {I : σ → Prop} {s u : σ} {as : List α}
    (pres : ∀ s a t, I s → step s a = some t → I t)
    (hs : I s) (hr : run step s as = some u) : I u := by
  induction as generalizing s with
  | nil =>
    obtain rfl : s = u := by simpa using hr
    exact hs
  | cons a as ih =>
    obtain ⟨t, ht, hu⟩ := run_cons_eq_some.mp hr
    exact ih (pres s a t hs ht) hu

/-- An invariant kept by the good steps gives a property of every state. -/
theorem always_of_meets {I P : σ → Prop} {ok : σ → α → Prop} {s : σ} {as : List α}
    (imp : ∀ s, I s → P s) (pres : ∀ s a t, I s → ok s a → step s a = some t → I t)
    (hs : I s) (hm : Meets step ok s as) : Always step P s as := by
  induction as generalizing s with
  | nil => exact imp s hs
  | cons a as ih =>
    exact ⟨imp s hs, fun t ht => ih (pres s a t hs (hm t ht).1 ht) (hm t ht).2⟩

/-- The same without a condition on the steps. -/
theorem always_of_run {I P : σ → Prop} {s : σ} {as : List α} (imp : ∀ s, I s → P s)
    (pres : ∀ s a t, I s → step s a = some t → I t) (hs : I s) : Always step P s as := by
  induction as generalizing s with
  | nil => exact imp s hs
  | cons a as ih => exact ⟨imp s hs, fun t ht => ih (pres s a t hs ht)⟩

/-- A property of every step follows from an invariant kept by the good steps. -/
theorem meets_of_meets {I : σ → Prop} {ok Q : σ → α → Prop} {s : σ} {as : List α}
    (imp : ∀ s a t, I s → ok s a → step s a = some t → Q s a)
    (pres : ∀ s a t, I s → ok s a → step s a = some t → I t)
    (hs : I s) (hm : Meets step ok s as) : Meets step Q s as := by
  induction as generalizing s with
  | nil => trivial
  | cons a as ih =>
    intro t ht
    exact ⟨imp s a t hs (hm t ht).1 ht, ih (pres s a t hs (hm t ht).1 ht) (hm t ht).2⟩

/-- The exact rule: if a bad step breaks `P` in the state it leads to, then `P` holds
along a run if and only if all its steps are good. -/
theorem always_iff_meets {I P : σ → Prop} {ok : σ → α → Prop} {s : σ} {as : List α}
    (imp : ∀ s, I s → P s) (pres : ∀ s a t, I s → ok s a → step s a = some t → I t)
    (sharp : ∀ s a t, I s → step s a = some t → P t → ok s a) (hs : I s) :
    Always step P s as ↔ Meets step ok s as := by
  refine ⟨fun h => ?_, always_of_meets imp pres hs⟩
  induction as generalizing s with
  | nil => trivial
  | cons a as ih =>
    intro t ht
    have good := sharp s a t hs ht (h.2 t ht).head
    exact ⟨good, ih (pres s a t hs good ht) (h.2 t ht)⟩

end Tethys.Lib
