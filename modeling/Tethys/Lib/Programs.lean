import Tethys.Lib.Runs
import Mathlib.Data.List.Forall2

/-!
# Programs over a shared state

A program is a tree: it ends with a result, or asks for an operation and goes on with the
answer. `Program.exec` runs one to its end; a `Machine` runs any number of them side by side,
one operation at a time, while the surroundings change the state too. `Safe` is the assertion
that a program keeps an invariant whatever the others do, as long as they only move the state
along `le`; `Machine.safe_of_run` puts safe programs together.
-/

namespace Tethys.Lib

/-- A program that returns a value of type `α`. -/
inductive Program (Op : Type) (Res : Op → Type) (α : Type) where
  | ret (a : α)
  | call (op : Op) (next : Res op → Program Op Res α)

variable {Op : Type} {Res : Op → Type} {α σ ε γ : Type}

/-- Run a program to its end. -/
def Program.exec (perform : (op : Op) → σ → Res op × σ) : Program Op Res α → σ → α × σ
  | .ret a, s => (a, s)
  | .call op next, s => (next (perform op s).1).exec perform (perform op s).2

/-- Programs that run side by side. -/
structure Machine (Op : Type) (Res : Op → Type) (α σ : Type) where
  shared : σ
  threads : List (Program Op Res α)

/-- The surroundings act, a program starts, or a program performs its next operation. -/
inductive Move (ε γ : Type) where
  | env (e : ε)
  | spawn (c : γ)
  | step (i : Nat)

namespace Machine

section Step
variable (perform : (op : Op) → σ → Res op × σ) (edit : ε → σ → σ) (program : γ → Program Op Res α)

def step (m : Machine Op Res α σ) : Move ε γ → Option (Machine Op Res α σ)
  | .env e => some { m with shared := edit e m.shared }
  | .spawn c => some { m with threads := m.threads ++ [program c] }
  | .step i =>
    match m.threads[i]? with
    | some (.call op next) =>
      some ⟨(perform op m.shared).2, m.threads.set i (next (perform op m.shared).1)⟩
    | _ => none

/-- A program that runs alone ends as `Program.exec` says. -/
theorem run_alone {m : Machine Op Res α σ} {i : Nat} {p : Program Op Res α}
    (h : m.threads[i]? = some p) :
    ∃ n, run (step perform edit program) m (List.replicate n (.step i)) =
      some ⟨(p.exec perform m.shared).2, m.threads.set i (.ret (p.exec perform m.shared).1)⟩ := by
  induction p generalizing m with
  | ret a =>
    refine ⟨0, ?_⟩
    have hset : m.threads.set i (.ret a) = m.threads := by
      obtain ⟨hlt, hget⟩ := List.getElem?_eq_some_iff.mp h
      rw [← hget, List.set_getElem_self]
    simp [Program.exec, hset]
  | call op next ih =>
    obtain ⟨hlt, -⟩ := List.getElem?_eq_some_iff.mp h
    let m' : Machine Op Res α σ :=
      ⟨(perform op m.shared).2, m.threads.set i (next (perform op m.shared).1)⟩
    have hget : m'.threads[i]? = some (next (perform op m.shared).1) := by simp [m', hlt]
    obtain ⟨n, hn⟩ := ih _ hget
    refine ⟨n + 1, ?_⟩
    rw [List.replicate_succ, run_cons]
    simpa [step, h, m', Program.exec] using hn

end Step

end Machine

/-! ## Safe programs -/

section Safe
variable (perform : (op : Op) → σ → Res op × σ) (I : σ → Prop) (le : σ → σ → Prop)
  (post : σ → α → Prop)

/-- From any later state with the invariant, the next operation keeps the invariant and moves
the state along `le`, and what follows is safe. -/
def Program.Safe : σ → Program Op Res α → Prop
  | s, .ret a => post s a
  | s, .call op next =>
    ∀ t, le s t → I t →
      I (perform op t).2 ∧ le t (perform op t).2 ∧
        (next (perform op t).1).Safe (perform op t).2

variable {perform I le post}

theorem Program.Safe.mono (htrans : ∀ s t u, le s t → le t u → le s u)
    (hpost : ∀ s t a, le s t → post s a → post t a) {s t : σ} {p : Program Op Res α}
    (h : p.Safe perform I le post s) (hle : le s t) : p.Safe perform I le post t := by
  cases p with
  | ret a => exact hpost s t a hle h
  | call op next => exact fun u hu hI => h u (htrans s t u hle hu) hI

/-- The invariant and the safety of every running program, along every run. -/
theorem Machine.safe_of_run {edit : ε → σ → σ} {program : γ → Program Op Res α}
    (hrefl : ∀ s, le s s) (htrans : ∀ s t u, le s t → le t u → le s u)
    (hpost : ∀ s t a, le s t → post s a → post t a)
    (hedit : ∀ e s, I s → I (edit e s) ∧ le s (edit e s))
    (hprogram : ∀ c s, I s → (program c).Safe perform I le post s)
    {s : σ} (hs : I s) (as : List (Move ε γ)) :
    Always (Machine.step perform edit program)
      (fun m => I m.shared ∧ ∀ p ∈ m.threads, p.Safe perform I le post m.shared) ⟨s, []⟩ as := by
  refine always_of_run (fun m h => h) ?_ ⟨hs, by simp⟩
  intro m a m' ⟨hI, hthreads⟩ hstep
  cases a with
  | env e =>
    obtain rfl := Option.some.inj hstep
    obtain ⟨hI', hle⟩ := hedit e m.shared hI
    exact ⟨hI', fun p hp => (hthreads p hp).mono htrans hpost hle⟩
  | spawn c =>
    obtain rfl := Option.some.inj hstep
    refine ⟨hI, fun p hp => ?_⟩
    rcases List.mem_append.mp hp with hp | hp
    · exact hthreads p hp
    · obtain rfl := List.mem_singleton.mp hp
      exact hprogram c m.shared hI
  | step i =>
    simp only [Machine.step] at hstep
    split at hstep
    · rename_i op next hget
      obtain rfl := Option.some.inj hstep
      obtain ⟨hI', hle, hnext⟩ :=
        hthreads _ (List.mem_of_getElem? hget) m.shared (hrefl m.shared) hI
      refine ⟨hI', fun p hp => ?_⟩
      rcases List.mem_or_eq_of_mem_set hp with hp | rfl
      · exact (hthreads p hp).mono htrans hpost hle
      · exact hnext
    · cases hstep

end Safe

/-! ## Programs within bounds -/

section Within
variable (allowed : Op → Prop) (answers : (op : Op) → Res op → Prop) (post : α → Prop)

/-- The program performs allowed operations only and ends with `post`, for all answers that
can come. -/
def Program.Within : Program Op Res α → Prop
  | .ret a => post a
  | .call op next => allowed op ∧ ∀ r, answers op r → (next r).Within

variable {allowed answers post}

/-- What the allowed operations keep, the program keeps. -/
theorem Program.Within.exec {perform : (op : Op) → σ → Res op × σ} {I : σ → Prop}
    (hop : ∀ op s, I s → allowed op → answers op (perform op s).1 ∧ I (perform op s).2)
    {p : Program Op Res α} (h : p.Within allowed answers post) {s : σ} (hs : I s) :
    post (p.exec perform s).1 ∧ I (p.exec perform s).2 := by
  induction p generalizing s with
  | ret a => exact ⟨h, hs⟩
  | call op next ih =>
    obtain ⟨hallowed, hnext⟩ := h
    obtain ⟨hanswer, hs'⟩ := hop op s hs hallowed
    exact ih _ (hnext _ hanswer) hs'

/-- However it is answered, the program ends with `post`. -/
abbrev Program.Ends (post : α → Prop) (p : Program Op Res α) : Prop :=
  p.Within (fun _ => True) (fun _ _ => True) post

/-- What the programs of a machine were started with. -/
def started : List (Move ε γ) → List γ :=
  List.filterMap fun
    | .spawn c => some c
    | .env _ | .step _ => none

theorem forall₂_set {β δ : Type} {R : β → δ → Prop} {l : List β} {l' : List δ} {i : Nat} {b b' : δ}
    (h : List.Forall₂ R l l') (hget : l'[i]? = some b) (hstep : ∀ a, R a b → R a b') :
    List.Forall₂ R l (l'.set i b') := by
  induction h generalizing i with
  | nil => cases hget
  | cons hab hrest ih =>
    cases i with
    | zero =>
      obtain rfl := Option.some.inj hget
      exact .cons (hstep _ hab) hrest
    | succ i => exact .cons hab (ih hget)

/-- Along a run, each program is bound to end as the one that was started. -/
theorem Machine.started_of_run {perform : (op : Op) → σ → Res op × σ} {edit : ε → σ → σ}
    {program : γ → Program Op Res α} {ends : γ → α → Prop}
    (hprogram : ∀ c, (program c).Ends (ends c))
    {m m' : Machine Op Res α σ} {cs : List γ} {as : List (Move ε γ)}
    (hthreads : List.Forall₂ (fun c p => p.Ends (ends c)) cs m.threads)
    (hrun : run (Machine.step perform edit program) m as = some m') :
    List.Forall₂ (fun c p => p.Ends (ends c)) (cs ++ started as) m'.threads := by
  induction as generalizing m cs with
  | nil =>
    obtain rfl := Option.some.inj hrun
    simpa [started] using hthreads
  | cons a as ih =>
    obtain ⟨t, hstep, hrest⟩ := run_cons_eq_some.mp hrun
    cases a with
    | env e =>
      obtain rfl := Option.some.inj hstep
      exact ih (m := ⟨edit e m.shared, m.threads⟩) hthreads hrest
    | spawn c =>
      obtain rfl := Option.some.inj hstep
      have hspawned : List.Forall₂ (fun c p => p.Ends (ends c)) (cs ++ [c]) (m.threads ++ [program c]) :=
        List.rel_append hthreads (.cons (hprogram c) .nil)
      have hmore := ih (m := ⟨m.shared, m.threads ++ [program c]⟩) hspawned hrest
      rwa [List.append_assoc] at hmore
    | step i =>
      simp only [Machine.step] at hstep
      split at hstep
      next op next hget =>
        obtain rfl := Option.some.inj hstep
        refine ih (m := ⟨(perform op m.shared).2, _⟩) ?_ hrest
        exact forall₂_set hthreads hget fun c hwithin => hwithin.2 _ trivial
      next => cases hstep

end Within

/-! ## Programs against a world that answers freely -/

section Runs
variable (step : σ → (op : Op) → Res op → σ → Prop)

/-- A run to the end: `step` says how an operation can be answered, and what it then does. -/
inductive Program.Runs : σ → Program Op Res α → α → σ → Prop
  | ret (s : σ) (a : α) : Runs s (.ret a) a s
  | call {s t u : σ} {op : Op} {r : Res op} {next : Res op → Program Op Res α} {a : α}
      (h : step s op r t) (hnext : Runs t (next r) a u) : Runs s (.call op next) a u

/-- Every run from the state ends with `post`. -/
def Program.Ensures (post : α → σ → Prop) : σ → Program Op Res α → Prop
  | s, .ret a => post a s
  | s, .call op next => ∀ r t, step s op r t → Ensures post t (next r)

variable {step} {post : α → σ → Prop}

theorem Program.Ensures.of_runs {s t : σ} {p : Program Op Res α} {a : α}
    (h : p.Ensures step post s) (hrun : p.Runs step s a t) : post a t := by
  induction hrun with
  | ret s a => exact h
  | call hstep _ ih => exact ih (h _ _ hstep)

theorem Program.Ensures.mono {post' : α → σ → Prop} {s : σ} {p : Program Op Res α}
    (h : p.Ensures step post s) (hpost : ∀ a t, post a t → post' a t) : p.Ensures step post' s := by
  induction p generalizing s with
  | ret a => exact hpost a s h
  | call op next ih => exact fun r t hstep => ih r (h r t hstep)

end Runs

end Tethys.Lib
