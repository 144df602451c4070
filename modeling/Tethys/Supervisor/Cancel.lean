import Mathlib.Data.List.Infix
import Tethys.Lib.Runs

/-!
# Ending a child

`SupervisedChild::cancel_ladder` of `tethys-supervisor/src/lib.rs`, on Unix, and the setup runner
of `tethys-core/src/git_registry.rs` that calls it when a script takes too long. The clock goes on
by any amount between two steps, the child may exit at any moment, whatever it was sent, and a look
at it may fail. Times are in milliseconds.
-/

namespace Tethys.Supervisor

open Lib

inductive Signal where
  | int | term | kill
  deriving DecidableEq

/-- The code of a child that was not ended by a signal. -/
structure ExitStatus where
  code : Option Int
  deriving DecidableEq

/-- A signal that was sent: when, and whether the child had been waited for, after which its id
may be that of another process. -/
structure Sent where
  signal : Signal
  time : Nat
  reaped : Bool
  deriving DecidableEq

/-- The child and the clock. -/
structure Child where
  now : Nat
  exited : Option ExitStatus
  reaped : Bool
  sent : List Sent
  deriving DecidableEq

namespace Child

/-- What `try_wait` finds. A child that has exited is reaped by it. -/
def tryWait (c : Child) : Option ExitStatus × Child :=
  match c.exited with
  | some status => (some status, { c with reaped := true })
  | none => (none, c)

/-- An error of `signal` is ignored, so it does not show whether the signal was taken. -/
def signal (c : Child) (signal : Signal) : Child :=
  { c with sent := c.sent ++ [⟨signal, c.now, c.reaped⟩] }

end Child

/-- Where `cancel_ladder` stands. -/
inductive Rung where
  | start
  | interrupt
  /-- before the deadline is set -/
  | arm
  /-- before the clock is compared with the deadline -/
  | poll (deadline : Nat)
  | look (deadline : Nat)
  | sleep (deadline wake : Nat)
  | terminate
  | rest (wake : Nat)
  | kill
  | wait
  deriving DecidableEq

structure SetupOutcome where
  exitCode : Option Int
  timedOut : Bool
  deriving DecidableEq

/-- Where the job stands: a setup script from its first look at the child on, the ladder (of a
script, or called by itself), and the end. The error is one of a look at the child. -/
inductive Pc where
  | look (deadline : Nat)
  | compare (deadline : Nat)
  | sleep (deadline wake : Nat)
  | ladder (rung : Rung)
  | done (result : Except Unit SetupOutcome)

structure Job where
  child : Child
  pc : Pc

inductive JobAct where
  | tick (time : Nat)
  | exit (status : ExitStatus)
  /-- The job takes its next step. -/
  | step
  /-- A look at the child, or the wait for it, fails. -/
  | fail
  deriving DecidableEq

namespace Job

/-- What is returned once the ladder has ended the child. -/
def cancelled : Pc := .done (.ok ⟨none, true⟩)

/-- One step of `cancel_ladder`, with its grace period; a sleep ends at its time or later. -/
def climb (grace : Nat) (c : Child) : Rung → Option Job
  | .start =>
    match c.tryWait with
    | (some _, c) => some ⟨c, cancelled⟩
    | (none, c) => some ⟨c, .ladder .interrupt⟩
  | .interrupt => some ⟨c.signal .int, .ladder .arm⟩
  | .arm => some ⟨c, .ladder (.poll (c.now + grace))⟩
  | .poll deadline => some ⟨c, .ladder (if c.now < deadline then .look deadline else .terminate)⟩
  | .look deadline =>
    match c.tryWait with
    | (some _, c) => some ⟨c, cancelled⟩
    | (none, c) => some ⟨c, .ladder (.sleep deadline (c.now + 25))⟩
  | .sleep deadline wake =>
    if wake ≤ c.now then some ⟨c, .ladder (.poll deadline)⟩ else none
  | .terminate => some ⟨c.signal .term, .ladder (.rest (c.now + 100))⟩
  | .rest wake => if wake ≤ c.now then some ⟨c, .ladder .kill⟩ else none
  | .kill => some ⟨c.signal .kill, .ladder .wait⟩
  | .wait =>
    match c.tryWait with
    | (some _, c) => some ⟨c, cancelled⟩
    | (none, _) => none

/-- One step of the setup runner. -/
def advance (grace : Nat) (c : Child) : Pc → Option Job
  | .look deadline =>
    match c.tryWait with
    | (some status, c) => some ⟨c, .done (.ok ⟨status.code, false⟩)⟩
    | (none, c) => some ⟨c, .compare deadline⟩
  | .compare deadline =>
    some ⟨c, if deadline ≤ c.now then .ladder .start else .sleep deadline (c.now + 20)⟩
  | .sleep deadline wake => if wake ≤ c.now then some ⟨c, .look deadline⟩ else none
  | .ladder rung => climb grace c rung
  | .done _ => none

/-- The places that look at the child, or wait for it. -/
def looks : Pc → Bool
  | .look _ | .ladder .start | .ladder (.look _) | .ladder .wait => true
  | _ => false

def step (grace : Nat) (s : Job) : JobAct → Option Job
  | .tick time => some { s with child := { s.child with now := s.child.now + time } }
  | .exit status =>
    if s.child.exited = none then some { s with child := { s.child with exited := some status } }
    else none
  | .step => advance grace s.child s.pc
  | .fail => if looks s.pc then some { s with pc := .done (.error ()) } else none

/-- A setup script whose time runs from now. -/
def setup (now timeout : Nat) : Job := ⟨⟨now, none, false, []⟩, .look (now + timeout)⟩

/-- A child that is cancelled, which may have exited. -/
def cancel (now : Nat) (exited : Option ExitStatus) : Job :=
  ⟨⟨now, exited, false, []⟩, .ladder .start⟩

end Job

/-! ## Signals -/

/-- The signals that a child can have been sent from a time on, none of them after it was
waited for. -/
inductive Escalation (grace since : Nat) : List Sent → Prop where
  | none : Escalation grace since []
  | int {t} (hsince : since ≤ t) : Escalation grace since [⟨.int, t, false⟩]
  | term {t u} (hsince : since ≤ t) (hgrace : t + grace ≤ u) :
    Escalation grace since [⟨.int, t, false⟩, ⟨.term, u, false⟩]
  | kill {t u v} (hsince : since ≤ t) (hgrace : t + grace ≤ u) (hrest : u + 100 ≤ v) :
    Escalation grace since [⟨.int, t, false⟩, ⟨.term, u, false⟩, ⟨.kill, v, false⟩]

/-- What the ladder knows at each of its places. -/
def RungOk (grace since : Nat) (c : Child) : Rung → Prop
  | .start | .interrupt => c.sent = []
  | .arm => ∃ t, since ≤ t ∧ t ≤ c.now ∧ c.sent = [⟨.int, t, false⟩]
  | .poll deadline | .look deadline | .sleep deadline _ =>
    ∃ t, since ≤ t ∧ t + grace ≤ deadline ∧ c.sent = [⟨.int, t, false⟩]
  | .terminate => ∃ t, since ≤ t ∧ t + grace ≤ c.now ∧ c.sent = [⟨.int, t, false⟩]
  | .rest wake => ∃ t u, since ≤ t ∧ t + grace ≤ u ∧ u + 100 ≤ wake ∧
    c.sent = [⟨.int, t, false⟩, ⟨.term, u, false⟩]
  | .kill => ∃ t u, since ≤ t ∧ t + grace ≤ u ∧ u + 100 ≤ c.now ∧
    c.sent = [⟨.int, t, false⟩, ⟨.term, u, false⟩]
  | .wait => ∃ t u v, since ≤ t ∧ t + grace ≤ u ∧ u + 100 ≤ v ∧
    c.sent = [⟨.int, t, false⟩, ⟨.term, u, false⟩, ⟨.kill, v, false⟩]

/-- What a job that has returned says of its child. -/
structure Told (since : Nat) (c : Child) (outcome : SetupOutcome) : Prop where
  reaped : c.reaped = true
  inTime : outcome.timedOut = false →
    c.sent = [] ∧ ∃ status, c.exited = some status ∧ outcome.exitCode = status.code
  late : outcome.timedOut = true → outcome.exitCode = none ∧ since ≤ c.now

def PcOk (grace since : Nat) (c : Child) : Pc → Prop
  | .look deadline | .compare deadline | .sleep deadline _ =>
    c.reaped = false ∧ c.sent = [] ∧ since ≤ deadline
  | .ladder rung => c.reaped = false ∧ since ≤ c.now ∧ RungOk grace since c rung
  | .done (.ok outcome) => Escalation grace since c.sent ∧ Told since c outcome
  | .done (.error _) => Escalation grace since c.sent

/-- The invariant of a job. -/
structure JobOk (grace since : Nat) (s : Job) : Prop where
  exited : s.child.reaped = true → s.child.exited.isSome
  pc : PcOk grace since s.child s.pc

variable {grace since : Nat} {c : Child} {s t : Job}

theorem RungOk.escalation {rung : Rung} (h : RungOk grace since c rung) :
    Escalation grace since c.sent := by
  cases rung with
  | start | interrupt =>
    have hsent : c.sent = [] := h
    exact hsent ▸ .none
  | arm =>
    obtain ⟨t, ht, -, hsent⟩ := h
    exact hsent ▸ .int ht
  | poll | look | sleep | terminate =>
    obtain ⟨t, ht, -, hsent⟩ := h
    exact hsent ▸ .int ht
  | rest | kill =>
    obtain ⟨t, u, ht, hu, -, hsent⟩ := h
    exact hsent ▸ .term ht hu
  | wait =>
    obtain ⟨t, u, v, ht, hu, hv, hsent⟩ := h
    exact hsent ▸ .kill ht hu hv

/-- The clock goes on. -/
theorem RungOk.tick {rung : Rung} (h : RungOk grace since c rung) (time : Nat) :
    RungOk grace since { c with now := c.now + time } rung := by
  cases rung with
  | arm =>
    obtain ⟨t, ht, hnow, hsent⟩ := h
    exact ⟨t, ht, hnow.trans (Nat.le_add_right _ _), hsent⟩
  | terminate =>
    obtain ⟨t, ht, hnow, hsent⟩ := h
    exact ⟨t, ht, hnow.trans (Nat.le_add_right _ _), hsent⟩
  | kill =>
    obtain ⟨t, u, ht, hu, hnow, hsent⟩ := h
    exact ⟨t, u, ht, hu, hnow.trans (Nat.le_add_right _ _), hsent⟩
  | start | interrupt | poll | look | sleep | rest | wait => exact h

theorem PcOk.tick {pc : Pc} (h : PcOk grace since c pc) (time : Nat) :
    PcOk grace since { c with now := c.now + time } pc := by
  cases pc with
  | look | compare | sleep => exact h
  | ladder rung => exact ⟨h.1, h.2.1.trans (Nat.le_add_right _ _), h.2.2.tick time⟩
  | done result =>
    cases result with
    | error e => exact h
    | ok outcome =>
      obtain ⟨hsent, hreaped, hin, hlate⟩ := h
      exact ⟨hsent, hreaped, hin, fun hout =>
        ⟨(hlate hout).1, (hlate hout).2.trans (Nat.le_add_right _ _)⟩⟩

/-- A job that is on its way has not waited for the child, and can stop with an error. -/
theorem PcOk.fail {pc : Pc} (h : PcOk grace since c pc) (hlooks : Job.looks pc = true) :
    PcOk grace since c (.done (.error ())) := by
  cases pc with
  | look =>
    have hsent : c.sent = [] := h.2.1
    show Escalation grace since c.sent
    rw [hsent]
    exact .none
  | ladder rung => exact h.2.2.escalation
  | compare | sleep | done => cases hlooks

theorem PcOk.exit {pc : Pc} (h : PcOk grace since c pc) (hnone : c.exited = none)
    (hreaped : c.reaped = true → c.exited.isSome) (status : ExitStatus) :
    PcOk grace since { c with exited := some status } pc := by
  cases pc with
  | look | compare | sleep | ladder => exact h
  | done result =>
    cases result with
    | error e => exact h
    | ok outcome =>
      have hsome := hreaped h.2.reaped
      rw [hnone] at hsome
      cases hsome

/-- One step of the ladder. -/
theorem RungOk.climb {rung : Rung} (h : RungOk grace since c rung) (hreaped : c.reaped = false)
    (hnow : since ≤ c.now) (hstep : Job.climb grace c rung = some t) : JobOk grace since t := by
  have hended : ∀ status,
      JobOk grace since ⟨⟨c.now, some status, true, c.sent⟩, Job.cancelled⟩ := by
    intro status
    refine ⟨fun _ => rfl, h.escalation, rfl, fun hin => ?_, fun _ => ⟨rfl, hnow⟩⟩
    cases hin
  have hgoing : ∀ {e rung}, RungOk grace since { c with exited := e } rung →
      JobOk grace since ⟨{ c with exited := e }, .ladder rung⟩ := by
    intro e rung hrung
    exact ⟨fun hr => absurd (hr.symm.trans hreaped) (by decide), hreaped, hnow, hrung⟩
  have hsignal : ∀ {signal rung}, RungOk grace since (c.signal signal) rung →
      JobOk grace since ⟨c.signal signal, .ladder rung⟩ := by
    intro signal rung hrung
    exact ⟨fun hr => absurd (hr.symm.trans hreaped) (by decide), hreaped, hnow, hrung⟩
  cases rung with
  | start =>
    cases hexited : c.exited with
    | some status =>
      obtain rfl : _ = t := by simpa [Job.climb, Child.tryWait, hexited] using hstep
      exact hended status
    | none =>
      obtain rfl : _ = t := by simpa [Job.climb, Child.tryWait, hexited] using hstep
      exact hgoing h
  | interrupt =>
    obtain rfl : _ = t := by simpa [Job.climb] using hstep
    have hsent : c.sent = [] := h
    exact hsignal ⟨c.now, hnow, le_rfl, by simp [Child.signal, hsent, hreaped]⟩
  | arm =>
    obtain rfl : _ = t := by simpa [Job.climb] using hstep
    obtain ⟨u, hu, hle, hsent⟩ := h
    exact hgoing ⟨u, hu, Nat.add_le_add_right hle grace, hsent⟩
  | poll deadline =>
    obtain rfl : _ = t := by simpa [Job.climb] using hstep
    obtain ⟨u, hu, hle, hsent⟩ := h
    by_cases hlate : c.now < deadline
    · rw [if_pos hlate]
      exact hgoing ⟨u, hu, hle, hsent⟩
    · rw [if_neg hlate]
      exact hgoing ⟨u, hu, hle.trans (not_lt.mp hlate), hsent⟩
  | look deadline =>
    cases hexited : c.exited with
    | some status =>
      obtain rfl : _ = t := by simpa [Job.climb, Child.tryWait, hexited] using hstep
      exact hended status
    | none =>
      obtain rfl : _ = t := by simpa [Job.climb, Child.tryWait, hexited] using hstep
      exact hgoing h
  | sleep deadline wake =>
    obtain ⟨-, rfl⟩ : wake ≤ c.now ∧ _ = t := by simpa [Job.climb] using hstep
    exact hgoing h
  | terminate =>
    obtain rfl : _ = t := by simpa [Job.climb] using hstep
    obtain ⟨u, hu, hle, hsent⟩ := h
    exact hsignal ⟨u, c.now, hu, hle, le_rfl, by simp [Child.signal, hsent, hreaped]⟩
  | rest wake =>
    obtain ⟨hwake, rfl⟩ : wake ≤ c.now ∧ _ = t := by simpa [Job.climb] using hstep
    obtain ⟨u, v, hu, hv, hle, hsent⟩ := h
    exact hgoing ⟨u, v, hu, hv, hle.trans hwake, hsent⟩
  | kill =>
    obtain rfl : _ = t := by simpa [Job.climb] using hstep
    obtain ⟨u, v, hu, hv, hle, hsent⟩ := h
    exact hsignal ⟨u, v, c.now, hu, hv, hle, by simp [Child.signal, hsent, hreaped]⟩
  | wait =>
    cases hexited : c.exited with
    | some status =>
      obtain rfl : _ = t := by simpa [Job.climb, Child.tryWait, hexited] using hstep
      exact hended status
    | none => simp [Job.climb, Child.tryWait, hexited] at hstep

theorem PcOk.advance {pc : Pc} (h : PcOk grace since c pc)
    (hstep : Job.advance grace c pc = some t) : JobOk grace since t := by
  cases pc with
  | look deadline =>
    obtain ⟨hreaped, hsent, hle⟩ := h
    cases hexited : c.exited with
    | some status =>
      obtain rfl : _ = t := by simpa [Job.advance, Child.tryWait, hexited] using hstep
      have hnone : Escalation grace since c.sent := hsent ▸ .none
      refine ⟨fun _ => rfl, hnone, rfl, fun _ => ⟨hsent, status, rfl, rfl⟩, fun hout => ?_⟩
      cases hout
    | none =>
      obtain rfl : _ = t := by simpa [Job.advance, Child.tryWait, hexited] using hstep
      exact ⟨fun hr => absurd (hr.symm.trans hreaped) (by decide), hreaped, hsent, hle⟩
  | compare deadline =>
    obtain ⟨hreaped, hsent, hle⟩ := h
    obtain rfl : _ = t := by simpa [Job.advance] using hstep
    refine ⟨fun hr => absurd (hr.symm.trans hreaped) (by decide), ?_⟩
    by_cases hlate : deadline ≤ c.now
    · rw [if_pos hlate]
      exact ⟨hreaped, hle.trans hlate, hsent⟩
    · rw [if_neg hlate]
      exact ⟨hreaped, hsent, hle⟩
  | sleep deadline wake =>
    obtain ⟨-, rfl⟩ : wake ≤ c.now ∧ _ = t := by simpa [Job.advance] using hstep
    exact ⟨fun hr => absurd (hr.symm.trans h.1) (by decide), h⟩
  | ladder rung => exact h.2.2.climb h.1 h.2.1 hstep
  | done result => cases hstep

/-- One step of the job, of the clock or of the child. -/
theorem JobOk.step {a : JobAct} (h : JobOk grace since s) (hstep : Job.step grace s a = some t) :
    JobOk grace since t := by
  cases a with
  | tick time =>
    obtain rfl : _ = t := by simpa [Job.step] using hstep
    exact ⟨h.exited, h.pc.tick time⟩
  | exit status =>
    obtain ⟨hnone, rfl⟩ : s.child.exited = none ∧ _ = t := by simpa [Job.step] using hstep
    exact ⟨fun _ => rfl, h.pc.exit hnone h.exited status⟩
  | step => exact h.pc.advance hstep
  | fail =>
    obtain ⟨hlooks, rfl⟩ : Job.looks s.pc = true ∧ _ = t := by simpa [Job.step] using hstep
    exact ⟨h.exited, h.pc.fail hlooks⟩

/-! ## Steps

A sleep ends by itself, so the job stops only at the wait for the child. `fuel` bounds the steps
that are left. -/

/-- The looks at the child before a time, one in each pause. -/
def looksLeft (pause now deadline : Nat) : Nat := (deadline - now + (pause - 1)) / pause

def rungFuel (grace now : Nat) : Rung → Nat
  | .start => 3 * looksLeft 25 0 grace + 8
  | .interrupt => 3 * looksLeft 25 0 grace + 7
  | .arm => 3 * looksLeft 25 0 grace + 6
  | .poll deadline => 3 * looksLeft 25 now deadline + 5
  | .look deadline => 3 * max 1 (looksLeft 25 now deadline) + 4
  | .sleep deadline wake => 3 * looksLeft 25 wake deadline + 6
  | .terminate => 4
  | .rest _ => 3
  | .kill => 2
  | .wait => 1

def fuel (grace now : Nat) : Pc → Nat
  | .look deadline => 3 * looksLeft 20 now deadline + 2 + rungFuel grace now .start
  | .compare deadline => 3 * looksLeft 20 now deadline + 1 + rungFuel grace now .start
  | .sleep deadline wake => 3 * looksLeft 20 wake deadline + 3 + rungFuel grace now .start
  | .ladder rung => rungFuel grace now rung
  | .done _ => 0

theorem looksLeft_anti {now later : Nat} (h : now ≤ later) (pause deadline : Nat) :
    looksLeft pause later deadline ≤ looksLeft pause now deadline :=
  Nat.div_le_div_right (by omega)

theorem rungFuel_anti {now later : Nat} (h : now ≤ later) (rung : Rung) :
    rungFuel grace later rung ≤ rungFuel grace now rung := by
  cases rung with
  | poll deadline | look deadline =>
    have hle := looksLeft_anti h 25 deadline
    simp only [rungFuel]
    omega
  | start | interrupt | arm | sleep | terminate | rest | kill | wait => exact le_rfl

theorem fuel_anti {now later : Nat} (h : now ≤ later) (pc : Pc) :
    fuel grace later pc ≤ fuel grace now pc := by
  cases pc with
  | look deadline | compare deadline =>
    have hle := looksLeft_anti h 20 deadline
    simp only [fuel, rungFuel]
    omega
  | ladder rung => exact rungFuel_anti h rung
  | sleep | done => exact le_rfl

theorem fuel_climb {rung : Rung} (hstep : Job.climb grace c rung = some t) :
    fuel grace t.child.now t.pc < rungFuel grace c.now rung := by
  cases rung with
  | start =>
    cases hexited : c.exited <;>
      obtain rfl : _ = t := by simpa [Job.climb, Child.tryWait, hexited] using hstep
    · simp [fuel, rungFuel]
    · simp [fuel, rungFuel, Job.cancelled]
  | interrupt =>
    obtain rfl : _ = t := by simpa [Job.climb] using hstep
    simp [fuel, rungFuel]
  | arm =>
    obtain rfl : _ = t := by simpa [Job.climb] using hstep
    simp [fuel, rungFuel, looksLeft]
  | poll deadline =>
    obtain rfl : _ = t := by simpa [Job.climb] using hstep
    by_cases hlate : c.now < deadline
    · have hone : 1 ≤ looksLeft 25 c.now deadline := by simp only [looksLeft]; omega
      simp only [if_pos hlate, fuel, rungFuel]
      omega
    · simp only [if_neg hlate, fuel, rungFuel]
      omega
  | look deadline =>
    cases hexited : c.exited with
    | some status =>
      obtain rfl : _ = t := by simpa [Job.climb, Child.tryWait, hexited] using hstep
      simp [fuel, rungFuel, Job.cancelled]
    | none =>
      obtain rfl : _ = t := by simpa [Job.climb, Child.tryWait, hexited] using hstep
      simp only [fuel, rungFuel, looksLeft]
      omega
  | sleep deadline wake =>
    obtain ⟨hwake, rfl⟩ : wake ≤ c.now ∧ _ = t := by simpa [Job.climb] using hstep
    have hle := looksLeft_anti hwake 25 deadline
    simp only [fuel, rungFuel]
    omega
  | terminate =>
    obtain rfl : _ = t := by simpa [Job.climb] using hstep
    simp [fuel, rungFuel]
  | rest wake =>
    obtain ⟨-, rfl⟩ : wake ≤ c.now ∧ _ = t := by simpa [Job.climb] using hstep
    simp [fuel, rungFuel]
  | kill =>
    obtain rfl : _ = t := by simpa [Job.climb] using hstep
    simp [fuel, rungFuel]
  | wait =>
    cases hexited : c.exited with
    | some status =>
      obtain rfl : _ = t := by simpa [Job.climb, Child.tryWait, hexited] using hstep
      simp [fuel, rungFuel, Job.cancelled]
    | none => simp [Job.climb, Child.tryWait, hexited] at hstep

theorem fuel_advance {pc : Pc} (hstep : Job.advance grace c pc = some t) :
    fuel grace t.child.now t.pc < fuel grace c.now pc := by
  cases pc with
  | look deadline =>
    cases hexited : c.exited <;>
      obtain rfl : _ = t := by simpa [Job.advance, Child.tryWait, hexited] using hstep
    · simp [fuel]
    · simp only [fuel]
      omega
  | compare deadline =>
    obtain rfl : _ = t := by simpa [Job.advance] using hstep
    by_cases hlate : deadline ≤ c.now
    · simp only [if_pos hlate, fuel, rungFuel]
      omega
    · simp only [if_neg hlate, fuel, rungFuel, looksLeft]
      omega
  | sleep deadline wake =>
    obtain ⟨hwake, rfl⟩ : wake ≤ c.now ∧ _ = t := by simpa [Job.advance] using hstep
    have hle := looksLeft_anti hwake 20 deadline
    simp only [fuel, rungFuel]
    omega
  | ladder rung => exact fuel_climb hstep
  | done result => cases hstep

theorem fuel_step {a : JobAct} (hstep : Job.step grace s a = some t) :
    [a].count .step + fuel grace t.child.now t.pc ≤ fuel grace s.child.now s.pc := by
  cases a with
  | tick time =>
    obtain rfl : _ = t := by simpa [Job.step] using hstep
    simpa using fuel_anti (Nat.le_add_right s.child.now time) s.pc
  | exit status =>
    obtain ⟨-, rfl⟩ : s.child.exited = none ∧ _ = t := by simpa [Job.step] using hstep
    simp
  | step =>
    have hlt := fuel_advance hstep
    simp only [List.count_singleton_self]
    omega
  | fail =>
    obtain ⟨-, rfl⟩ : Job.looks s.pc = true ∧ _ = t := by simpa [Job.step] using hstep
    simp [fuel]

/-- The fuel pays for the steps of a run. -/
theorem fuel_run {acts : List JobAct} (hrun : run (Job.step grace) s acts = some t) :
    acts.count .step + fuel grace t.child.now t.pc ≤ fuel grace s.child.now s.pc := by
  induction acts generalizing s with
  | nil =>
    obtain rfl : s = t := by simpa using hrun
    simp
  | cons a acts ih =>
    obtain ⟨u, hu, hrun⟩ := run_cons_eq_some.mp hrun
    have hfirst := fuel_step hu
    have hrest := ih hrun
    rw [← List.singleton_append, List.count_append]
    omega

/-- A job goes on, at the latest once its sleep is over, unless it has returned or waits for a
child that still runs. -/
def Goes (grace : Nat) (s : Job) : Prop :=
  (∃ result, s.pc = .done result) ∨ (s.pc = .ladder .wait ∧ s.child.exited = none) ∨
    ∃ time t, run (Job.step grace) s [.tick time, .step] = some t

theorem goes (grace : Nat) (s : Job) : Goes grace s := by
  obtain ⟨⟨now, exited, reaped, sent⟩, pc⟩ := s
  have hlater : ∀ t, Job.advance grace ⟨now + t, exited, reaped, sent⟩ pc ≠ none →
      Goes grace ⟨⟨now, exited, reaped, sent⟩, pc⟩ := by
    intro t ht
    obtain ⟨u, hu⟩ := Option.ne_none_iff_exists'.mp ht
    exact .inr (.inr ⟨t, u, by simpa [run_cons, Job.step] using hu⟩)
  cases pc with
  | done result => exact .inl ⟨result, rfl⟩
  | look deadline =>
    exact hlater 0 (by cases exited <;> simp [Job.advance, Child.tryWait])
  | compare deadline => exact hlater 0 (by simp [Job.advance])
  | sleep deadline wake => exact hlater wake (by simp [Job.advance])
  | ladder rung =>
    cases rung with
    | start | look =>
      exact hlater 0 (by cases exited <;> simp [Job.advance, Job.climb, Child.tryWait])
    | interrupt | arm | poll | terminate | kill => exact hlater 0 (by simp [Job.advance, Job.climb])
    | sleep deadline wake | rest wake => exact hlater wake (by simp [Job.advance, Job.climb])
    | wait =>
      cases exited with
      | none => exact .inr (.inl ⟨rfl, rfl⟩)
      | some status => exact hlater 0 (by simp [Job.advance, Job.climb, Child.tryWait])

/-- What holds of a job, whose child may be sent signals from a time on. -/
structure Ended (grace since : Nat) (s : Job) : Prop where
  signals : Escalation grace since s.child.sent
  reaped : s.child.reaped = true → s.child.exited.isSome
  told : ∀ outcome, s.pc = .done (.ok outcome) → Told since s.child outcome
  goes : Goes grace s

theorem JobOk.ended (h : JobOk grace since s) : Ended grace since s := by
  obtain ⟨c, pc⟩ := s
  refine ⟨?_, h.exited, ?_, goes grace _⟩
  · have hpc := h.pc
    cases pc with
    | look | compare | sleep =>
      have hsent : c.sent = [] := hpc.2.1
      exact hsent ▸ .none
    | ladder rung => exact hpc.2.2.escalation
    | done result =>
      cases result with
      | ok outcome => exact hpc.1
      | error e => exact hpc
  · rintro outcome ⟨⟩
    exact h.pc.2

end Tethys.Supervisor
