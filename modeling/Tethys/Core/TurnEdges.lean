import Tethys.Core.GitRegistry
import Tethys.Git.Checkpoint
import Tethys.Lib.Edges
import Tethys.Lib.Segments

/-!
# Checkpoints on the edges of a turn

`on_thread_state` writes a start checkpoint when a thread begins to run and an end checkpoint when
it stops running. The state that was reported is stored only when the write succeeds, so that the
next report tries again; `bracketed_iff` says when every turn is bracketed nevertheless.
-/

namespace Tethys.Core

open Lib
open Git (CheckpointPhase)

/-- A report of a thread, with whether a checkpoint that is written now succeeds. -/
structure Report where
  turn : Nat
  state : ThreadRuntimeState
  writable : Bool

/-- A checkpoint that is written, or not. -/
structure Write where
  thread : String
  turn : Nat
  phase : CheckpointPhase
  succeeds : Bool
  deriving DecidableEq

/-- The checkpoint that is due between two states. -/
def duePhase : ThreadRuntimeState → ThreadRuntimeState → Option CheckpointPhase
  | .running, .running => none
  | _, .running => some .start
  | .running, _ => some .final
  | _, _ => none

variable {Engine : Type} {thread : String} {registry : GitRegistry Engine} {r : Report}
  {rs : List Report}

/-- The write that a report leads to, and the registry after it. -/
def onThreadState (thread : String) (registry : GitRegistry Engine) (r : Report) :
    Option Write × GitRegistry Engine :=
  match registry.get thread with
  | none => (none, registry)
  | some registered =>
    match duePhase registered.lastState r.state with
    | none => (none, registry.setState thread r.state)
    | some phase =>
      (some ⟨thread, r.turn, phase, r.writable⟩,
        if r.writable then registry.setState thread r.state else registry)

/-- The reports, each with the write that it leads to. -/
def writeLog (thread : String) : GitRegistry Engine → List Report → List (Report × Option Write)
  | _, [] => []
  | registry, r :: reports =>
    (r, (onThreadState thread registry r).1) ::
      writeLog thread (onThreadState thread registry r).2 reports

/-! ## Turns -/

/-- One turn as it is reported: running for some reports, and then not running for some. -/
structure Turn where
  number : Nat
  running : List Bool
  stopped : List (ThreadRuntimeState × Bool)
  runs : running ≠ []
  stops : stopped ≠ []
  stopped_state : ∀ s ∈ stopped, s.1 ≠ .running

namespace Turn
variable (turn : Turn)

def ins : List Report := turn.running.map fun writable => ⟨turn.number, .running, writable⟩

def outs : List Report := turn.stopped.map fun s => ⟨turn.number, s.1, s.2⟩

def reports : List Report := turn.ins ++ turn.outs

end Turn

/-- A start is tried at the first report of each turn that it is running, an end at the first one
that it is not; an end that is written follows a start of its turn that was tried; and each write
has the number of the turn that is reported. -/
structure Bracketed (thread : String) (log : List (Report × Option Write)) : Prop where
  starts : ∀ before r write after, log = before ++ (r, write) :: after → r.state = .running →
    (∀ e ∈ before, e.1.turn ≠ r.turn) → ∃ succeeds, write = some ⟨thread, r.turn, .start, succeeds⟩
  ends : ∀ before r write after, log = before ++ (r, write) :: after → r.state ≠ .running →
    (∀ e ∈ before, e.1.turn = r.turn → e.1.state = .running) →
      ∃ succeeds, write = some ⟨thread, r.turn, .final, succeeds⟩
  follows : ∀ before r write after, log = before ++ (r, some write) :: after → write.phase = .final →
    write.succeeds = true → ∃ e ∈ before, ∃ start, e.2 = some start ∧ start.phase = .start ∧
      start.turn = write.turn
  numbered : ∀ r write, (r, some write) ∈ log → write.thread = thread ∧ write.turn = r.turn

/-! ## The log is that of an edge detector -/

def isRunning (r : Report) : Bool := r.state = .running

/-- What is written when a report comes from the other side. -/
def writeOf (thread : String) (r : Report) : Write :=
  ⟨thread, r.turn, if isRunning r then .start else .final, r.writable⟩

def wasRunning (registered : RegisteredWorktree Engine) : Bool := registered.lastState = .running

theorem duePhase_eq (last state : ThreadRuntimeState) : duePhase last state =
    if (state = .running) ↔ (last = .running) then none
    else some (if state = .running then .start else .final) := by
  cases last <;> cases state <;> rfl

theorem onThreadState_eq {registered : RegisteredWorktree Engine}
    (h : registry.get thread = some registered) :
    (onThreadState thread registry r).1 =
        (if crosses isRunning (wasRunning registered) r then some (writeOf thread r) else none) ∧
      ∃ next, (onThreadState thread registry r).2.get thread = some next ∧
        wasRunning next = sideAfter isRunning (·.writable) (wasRunning registered) r := by
  have hset : (registry.setState thread r.state).get thread =
      some { registered with lastState := r.state } := by
    rw [GitRegistry.get] at h
    simp [GitRegistry.setState, GitRegistry.get, h]
  have hdue := duePhase_eq registered.lastState r.state
  by_cases hsame : (r.state = .running) ↔ (registered.lastState = .running)
  · have hcrosses : crosses isRunning (wasRunning registered) r = false := by
      simp [crosses, isRunning, wasRunning, hsame]
    rw [if_pos hsame] at hdue
    simp only [onThreadState, h, hdue, hcrosses]
    refine ⟨rfl, _, hset, ?_⟩
    rw [sideAfter, hcrosses]
    rfl
  · have hcrosses : crosses isRunning (wasRunning registered) r = true := by
      simpa [crosses, isRunning, wasRunning] using hsame
    rw [if_neg hsame] at hdue
    simp only [onThreadState, h, hdue, hcrosses]
    refine ⟨by simp [writeOf, isRunning], ?_⟩
    cases hwritable : r.writable with
    | true => exact ⟨_, hset, by simp [sideAfter, hwritable, isRunning, wasRunning]⟩
    | false => exact ⟨_, h, by simp [sideAfter, hcrosses, hwritable]⟩

/-- An entry of the log for a report that crosses or not. -/
def logEntry (thread : String) (e : Report × Bool) : Report × Option Write :=
  (e.1, if e.2 then some (writeOf thread e.1) else none)

theorem writeLog_eq {registered : RegisteredWorktree Engine} (h : registry.get thread = some registered) :
    writeLog thread registry rs =
      (crossings isRunning (·.writable) (wasRunning registered) rs).map (logEntry thread) := by
  induction rs generalizing registry registered with
  | nil => rfl
  | cons r rs ih =>
    obtain ⟨hwrite, next, hnext, hside⟩ := onThreadState_eq (r := r) h
    rw [writeLog, hwrite, ih hnext, hside]
    rfl

/-! ## Places in the reports of turns -/

/-- The reports of turns, as periods. -/
def Turn.period (turn : Turn) : List Report × List Report := (turn.ins, turn.outs)

namespace Turn
variable {turn : Turn} {turns : List Turn}

theorem of_mem_ins (h : r ∈ turn.ins) : r.turn = turn.number ∧ r.state = .running := by
  obtain ⟨writable, -, rfl⟩ := List.mem_map.mp h
  exact ⟨rfl, rfl⟩

theorem of_mem_outs (h : r ∈ turn.outs) : r.turn = turn.number ∧ r.state ≠ .running := by
  obtain ⟨s, hs, rfl⟩ := List.mem_map.mp h
  exact ⟨rfl, turn.stopped_state s hs⟩

theorem turn_of_mem_reports (h : r ∈ turn.reports) : r.turn = turn.number :=
  (List.mem_append.mp h).elim (fun h => (of_mem_ins h).1) fun h => (of_mem_outs h).1

theorem exists_ins_writable : (∃ r ∈ turn.ins, r.writable = true) ↔ true ∈ turn.running := by
  constructor
  · rintro ⟨r, hr, hwritable⟩
    obtain ⟨writable, hmem, rfl⟩ := List.mem_map.mp hr
    exact (show writable = true from hwritable) ▸ hmem
  · exact fun h => ⟨_, List.mem_map_of_mem h, rfl⟩

theorem exists_outs_writable :
    (∃ r ∈ turn.outs, r.writable = true) ↔ ∃ s ∈ turn.stopped, s.2 = true := by
  constructor
  · rintro ⟨r, hr, hwritable⟩
    obtain ⟨s, hs, rfl⟩ := List.mem_map.mp hr
    exact ⟨s, hs, hwritable⟩
  · rintro ⟨s, hs, hwritable⟩
    exact ⟨_, List.mem_map_of_mem hs, hwritable⟩

theorem isPeriod : IsPeriod isRunning turn.period where
  ins_ne_nil := by simp [period, ins, turn.runs]
  outs_ne_nil := by simp [period, outs, turn.stops]
  ins r hr := decide_eq_true (of_mem_ins hr).2
  outs r hr := decide_eq_false (of_mem_outs hr).2

/-- Each report is one of a turn. -/
theorem placed {front back : List Report} (h : turns.flatMap Turn.reports = front ++ r :: back) :
    ∃ before turn after, turns = before ++ turn :: after ∧
      ((∃ c d, turn.ins = c ++ r :: d ∧ front = before.flatMap Turn.reports ++ c) ∨
        ∃ c d, turn.outs = c ++ r :: d ∧ front = before.flatMap Turn.reports ++ turn.ins ++ c) := by
  induction turns generalizing front with
  | nil => simp at h
  | cons turn turns ih =>
    rw [List.flatMap_cons, Turn.reports, List.append_assoc] at h
    rcases append_place h with ⟨d, hins⟩ | ⟨inner, hinner, hrest⟩
    · exact ⟨[], turn, turns, rfl, .inl ⟨front, d, hins, rfl⟩⟩
    · rcases append_place hrest with ⟨d, houts⟩ | ⟨last, hlast, hlater⟩
      · exact ⟨[], turn, turns, rfl, .inr ⟨inner, d, houts, hinner⟩⟩
      · obtain ⟨before, turn', after, rfl, hplace⟩ := ih hlater
        refine ⟨turn :: before, turn', after, rfl, ?_⟩
        rcases hplace with ⟨c, d, hins, rfl⟩ | ⟨c, d, houts, rfl⟩
        · exact .inl ⟨c, d, hins, by simp [hinner, hlast, Turn.reports]⟩
        · exact .inr ⟨c, d, houts, by simp [hinner, hlast, Turn.reports]⟩

end Turn

/-! ## When every turn is bracketed -/

section Bracketing
variable {turns : List Turn} {registered : RegisteredWorktree Engine}

theorem flatMap_period (turns : List Turn) :
    (turns.map Turn.period).flatMap (fun p => p.1 ++ p.2) = turns.flatMap Turn.reports :=
  List.flatMap_map ..

/-- What stands at a place of the log. -/
theorem writeLog_place {before after : List (Report × Option Write)} {write : Option Write}
    (h : registry.get thread = some registered)
    (hlog : writeLog thread registry rs = before ++ (r, write) :: after) :
    ∃ front back, rs = front ++ r :: back ∧
      before = (crossings isRunning (·.writable) (wasRunning registered) front).map (logEntry thread) ∧
      write = if crosses isRunning
        (sideAfterAll isRunning (·.writable) (wasRunning registered) front) r then
          some (writeOf thread r) else none := by
  rw [writeLog_eq h] at hlog
  obtain ⟨first, last, hsplit, rfl, hlast⟩ := List.map_eq_append_iff.mp hlog
  obtain ⟨⟨r', crossed⟩, last', rfl, hentry, -⟩ := List.map_eq_cons_iff.mp hlast
  obtain ⟨rfl, rfl⟩ := Prod.mk.inj hentry
  obtain ⟨front, back, rfl, rfl, rfl⟩ := crossings_place hsplit
  exact ⟨front, back, rfl, rfl, rfl⟩

theorem writeLog_at (h : registry.get thread = some registered) (front : List Report) (r : Report)
    (back : List Report) :
    ∃ after, writeLog thread registry (front ++ r :: back) =
      (crossings isRunning (·.writable) (wasRunning registered) front).map (logEntry thread) ++
        (r, if crosses isRunning
          (sideAfterAll isRunning (·.writable) (wasRunning registered) front) r then
            some (writeOf thread r) else none) :: after := by
  rw [writeLog_eq h, crossings_append, List.map_append]
  exact ⟨_, rfl⟩

/-- The log of the reports before a place has an entry for each of them. -/
theorem mem_log {side : Bool} {e : Report × Option Write}
    (h : e ∈ (crossings isRunning (·.writable) side rs).map (logEntry thread)) : e.1 ∈ rs := by
  obtain ⟨e', he', rfl⟩ := List.mem_map.mp h
  have hfst : e'.1 ∈ (crossings isRunning (·.writable) side rs).map Prod.fst :=
    List.mem_map_of_mem he'
  rwa [map_fst_crossings] at hfst

theorem exists_mem_log (thread : String) (side : Bool) (h : r ∈ rs) :
    ∃ e ∈ (crossings isRunning (·.writable) side rs).map (logEntry thread), e.1 = r := by
  have hmem : r ∈ (crossings isRunning (·.writable) side rs).map Prod.fst := by
    rwa [map_fst_crossings]
  obtain ⟨e, he, rfl⟩ := List.mem_map.mp hmem
  exact ⟨logEntry thread e, List.mem_map_of_mem he, rfl⟩

/-- The reports of earlier turns have other numbers. -/
theorem number_ne {before after : List Turn} {turn : Turn}
    (h : (before ++ turn :: after).Pairwise (·.number < ·.number))
    (hr : r ∈ before.flatMap Turn.reports) : r.turn ≠ turn.number := by
  obtain ⟨earlier, hearlier, hr⟩ := List.mem_flatMap.mp hr
  have hlt := (List.pairwise_append.mp h).2.2 earlier hearlier turn List.mem_cons_self
  rw [Turn.turn_of_mem_reports hr]
  exact hlt.ne

/-- In a log that brackets the turns, each turn is entered and left with a try. -/
theorem detected_of_bracketed (h : registry.get thread = some registered)
    (hincreasing : turns.Pairwise (·.number < ·.number))
    (hbracketed : Bracketed thread (writeLog thread registry (turns.flatMap Turn.reports))) :
    Detected isRunning (·.writable) (wasRunning registered) (turns.map Turn.period) := by
  rw [detected_iff_forall]
  intro front p back heq
  obtain ⟨before, rest, rfl, rfl, hrest⟩ := List.map_eq_append_iff.mp heq
  obtain ⟨turn, after, rfl, rfl, rfl⟩ := List.map_eq_cons_iff.mp hrest
  rw [flatMap_period]
  constructor
  · intro r hr
    obtain ⟨d, hins⟩ : ∃ d, turn.ins = r :: d := List.head?_eq_some_iff.mp hr
    have hmem : r ∈ turn.ins := List.mem_of_head? hr
    obtain ⟨later, hlog⟩ := writeLog_at h (before.flatMap Turn.reports) r
      (d ++ turn.outs ++ after.flatMap Turn.reports)
    have hplace : (before ++ turn :: after).flatMap Turn.reports =
        before.flatMap Turn.reports ++ r :: (d ++ turn.outs ++ after.flatMap Turn.reports) := by
      simp [Turn.reports, hins]
    rw [← hplace] at hlog
    obtain ⟨succeeds, hwrite⟩ := hbracketed.starts _ r _ _ hlog (Turn.of_mem_ins hmem).2
      fun e he => by
        rw [(Turn.of_mem_ins hmem).1]
        exact number_ne hincreasing (mem_log he)
    exact (Option.ite_none_right_eq_some.mp hwrite).1
  · intro r hr
    obtain ⟨d, houts⟩ : ∃ d, turn.outs = r :: d := List.head?_eq_some_iff.mp hr
    have hmem : r ∈ turn.outs := List.mem_of_head? hr
    obtain ⟨later, hlog⟩ := writeLog_at h (before.flatMap Turn.reports ++ turn.ins) r
      (d ++ after.flatMap Turn.reports)
    have hplace : (before ++ turn :: after).flatMap Turn.reports =
        before.flatMap Turn.reports ++ turn.ins ++ r :: (d ++ after.flatMap Turn.reports) := by
      simp [Turn.reports, houts]
    rw [← hplace] at hlog
    obtain ⟨succeeds, hwrite⟩ := hbracketed.ends _ r _ _ hlog (Turn.of_mem_outs hmem).2
      fun e he hturn => by
        rcases List.mem_append.mp (mem_log he) with hearlier | hin
        · exact absurd (hturn.trans (Turn.of_mem_outs hmem).1) (number_ne hincreasing hearlier)
        · exact (Turn.of_mem_ins hin).2
    exact (Option.ite_none_right_eq_some.mp hwrite).1

/-- Each turn is entered with a try, -/
theorem crosses_ins {before after : List Turn} {turn : Turn}
    (hdetected : Detected isRunning (·.writable) (wasRunning registered)
      ((before ++ turn :: after).map Turn.period)) (hr : r ∈ turn.ins.head?) :
    crosses isRunning (sideAfterAll isRunning (·.writable) (wasRunning registered)
      (before.flatMap Turn.reports)) r = true := by
  have hin := (detected_iff_forall.mp hdetected (before.map Turn.period) turn.period
    (after.map Turn.period) (by rw [List.map_append, List.map_cons])).1 r hr
  rwa [flatMap_period] at hin

/-- and left with one. -/
theorem crosses_outs {before after : List Turn} {turn : Turn}
    (hdetected : Detected isRunning (·.writable) (wasRunning registered)
      ((before ++ turn :: after).map Turn.period)) (hr : r ∈ turn.outs.head?) :
    crosses isRunning (sideAfterAll isRunning (·.writable) (wasRunning registered)
      (before.flatMap Turn.reports ++ turn.ins)) r = true := by
  have hout := (detected_iff_forall.mp hdetected (before.map Turn.period) turn.period
    (after.map Turn.period) (by rw [List.map_append, List.map_cons])).2 r hr
  rwa [flatMap_period] at hout

variable {before after : List (Report × Option Write)}

theorem starts_of_detected {write : Option Write} (h : registry.get thread = some registered)
    (hdetected : Detected isRunning (·.writable) (wasRunning registered) (turns.map Turn.period))
    (hlog : writeLog thread registry (turns.flatMap Turn.reports) = before ++ (r, write) :: after)
    (hrunning : r.state = .running) (hfirst : ∀ e ∈ before, e.1.turn ≠ r.turn) :
    ∃ succeeds, write = some ⟨thread, r.turn, .start, succeeds⟩ := by
  obtain ⟨front, back, hrs, rfl, rfl⟩ := writeLog_place h hlog
  obtain ⟨earlier, turn, later, rfl, ⟨c, d, hins, rfl⟩ | ⟨c, d, houts, -⟩⟩ := Turn.placed hrs
  · have hturn : r.turn = turn.number := (Turn.of_mem_ins (by simp [hins])).1
    cases c with
    | nil =>
      rw [List.append_nil, if_pos (crosses_ins hdetected (by simp [hins]))]
      exact ⟨r.writable, by simp [writeOf, isRunning, hrunning]⟩
    | cons r' c =>
      obtain ⟨e, he, rfl⟩ := exists_mem_log thread (wasRunning registered)
        (List.mem_append_right (earlier.flatMap Turn.reports) (List.mem_cons_self (a := r')))
      have hturn' : e.1.turn = turn.number := (Turn.of_mem_ins (by simp [hins])).1
      exact absurd (hturn'.trans hturn.symm) (hfirst e he)
  · have hmem : r ∈ turn.outs := by simp [houts]
    exact absurd hrunning (Turn.of_mem_outs hmem).2

theorem ends_of_detected {write : Option Write} (h : registry.get thread = some registered)
    (hdetected : Detected isRunning (·.writable) (wasRunning registered) (turns.map Turn.period))
    (hlog : writeLog thread registry (turns.flatMap Turn.reports) = before ++ (r, write) :: after)
    (hstopped : r.state ≠ .running) (hfirst : ∀ e ∈ before, e.1.turn = r.turn → e.1.state = .running) :
    ∃ succeeds, write = some ⟨thread, r.turn, .final, succeeds⟩ := by
  obtain ⟨front, back, hrs, rfl, rfl⟩ := writeLog_place h hlog
  obtain ⟨earlier, turn, later, rfl, ⟨c, d, hins, -⟩ | ⟨c, d, houts, rfl⟩⟩ := Turn.placed hrs
  · have hmem : r ∈ turn.ins := by simp [hins]
    exact absurd (Turn.of_mem_ins hmem).2 hstopped
  · have hturn : r.turn = turn.number := (Turn.of_mem_outs (by simp [houts])).1
    cases c with
    | nil =>
      rw [List.append_nil, if_pos (crosses_outs hdetected (by simp [houts]))]
      exact ⟨r.writable, by simp [writeOf, isRunning, hstopped]⟩
    | cons r' c =>
      obtain ⟨e, he, rfl⟩ := exists_mem_log thread (wasRunning registered)
        (List.mem_append_right (earlier.flatMap Turn.reports ++ turn.ins)
          (List.mem_cons_self (a := r')))
      have hmem : e.1 ∈ turn.outs := by simp [houts]
      exact absurd (hfirst e he ((Turn.of_mem_outs hmem).1.trans hturn.symm))
        (Turn.of_mem_outs hmem).2

/-- An end that is written has a start before it, at the first report of its turn. -/
theorem follows_of_detected {write : Write} (h : registry.get thread = some registered)
    (hdetected : Detected isRunning (·.writable) (wasRunning registered) (turns.map Turn.period))
    (hlog : writeLog thread registry (turns.flatMap Turn.reports) =
      before ++ (r, some write) :: after) (hfinal : write.phase = .final) :
    ∃ e ∈ before, ∃ start, e.2 = some start ∧ start.phase = .start ∧ start.turn = write.turn := by
  obtain ⟨front, back, hrs, rfl, hwrite⟩ := writeLog_place h hlog
  obtain ⟨-, hwrite⟩ := Option.ite_none_right_eq_some.mp hwrite.symm
  obtain rfl := Option.some.inj hwrite
  obtain ⟨earlier, turn, later, rfl, ⟨c, d, hins, -⟩ | ⟨c, d, houts, rfl⟩⟩ := Turn.placed hrs
  · have hmem : r ∈ turn.ins := by simp [hins]
    have hrunning : r.state = .running := (Turn.of_mem_ins hmem).2
    simp [writeOf, isRunning, hrunning] at hfinal
  · obtain ⟨first, hfirst⟩ : ∃ first, turn.ins.head? = some first :=
      Option.isSome_iff_exists.mp (by simp [Turn.ins, turn.runs])
    obtain ⟨ins, hins⟩ := List.head?_eq_some_iff.mp hfirst
    have hcrosses := crosses_ins hdetected hfirst
    have hmem : first ∈ turn.ins := List.mem_of_head? hfirst
    refine ⟨(first, some (writeOf thread first)), ?_, _, rfl, ?_, ?_⟩
    · rw [List.append_assoc, hins, crossings_append, List.cons_append, crossings, hcrosses]
      simp [logEntry]
    · simp [writeOf, isRunning, (Turn.of_mem_ins hmem).2]
    · exact (Turn.of_mem_ins hmem).1.trans (Turn.of_mem_outs (by simp [houts])).1.symm

/-- When each turn is entered and left with a try, the log brackets the turns. -/
theorem bracketed_of_detected (h : registry.get thread = some registered)
    (hdetected : Detected isRunning (·.writable) (wasRunning registered) (turns.map Turn.period)) :
    Bracketed thread (writeLog thread registry (turns.flatMap Turn.reports)) where
  starts _ _ _ _ := starts_of_detected h hdetected
  ends _ _ _ _ := ends_of_detected h hdetected
  follows _ _ _ _ hlog hfinal _ := follows_of_detected h hdetected hlog hfinal
  numbered r write hmem := by
    obtain ⟨before, after, hlog⟩ := List.append_of_mem hmem
    obtain ⟨front, back, hrs, hbefore, hwrite⟩ := writeLog_place h hlog
    obtain ⟨-, hwrite⟩ := Option.ite_none_right_eq_some.mp hwrite.symm
    obtain rfl := Option.some.inj hwrite
    exact ⟨rfl, rfl⟩

theorem get_register {info : WorktreeInfo} {engine : Engine} :
    (registry.register info engine).get info.threadId = some ⟨info, engine, .idle⟩ := by
  simp [GitRegistry.register, GitRegistry.get]

/-- From its registration on, the turns of a thread are bracketed if and only if in every turn a
start checkpoint can be written at some report that it is running, and in every turn but the last
an end checkpoint at some report that it is not. -/
theorem bracketed_iff (registry : GitRegistry Engine) (info : WorktreeInfo) (engine : Engine)
    (turns : List Turn) (hincreasing : turns.Pairwise (·.number < ·.number)) :
    Bracketed info.threadId
        (writeLog info.threadId (registry.register info engine) (turns.flatMap Turn.reports)) ↔
      (∀ turn ∈ turns, true ∈ turn.running) ∧
        ∀ turn ∈ turns.dropLast, ∃ s ∈ turn.stopped, s.2 = true := by
  have hperiods : ∀ p ∈ turns.map Turn.period, IsPeriod isRunning p := by
    rw [List.forall_mem_map]
    exact fun turn _ => turn.isPeriod
  have hdetected : Bracketed info.threadId
      (writeLog info.threadId (registry.register info engine) (turns.flatMap Turn.reports)) ↔
        Detected isRunning (·.writable) false (turns.map Turn.period) :=
    ⟨detected_of_bracketed get_register hincreasing, bracketed_of_detected get_register⟩
  rw [hdetected, detected_iff hperiods, ← List.map_dropLast, List.forall_mem_map, List.forall_mem_map]
  simp only [Turn.period, Turn.exists_ins_writable, Turn.exists_outs_writable]

end Bracketing

/-- A turn that runs and stops, with whether the two writes succeed. -/
def simpleTurn (number : Nat) (started stopped : Bool) : Turn where
  number
  running := [started]
  stopped := [(.idle, stopped)]
  runs := by simp
  stops := by simp
  stopped_state := by simp

theorem bracketed_two_turns :
    Bracketed "a" (writeLog "a"
      (GitRegistry.register ⟨.empty, .empty⟩ ⟨"a", "/repo", "/repo/wt"⟩ ())
      ([simpleTurn 1 true true, simpleTurn 2 true false].flatMap Turn.reports)) :=
  (bracketed_iff ⟨.empty, .empty⟩ ⟨"a", "/repo", "/repo/wt"⟩ ()
    [simpleTurn 1 true true, simpleTurn 2 true false] (by simp [simpleTurn])).mpr
      ⟨by simp [simpleTurn], by simp [simpleTurn]⟩

/-- When the end of the first turn cannot be written, the start of the second is not tried. -/
theorem second_turn_not_started :
    ¬ Bracketed "a" (writeLog "a"
      (GitRegistry.register ⟨.empty, .empty⟩ ⟨"a", "/repo", "/repo/wt"⟩ ())
      ([simpleTurn 1 true false, simpleTurn 2 true true].flatMap Turn.reports)) := by
  intro hbracketed
  obtain ⟨succeeds, hwrite⟩ := hbracketed.starts
    [(⟨1, .running, true⟩, some ⟨"a", 1, .start, true⟩),
      (⟨1, .idle, false⟩, some ⟨"a", 1, .final, false⟩)] ⟨2, .running, true⟩ none
    [(⟨2, .idle, true⟩, some ⟨"a", 2, .final, true⟩)] rfl rfl (by simp)
  cases hwrite

end Tethys.Core
