import Mathlib.Data.String.Basic
import Tethys.Lib.OrdMap
import Tethys.Lib.Runs
import Tethys.Core.ThreadHandle

/-!
# The map of threads

`create` and `delete` of `tethys-core/src/thread_session.rs`. A new thread is named after the
number of threads: `create` reads that number in one section of the map's lock and inserts
the handle in another. After a deletion the number can be that of a thread which still
exists, and two calls can read the same number; the insertion then replaces a handle.

`threads_kept` gives the draws that have to be avoided: those of a number that a thread or
another call already has.
-/

namespace Tethys.Core

open Schema Lib Thread

structure CreateThread where
  workspaceId : String
  agentProfileId : String
  workdir : String
  deriving DecidableEq

structure ThreadSummary where
  id : String
  workspaceId : String
  agentProfileId : String
  title : String
  workdir : String
  state : ThreadState
  sessionId : Option String
  deriving DecidableEq

/-- A handle: which one it is, and what it holds. -/
structure ThreadInner where
  handle : Nat
  machine : ThreadMachine
  workspaceId : String
  agentProfileId : String
  workdir : String
  workspaceRoot : String
  session : Option String
  lease : Option Connection
  deriving DecidableEq

def ThreadInner.summary (inner : ThreadInner) : ThreadSummary where
  id := inner.machine.id
  workspaceId := inner.workspaceId
  agentProfileId := inner.agentProfileId
  title := inner.machine.title.getD "Untitled"
  workdir := inner.workdir
  state := inner.machine.state
  sessionId := inner.session

inductive CreateError where
  | notFound (message : String)
  /-- what the workspace roots answered -/
  | root (message : String)
  deriving DecidableEq

/-- Where a call of `create` stands. -/
inductive Creating where
  /-- before the profile is looked up -/
  | start (request : CreateThread)
  /-- waiting for the root of the workspace -/
  | rooting (request : CreateThread)
  /-- before the number of threads is read -/
  | numbering (request : CreateThread) (workspaceRoot : String)
  /-- before the handle is inserted -/
  | inserting (inner : ThreadInner)
  deriving DecidableEq

/-- The id that a call has drawn. -/
def Creating.drawn : Creating → Option String
  | .inserting inner => some inner.machine.id
  | _ => none

/-- The threads, the calls of `create` and what they returned. `made` counts the handles;
`alive` is the history of insertions without the threads that were deleted since. -/
structure ThreadSessions where
  profiles : List String
  threads : OrdMap String ThreadInner
  calls : List Creating
  made : Nat
  returned : List (Except CreateError ThreadSummary)
  alive : List (String × Nat)

inductive ThreadsAct where
  | registerProfile (profileId : String)
  | create (request : CreateThread)
  | lookup (call : Creating)
  | rooted (call : Creating) (root : Except String String)
  | number (call : Creating)
  | insert (call : Creating)
  | delete (id : String)

namespace ThreadSessions

def new : ThreadSessions := ⟨[], .empty, [], 0, [], []⟩

/-- The id for a thread that is numbered now. -/
def nextId (s : ThreadSessions) : String := "thread-" ++ toString (s.threads.entries.length + 1)

/-- The handle of a new thread. -/
def newInner (s : ThreadSessions) (request : CreateThread) (workspaceRoot : String) :
    ThreadInner where
  handle := s.made
  machine := ThreadMachine.new s.nextId
  workspaceId := request.workspaceId
  agentProfileId := request.agentProfileId
  workdir := request.workdir
  workspaceRoot := workspaceRoot
  session := none
  lease := none

/-- The call goes on. -/
def advance (s : ThreadSessions) (call next : Creating) : ThreadSessions :=
  { s with calls := next :: s.calls.erase call }

/-- The call returns. -/
def finish (s : ThreadSessions) (call : Creating) (result : Except CreateError ThreadSummary) :
    ThreadSessions :=
  { s with calls := s.calls.erase call, returned := s.returned ++ [result] }

def step (s : ThreadSessions) : ThreadsAct → Option ThreadSessions
  | .registerProfile profileId => some { s with profiles := profileId :: s.profiles }
  | .create request => some { s with calls := .start request :: s.calls }
  | .lookup call =>
    match call with
    | .start request =>
      if call ∈ s.calls then
        some (if request.agentProfileId ∈ s.profiles then s.advance call (.rooting request)
          else s.finish call (.error (.notFound ("agent profile " ++ request.agentProfileId))))
      else none
    | _ => none
  | .rooted call root =>
    match call with
    | .rooting request =>
      if call ∈ s.calls then
        some (match root with
          | .ok workspaceRoot => s.advance call (.numbering request workspaceRoot)
          | .error message => s.finish call (.error (.root message)))
      else none
    | _ => none
  | .number call =>
    match call with
    | .numbering request workspaceRoot =>
      if call ∈ s.calls then
        some { s.advance call (.inserting (s.newInner request workspaceRoot)) with
          made := s.made + 1 }
      else none
    | _ => none
  | .insert call =>
    match call with
    | .inserting inner =>
      if call ∈ s.calls then
        some { s.finish call (.ok inner.summary) with
          threads := s.threads.insert inner.machine.id inner
          alive := s.alive ++ [(inner.machine.id, inner.handle)] }
      else none
    | _ => none
  | .delete id =>
    some { s with
      threads := s.threads.erase id
      alive := s.alive.filter fun thread => thread.1 ≠ id }

/-! ## What should hold -/

/-- Every thread that was created and not deleted still has its handle. -/
def KeepsThreads (s : ThreadSessions) : Prop :=
  ∀ thread ∈ s.alive, (s.threads.get thread.1).map (·.handle) = some thread.2

/-- A call of `create` returns the id of no thread that exists before its insertion. -/
def NewId (s : ThreadSessions) : ThreadsAct → Prop
  | .insert (.inserting inner) => s.threads.get inner.machine.id = none
  | _ => True

/-- A number is drawn only if neither a thread nor a call that is about to insert has it. -/
def Unclaimed (s : ThreadSessions) : ThreadsAct → Prop
  | .number _ => s.threads.get s.nextId = none ∧ s.nextId ∉ s.calls.filterMap Creating.drawn
  | _ => True

instance (s : ThreadSessions) : (a : ThreadsAct) → Decidable (s.Unclaimed a)
  | .number _ => inferInstanceAs
      (Decidable (s.threads.get s.nextId = none ∧ s.nextId ∉ s.calls.filterMap Creating.drawn))
  | .registerProfile _ | .create _ | .lookup _ | .rooted _ _ | .insert _ | .delete _ =>
    isTrue trivial

/-! ## The invariant -/

variable {s t : ThreadSessions} {a : ThreadsAct} {call next : Creating}

/-- The ids that were drawn are different from each other and from those of the threads. -/
structure ThreadsOk (s : ThreadSessions) : Prop where
  distinct : (s.calls.filterMap Creating.drawn).Nodup
  unused : ∀ id ∈ s.calls.filterMap Creating.drawn, s.threads.get id = none
  kept : s.KeepsThreads

/-- The ids drawn by the calls, with that of one call in front. -/
theorem drawn_perm {calls : List Creating} (hmem : call ∈ calls) :
    (calls.filterMap Creating.drawn).Perm
      (call.drawn.toList ++ (calls.erase call).filterMap Creating.drawn) := by
  have hperm := (List.perm_cons_erase hmem).filterMap Creating.drawn
  cases hd : call.drawn with
  | none => simpa [List.filterMap_cons, hd] using hperm
  | some id => simpa [List.filterMap_cons, hd] using hperm

namespace ThreadsOk

theorem new : ThreadsOk .new := ⟨List.nodup_nil, nofun, nofun⟩

/-- What matters of the calls is what they have drawn. -/
theorem of_calls (h : ThreadsOk s) (calls : List Creating)
    (hsub : ∀ id ∈ calls.filterMap Creating.drawn, id ∈ s.calls.filterMap Creating.drawn)
    (hdistinct : (calls.filterMap Creating.drawn).Nodup) (hcalls : t.calls = calls)
    (hthreads : t.threads = s.threads) (halive : t.alive = s.alive) : ThreadsOk t := by
  refine ⟨hcalls ▸ hdistinct, fun id hid => ?_, ?_⟩
  · rw [hthreads]
    exact h.unused id (hsub id (hcalls ▸ hid))
  · intro thread hthread
    rw [hthreads]
    exact h.kept thread (halive ▸ hthread)

theorem erase_drawn (h : ThreadsOk s) (hmem : call ∈ s.calls) :
    ((s.calls.erase call).filterMap Creating.drawn).Nodup ∧
      ∀ id ∈ (s.calls.erase call).filterMap Creating.drawn, id ∈ s.calls.filterMap Creating.drawn := by
  have hperm := drawn_perm hmem
  refine ⟨(hperm.nodup h.distinct).of_append_right, fun id hid => ?_⟩
  exact hperm.mem_iff.mpr (List.mem_append_right _ hid)

/-- A call that has not drawn an id goes on to a place where it still has not. -/
theorem advance (h : ThreadsOk s) (hmem : call ∈ s.calls) (hnext : next.drawn = none) :
    ThreadsOk (s.advance call next) := by
  obtain ⟨hdistinct, hsub⟩ := h.erase_drawn hmem
  refine h.of_calls (next :: s.calls.erase call) ?_ ?_ rfl rfl rfl
  · simpa [List.filterMap_cons, hnext] using hsub
  · simpa [List.filterMap_cons, hnext] using hdistinct

theorem finish (h : ThreadsOk s) (hmem : call ∈ s.calls)
    (result : Except CreateError ThreadSummary) : ThreadsOk (s.finish call result) := by
  obtain ⟨hdistinct, hsub⟩ := h.erase_drawn hmem
  exact h.of_calls _ hsub hdistinct rfl rfl rfl

theorem number (h : ThreadsOk s) {request : CreateThread} {workspaceRoot : String}
    (hmem : call ∈ s.calls) (hthread : s.threads.get s.nextId = none)
    (hcall : s.nextId ∉ s.calls.filterMap Creating.drawn) :
    ThreadsOk { s.advance call (.inserting (s.newInner request workspaceRoot)) with
      made := s.made + 1 } := by
  obtain ⟨hdistinct, hsub⟩ := h.erase_drawn hmem
  have hdrawn : (Creating.inserting (s.newInner request workspaceRoot)).drawn = some s.nextId := rfl
  refine ⟨?_, fun id hid => ?_, h.kept⟩
  · simp only [ThreadSessions.advance, List.filterMap_cons, hdrawn]
    exact List.nodup_cons.mpr ⟨fun hid => hcall (hsub _ hid), hdistinct⟩
  · simp only [ThreadSessions.advance, List.filterMap_cons, hdrawn, List.mem_cons] at hid
    rcases hid with rfl | hid
    · exact hthread
    · exact h.unused id (hsub id hid)

/-- The id of the call was nobody's, so that no thread is replaced. -/
theorem insert (h : ThreadsOk s) {inner : ThreadInner} (hmem : .inserting inner ∈ s.calls) :
    s.threads.get inner.machine.id = none ∧
      ThreadsOk { s.finish (.inserting inner) (.ok inner.summary) with
        threads := s.threads.insert inner.machine.id inner
        alive := s.alive ++ [(inner.machine.id, inner.handle)] } := by
  have hperm := drawn_perm hmem
  have hdrawn : (Creating.inserting inner).drawn.toList = [inner.machine.id] := rfl
  rw [hdrawn] at hperm
  obtain ⟨hnot, hdistinct⟩ := List.nodup_cons.mp (hperm.nodup h.distinct)
  have hnew : s.threads.get inner.machine.id = none :=
    h.unused _ (hperm.mem_iff.mpr List.mem_cons_self)
  refine ⟨hnew, hdistinct, fun id hid => ?_, fun thread hthread => ?_⟩
  · have hne : id ≠ inner.machine.id := fun heq => hnot (heq ▸ hid)
    simp only [OrdMap.get_insert, if_neg hne]
    exact h.unused id (hperm.mem_iff.mpr (List.mem_cons_of_mem _ hid))
  · rcases List.mem_append.mp hthread with hold | hnewest
    · have hget := h.kept thread hold
      have hne : thread.1 ≠ inner.machine.id := by
        rintro heq
        rw [heq, hnew] at hget
        cases hget
      simpa only [OrdMap.get_insert, if_neg hne] using hget
    · obtain rfl := List.mem_singleton.mp hnewest
      simp

theorem delete (h : ThreadsOk s) (id : String) :
    ThreadsOk { s with
      threads := s.threads.erase id, alive := s.alive.filter fun thread => thread.1 ≠ id } := by
  refine ⟨h.distinct, fun id' hid' => ?_, fun thread hthread => ?_⟩
  · simp only [OrdMap.get_erase, h.unused id' hid', ite_self]
  · obtain ⟨hold, hne⟩ := List.mem_filter.mp hthread
    have hne : thread.1 ≠ id := by simpa using hne
    simpa only [OrdMap.get_erase, if_neg hne] using h.kept thread hold

theorem step (h : ThreadsOk s) (hgood : s.Unclaimed a) (hstep : s.step a = some t) :
    ThreadsOk t := by
  cases a with
  | registerProfile profileId =>
    obtain rfl := Option.some.inj hstep
    exact ⟨h.distinct, h.unused, h.kept⟩
  | create request =>
    obtain rfl := Option.some.inj hstep
    exact ⟨h.distinct, h.unused, h.kept⟩
  | lookup call =>
    cases call with
    | start request =>
      simp only [ThreadSessions.step] at hstep
      split_ifs at hstep with hmem hprofile
      · obtain rfl := Option.some.inj hstep
        exact h.advance hmem rfl
      · obtain rfl := Option.some.inj hstep
        exact h.finish hmem _
    | _ => cases hstep
  | rooted call root =>
    cases call with
    | rooting request =>
      simp only [ThreadSessions.step] at hstep
      split_ifs at hstep with hmem
      cases root with
      | ok workspaceRoot =>
        obtain rfl := Option.some.inj hstep
        exact h.advance hmem rfl
      | error message =>
        obtain rfl := Option.some.inj hstep
        exact h.finish hmem _
    | _ => cases hstep
  | number call =>
    cases call with
    | numbering request workspaceRoot =>
      simp only [ThreadSessions.step] at hstep
      split_ifs at hstep with hmem
      obtain rfl := Option.some.inj hstep
      exact h.number hmem hgood.1 hgood.2
    | _ => cases hstep
  | insert call =>
    cases call with
    | inserting inner =>
      simp only [ThreadSessions.step] at hstep
      split_ifs at hstep with hmem
      obtain rfl := Option.some.inj hstep
      exact (h.insert hmem).2
    | _ => cases hstep
  | delete id =>
    obtain rfl := Option.some.inj hstep
    exact h.delete id

theorem newId (h : ThreadsOk s) (hstep : s.step a = some t) : s.NewId a := by
  cases a with
  | insert call =>
    cases call with
    | inserting inner =>
      simp only [ThreadSessions.step] at hstep
      split_ifs at hstep with hmem
      exact (h.insert hmem).1
    | _ => trivial
  | _ => trivial

end ThreadsOk

/-- In every run in which each number is drawn while nobody has it, a call of `create` returns
a new id, and every thread keeps its handle until it is deleted. -/
theorem threads_kept (acts : List ThreadsAct) (hgood : Meets step Unclaimed .new acts) :
    Meets step NewId .new acts ∧ Always step KeepsThreads .new acts :=
  ⟨meets_of_meets (fun _ _ _ h _ => ThreadsOk.newId h) (fun _ _ _ => ThreadsOk.step)
      ThreadsOk.new hgood,
    always_of_meets (fun _ => ThreadsOk.kept) (fun _ _ _ => ThreadsOk.step) ThreadsOk.new hgood⟩

section Reuse

def request : CreateThread := ⟨"workspace", "claude", "/w"⟩

/-- A call of `create` from its start to its return, when there are `threads` threads and
`made` handles were made. -/
def createNow (threads made : Nat) : List ThreadsAct :=
  let id := "thread-" ++ toString (threads + 1)
  [.create request, .lookup (.start request), .rooted (.rooting request) (.ok "/w"),
    .number (.numbering request "/w"),
    .insert (.inserting ⟨made, ThreadMachine.new id, "workspace", "claude", "/w", "/w", none,
      none⟩)]

/-- The newest of two threads is deleted, and its number used again. -/
def deleteNewest : List ThreadsAct :=
  .registerProfile "claude" :: createNow 0 0 ++ createNow 1 1 ++ .delete "thread-2" :: createNow 1 2

theorem deleteNewest_keeps_threads :
    (∃ s, run step .new deleteNewest = some s ∧ s.alive = [("thread-1", 0), ("thread-2", 2)]) ∧
      Meets step NewId .new deleteNewest ∧ Always step KeepsThreads .new deleteNewest :=
  ⟨⟨_, rfl, by decide +kernel⟩, threads_kept deleteNewest (by decide +kernel)⟩

/-- The older of two threads is deleted. -/
def deleteOldest : List ThreadsAct :=
  .registerProfile "claude" :: createNow 0 0 ++ createNow 1 1 ++ .delete "thread-1" :: createNow 1 2

/-- The third thread gets the number of the second, whose handle is lost. -/
theorem create_replaces_thread :
    (∃ s, run step .new deleteOldest = some s ∧ s.alive = [("thread-2", 1), ("thread-2", 2)] ∧
      (s.threads.get "thread-2").map (·.handle) = some 2) ∧
    ¬ Always step KeepsThreads .new deleteOldest := by
  refine ⟨⟨_, rfl, by decide +kernel, by decide +kernel⟩, fun halways => ?_⟩
  have hkept := halways.last rfl ("thread-2", 1) (by decide +kernel)
  revert hkept
  decide +kernel

end Reuse

end ThreadSessions

end Tethys.Core
