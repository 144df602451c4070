import Mathlib.Data.List.Perm.Subperm
import Tethys.AgentServers.Leases
import Tethys.AgentServers.Recovery
import Tethys.Core.ThreadHandle

/-!
# Threads on shared agents

All threads of `tethys-core/src/thread_session.rs` on one `ConnectionStore`: threads are
created and deleted, their calls acquire leases from the store, and their reader tasks,
`resume`, `mark_transport_lost` and failing calls give leases up. A lease is owned by the
slot of its thread or by one call, as Rust has it; what is owned no longer is dropped, which
releases it in a section of its own. The counter of an entry is then the number of leases
that its threads own or are dropping, and the idle reaper finds no agent that a thread owns.
-/

namespace Tethys.Core

open Lib AgentServers

/-! ## What a thread owns -/

/-- The lease that a call owns. From `startReader` on it has the connection only. -/
def Pc.held : Pc → List Connection
  | .acquired _ connection => [connection]
  | .install connection _ => [connection]
  | _ => []

namespace Handle

variable {s t : Handle} {call : Call} {a : HandleAct}

def held (s : Handle) : List Connection := s.lease.toList ++ s.calls.flatMap fun call => call.pc.held

/-- `delete` takes the reader out of its slot and aborts it. -/
def abortReader (s : Handle) : Handle :=
  { s with
    reader := none
    tasks := s.tasks.filter fun task => s.reader ≠ some task.id }

/-- Only the slot and the calls count. -/
theorem held_perm (hmem : call ∈ s.calls) :
    s.held.Perm (s.lease.toList ++ call.pc.held ++
      (s.calls.erase call).flatMap fun call => call.pc.held) := by
  rw [held, List.append_assoc]
  exact ((List.perm_cons_erase hmem).flatMap_right _).append_left _

/-- A call that goes on, or has returned, owns no more than it did, with what is in the slot. -/
theorem held_subperm_of_calls (new : List Call) (hmem : call ∈ s.calls)
    (hcalls : t.calls = new ++ s.calls.erase call)
    (hown : (t.lease.toList ++ new.flatMap fun call => call.pc.held).Subperm
      (s.lease.toList ++ call.pc.held)) : t.held.Subperm s.held := by
  rw [(held_perm hmem).subperm_left, held, hcalls, List.flatMap_append, ← List.append_assoc]
  exact (List.subperm_append_right _).mpr hown

theorem held_subperm_advance {pc : Pc} (hmem : call ∈ s.calls) (hpc : pc.held = []) :
    (s.advance call pc).held.Subperm s.held := by
  refine held_subperm_of_calls [{ call with pc := pc }] hmem rfl ?_
  simp [advance, hpc, List.Sublist.subperm]

theorem held_subperm_finish (hmem : call ∈ s.calls) : (s.finish call).held.Subperm s.held := by
  refine held_subperm_of_calls [] hmem rfl ?_
  simp [finish, List.Sublist.subperm]

/-- Only `acquire` gives a thread a lease that it did not own. -/
theorem held_subperm_of_step (hstep : s.step a = some t)
    (hne : ∀ call connection, a ≠ .acquired call connection) : t.held.Subperm s.held := by
  cases stepped_of_step hstep with
  | prompt | resumed => simp [held, Pc.held, List.Subperm.refl]
  | resume kind hmem =>
    refine held_subperm_of_calls [⟨kind, .start⟩] hmem rfl ?_
    simp [Pc.held, List.nil_subperm]
  | readSession kind hmem => exact held_subperm_advance hmem rfl
  | checkLive kind existing hmem => exact held_subperm_advance hmem (by split_ifs <;> rfl)
  | acquired kind existing connection hmem => exact absurd rfl (hne _ _)
  | sessionReady kind existing connection fresh hmem =>
    refine held_subperm_of_calls [⟨kind, .install connection (existing.getD fresh)⟩] hmem rfl ?_
    simp [advance, Pc.held, List.Subperm.refl]
  | fail call hmem => exact held_subperm_finish hmem
  | install kind connection session hmem =>
    refine held_subperm_of_calls [⟨kind, .startReader connection session⟩] hmem rfl ?_
    simp [Pc.held, List.Sublist.subperm]
  | checkSlot kind connection session hmem =>
    exact held_subperm_advance hmem (by split_ifs <;> rfl)
  | spawn kind connection session hmem => exact held_subperm_advance hmem rfl
  | store kind task hmem => exact held_subperm_advance hmem rfl
  | ensured kind hmem =>
    split_ifs
    · exact held_subperm_advance hmem rfl
    · exact held_subperm_finish hmem
  | promptAnswered kind hmem => exact held_subperm_finish hmem
  | promptFailed kind hmem => exact held_subperm_advance hmem rfl
  | transportLost kind hmem =>
    refine held_subperm_of_calls [] hmem rfl ?_
    simp [List.nil_subperm]
  | event task seq body origin hmem => exact List.Subperm.refl _
  | taskEnd task hmem => exact (List.sublist_append_right _ _).subperm
  | streamEnd task hmem => exact (List.sublist_append_right _ _).subperm
  | close connection => exact List.Subperm.refl _

/-- The call that waited for `acquire` owns the lease it got. -/
theorem held_of_acquired {connection : Connection}
    (hstep : s.step (.acquired call connection) = some t) :
    t.held.Perm (connection :: s.held) := by
  cases stepped_of_step hstep with
  | acquired kind existing connection hmem =>
    have hperm := held_perm hmem
    simp only [Pc.held, List.append_nil] at hperm
    refine .trans ?_ (hperm.symm.cons connection)
    simp [held, advance, Pc.held]

end Handle

/-! ## The fleet -/

/-- A thread with the key of its profile. One that is not in the map any more lives on while a call
or a reader task has its handle. -/
structure FleetThread where
  key : ConnectionKey
  handle : Handle
  deleted : Bool
  deriving DecidableEq

/-- An agent is known to the threads on its profile by its serial number. -/
def leaseOf (key : ConnectionKey) (connection : Connection) : ConnectionLease :=
  ⟨key, ⟨key, connection⟩⟩

def FleetThread.held (thread : FleetThread) : List ConnectionLease :=
  thread.handle.held.map (leaseOf thread.key)

/-- The store, the threads, and the leases whose drop has not reached the store. -/
structure Fleet where
  store : Store
  threads : List FleetThread
  dropping : List ConnectionLease

inductive FleetAct where
  | create (key : ConnectionKey) (id : String)
  | delete (thread : Nat)
  /-- A new thread takes its id in the map. -/
  | displace (thread : Nat)
  /-- The last reference to the handle of a deleted thread is gone. -/
  | free (thread : Nat)
  /-- A section of the store that hands out no lease. -/
  | store (a : Act)
  /-- A section of `acquire` that hands its lease to a call. -/
  | grant (thread : Nat) (call : Call) (a : Act)
  /-- Any other step of a thread. -/
  | thread (thread : Nat) (a : HandleAct)
  /-- A dropped lease reaches the store. -/
  | release (lease : ConnectionLease)
  deriving DecidableEq

namespace Fleet

def new : Fleet := ⟨.new, [], []⟩

/-- The leases that threads and calls own. -/
def held (s : Fleet) : List ConnectionLease := s.threads.flatMap FleetThread.held

/-- A thread goes on. What it owns no longer is dropped. -/
def moveThread (s : Fleet) (n : Nat) (thread next : FleetThread) : Fleet :=
  { s with
    threads := s.threads.set n next
    dropping := s.dropping ++ thread.held.diff next.held }

/-- Steps a thread takes by itself; a deleted one is not found by new calls. -/
def ownStep (thread : FleetThread) : HandleAct → Bool
  | .acquired .. => false
  | .call _ => !thread.deleted
  | _ => true

def step (grace : Nat) (s : Fleet) : FleetAct → Option Fleet
  | .create key id => some { s with threads := s.threads ++ [⟨key, .new id, false⟩] }
  | .delete n =>
    match s.threads[n]? with
    | some thread =>
      if thread.deleted then none
      else some (s.moveThread n thread
        { thread with handle := thread.handle.abortReader, deleted := true })
    | none => none
  | .displace n =>
    match s.threads[n]? with
    | some thread => some (s.moveThread n thread { thread with deleted := true })
    | none => none
  | .free n =>
    match s.threads[n]? with
    | some thread =>
      if thread.deleted ∧ thread.handle.calls = [] ∧ thread.handle.tasks = [] then
        some { s with
          threads := s.threads.eraseIdx n
          dropping := s.dropping ++ thread.held }
      else none
    | none => none
  | .store a =>
    match a, s.store.grants a with
    | .release _, _ => none
    | _, some _ => none
    | a, none => (s.store.step grace a).map fun store => { s with store := store }
  | .grant n call a =>
    match s.threads[n]?, s.store.grants a, s.store.step grace a with
    | some thread, some lease, some store =>
      if lease.key = thread.key then
        (thread.handle.step (.acquired call lease.connection.serial)).map fun handle =>
          { s with
            store := store
            threads := s.threads.set n { thread with handle := handle } }
      else none
    | _, _, _ => none
  | .thread n a =>
    match s.threads[n]? with
    | some thread =>
      if ownStep thread a then
        (thread.handle.step a).map fun handle => s.moveThread n thread { thread with handle := handle }
      else none
    | none => none
  | .release lease =>
    if lease ∈ s.dropping then
      (s.store.step grace (.release lease)).map fun store =>
        { s with store := store, dropping := s.dropping.erase lease }
    else none

variable {grace : Nat} {s t : Fleet} {n : Nat} {thread next : FleetThread}

/-! ## Accounts -/

/-- What is out of the store is owned by a thread or being dropped. -/
structure Balanced (s : Fleet) : Prop where
  store : StoreOk s.store
  owned : s.store.outstanding.Perm (s.held ++ s.dropping)

theorem Balanced.new : Balanced .new := ⟨.new, .nil⟩

theorem outstanding_of_grants {store store' : Store} {a : Act}
    (hstep : store.step grace a = some store') (hne : ∀ lease, a ≠ .release lease) :
    store'.outstanding = (store.grants a).toList ++ store.outstanding := by
  cases AgentServers.Store.stepped_of_step hstep with
  | leased key agent hg hlive => simp [Store.grants, hg, hlive]
  | missed key hg hmiss => simp [Store.grants, hg, hmiss, Store.modify]
  | install key hg => simp [Store.grants, hg, Store.install]
  | release lease hmem => exact absurd rfl (hne lease)
  | _ => rfl

/-- What the other threads own. -/
def others (s : Fleet) (n : Nat) : List ConnectionLease :=
  (s.threads.eraseIdx n).flatMap FleetThread.held

theorem held_perm_others (hget : s.threads[n]? = some thread) :
    s.held.Perm (thread.held ++ s.others n) := by
  obtain ⟨hlt, rfl⟩ := List.getElem?_eq_some_iff.mp hget
  exact (List.getElem_cons_eraseIdx_perm hlt).symm.flatMap_right _

theorem held_set_perm (hget : s.threads[n]? = some thread) (next : FleetThread) :
    ((s.threads.set n next).flatMap FleetThread.held).Perm (next.held ++ s.others n) := by
  obtain ⟨hlt, -⟩ := List.getElem?_eq_some_iff.mp hget
  exact (List.set_perm_cons_eraseIdx hlt next).flatMap_right _

theorem Balanced.moveThread (h : Balanced s) (hget : s.threads[n]? = some thread)
    (hown : next.held.Subperm thread.held) : Balanced (s.moveThread n thread next) := by
  refine ⟨h.store, h.owned.trans ?_⟩
  have hdrop : (next.held ++ thread.held.diff next.held).Perm thread.held :=
    List.subperm_append_diff_self_of_count_le fun lease _ => hown.count_le lease
  have hbefore := held_perm_others hget
  have hafter := held_set_perm hget next
  refine List.perm_iff_count.mpr fun lease => ?_
  have h1 := hdrop.count_eq lease
  have h2 := hbefore.count_eq lease
  have h3 := hafter.count_eq lease
  simp only [List.count_append] at h1 h2 h3
  simp only [Fleet.moveThread, held, List.count_append] at h2 ⊢
  omega

theorem FleetThread.held_subperm (hown : next.handle.held.Subperm thread.handle.held)
    (hkey : next.key = thread.key) : next.held.Subperm thread.held := by
  obtain ⟨owned, hperm, hsub⟩ := hown
  rw [FleetThread.held, FleetThread.held, hkey]
  exact ⟨owned.map _, hperm.map _, hsub.map _⟩

theorem Balanced.grant (h : Balanced s) {a : Act} {call : Call} {lease : ConnectionLease}
    {store : Store} {handle : Handle} (hget : s.threads[n]? = some thread)
    (hgrants : s.store.grants a = some lease) (hstep : s.store.step grace a = some store)
    (hkey : lease.key = thread.key)
    (hcall : thread.handle.step (.acquired call lease.connection.serial) = some handle) :
    Balanced { s with
      store := store, threads := s.threads.set n { thread with handle := handle } } := by
  have hne : ∀ lease, a ≠ .release lease := by
    rintro lease' rfl
    cases hgrants
  have hout := outstanding_of_grants hstep hne
  rw [hgrants, Option.toList_some, List.singleton_append] at hout
  have hstore := h.store.step hstep
  refine ⟨hstore, ?_⟩
  -- The lease on an agent is that of its profile, so the thread's number for it gives it back.
  have hlease : leaseOf thread.key lease.connection.serial = lease := by
    have hagent := (hstore.leased lease (hout ▸ List.mem_cons_self)).2
    obtain ⟨key, agentKey, serial⟩ := lease
    obtain rfl : agentKey = key := hagent
    rw [leaseOf, ← hkey]
  have hnext : (FleetThread.held { thread with handle := handle }).Perm (lease :: thread.held) := by
    have hmap := (Handle.held_of_acquired hcall).map (leaseOf thread.key)
    rwa [List.map_cons, hlease] at hmap
  refine List.perm_iff_count.mpr fun l => ?_
  have h1 := hnext.count_eq l
  have h2 := (held_perm_others hget).count_eq l
  have h3 := (held_set_perm hget { thread with handle := handle }).count_eq l
  have h4 := h.owned.count_eq l
  simp only [List.count_append, List.count_cons] at h1 h2 h3 h4
  simp only [hout, held, List.count_append, List.count_cons] at h2 h4 ⊢
  omega

theorem Balanced.step (h : Balanced s) {a : FleetAct} (hstep : s.step grace a = some t) :
    Balanced t := by
  cases a with
  | create key id =>
    obtain rfl := Option.some.inj hstep
    refine ⟨h.store, ?_⟩
    simpa [held, FleetThread.held, Handle.held, Handle.new] using h.owned
  | delete n =>
    simp only [Fleet.step] at hstep
    split at hstep
    · rename_i thread hget
      split_ifs at hstep
      obtain rfl := Option.some.inj hstep
      exact h.moveThread hget (List.Subperm.refl _)
    · cases hstep
  | displace n =>
    simp only [Fleet.step] at hstep
    split at hstep
    · rename_i thread hget
      obtain rfl := Option.some.inj hstep
      exact h.moveThread hget (List.Subperm.refl _)
    · cases hstep
  | free n =>
    simp only [Fleet.step] at hstep
    split at hstep
    · rename_i thread hget
      split_ifs at hstep
      obtain rfl := Option.some.inj hstep
      refine ⟨h.store, h.owned.trans ?_⟩
      have hperm := (held_perm_others hget).trans List.perm_append_comm
      refine (hperm.append_right s.dropping).trans ?_
      rw [List.append_assoc]
      exact List.perm_append_comm.append_left _
    · cases hstep
  | store a =>
    simp only [Fleet.step] at hstep
    split at hstep
    · cases hstep
    · cases hstep
    · rename_i hne hgrants
      obtain ⟨store, hstore, rfl⟩ := Option.map_eq_some_iff.mp hstep
      refine ⟨h.store.step hstore, ?_⟩
      have hout := outstanding_of_grants hstore hne
      rw [hgrants, Option.toList_none, List.nil_append] at hout
      exact hout ▸ h.owned
  | grant n call a =>
    simp only [Fleet.step] at hstep
    split at hstep
    · rename_i thread lease store hget hgrants hstore
      split_ifs at hstep with hkey
      obtain ⟨handle, hcall, rfl⟩ := Option.map_eq_some_iff.mp hstep
      exact h.grant hget hgrants hstore hkey hcall
    · cases hstep
  | thread n a =>
    simp only [Fleet.step] at hstep
    split at hstep
    · rename_i thread hget
      split_ifs at hstep with hown
      obtain ⟨handle, hcall, rfl⟩ := Option.map_eq_some_iff.mp hstep
      refine h.moveThread hget (FleetThread.held_subperm ?_ rfl)
      refine Handle.held_subperm_of_step hcall fun call connection heq => ?_
      subst heq
      cases hown
    · cases hstep
  | release lease =>
    simp only [Fleet.step] at hstep
    split_ifs at hstep with hmem
    obtain ⟨store, hstore, rfl⟩ := Option.map_eq_some_iff.mp hstep
    refine ⟨h.store.step hstore, ?_⟩
    cases AgentServers.Store.stepped_of_step hstore with
    | release _ hout =>
      have hperm := ((List.perm_cons_erase hout).symm.trans h.owned).trans
        ((List.perm_cons_erase hmem).append_left s.held)
      exact (hperm.trans List.perm_middle).cons_inv

/-- What the accounts say about an entry. -/
structure EntryHeld (s : Fleet) (e : Entry) : Prop where
  leases : e.leases = (s.held ++ s.dropping).countP fun lease => lease.key = e.key
  owned : ∀ thread ∈ s.threads, ∀ lease ∈ thread.held, lease.key = e.key →
    1 ≤ e.leases ∧ s.store.reapable e.key = false
  unused : (∀ thread ∈ s.threads, ∀ lease ∈ thread.held, lease.key ≠ e.key) →
    (∀ lease ∈ s.dropping, lease.key ≠ e.key) → e.leases = 0 ∧ e.state ≠ .connected

theorem Balanced.entryHeld (h : Balanced s) {key : ConnectionKey} {e : Entry}
    (hf : s.store.find key = some e) : s.EntryHeld e := by
  have hentry := h.store.entry key e hf
  have hkey := Store.key_of_find hf
  have hleases : e.leases = (s.held ++ s.dropping).countP fun lease => lease.key = e.key :=
    hentry.leases.trans (h.owned.countP_eq _)
  have hmem : ∀ thread ∈ s.threads, ∀ lease ∈ thread.held, lease ∈ s.held :=
    fun thread hthread lease hlease => List.mem_flatMap.mpr ⟨thread, hthread, hlease⟩
  refine ⟨hleases, fun thread hthread lease hlease hown => ?_, fun hthreads hdropping => ?_⟩
  · have hpos : 1 ≤ e.leases := by
      rw [hleases]
      refine List.countP_pos_iff.mpr ⟨lease, List.mem_append_left _ ?_, by simpa using hown⟩
      exact hmem thread hthread lease hlease
    refine ⟨hpos, ?_⟩
    rw [Store.reapable, hkey, hf]
    have hne : e.leases ≠ 0 := by omega
    simp [hne]
  · have hzero : e.leases = 0 := by
      rw [hleases]
      refine List.countP_eq_zero.mpr fun lease hlease => ?_
      rcases List.mem_append.mp hlease with hheld | hdrop
      · obtain ⟨thread, hthread, hheld⟩ := List.mem_flatMap.mp hheld
        simpa using hthreads thread hthread lease hheld
      · simpa using hdropping lease hdrop
    refine ⟨hzero, fun hconnected => ?_⟩
    have hpos := (hentry.connected hconnected).1
    omega

/-- Whatever threads do, in any order with the sections of the store and with threads that are
deleted or displaced meanwhile: the counter of an entry is the number of leases on it that the
threads and their calls own, or that are on their way back. The idle reaper passes by an agent
that a thread owns, and an entry that no thread owns is out of use. -/
theorem threads_hold_their_agents (grace : Nat) (acts : List FleetAct) :
    Always (Fleet.step grace)
      (fun s => (∀ key e, s.store.find key = some e → s.EntryHeld e) ∧
        ∀ thread ∈ s.threads, ∀ lease ∈ thread.held, (s.store.find lease.key).isSome)
      Fleet.new acts := by
  refine always_of_run (I := Balanced) (fun s h => ⟨fun key e hf => h.entryHeld hf, ?_⟩)
    (fun s a t h hstep => h.step hstep) .new
  intro thread hthread lease hlease
  have hheld : lease ∈ s.held := List.mem_flatMap.mpr ⟨thread, hthread, hlease⟩
  exact (h.store.leased lease (h.owned.symm.subset (List.mem_append_left _ hheld))).1

end Fleet

end Tethys.Core
