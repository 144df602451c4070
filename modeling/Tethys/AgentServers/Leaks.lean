import Tethys.AgentServers.Leases

/-!
# Leaked agents

An entry that nobody leases and that still holds its child should be draining, for that is
what `reap_idle` looks for. The liveness check and the connection watcher move a connected
entry to `error` but leave the child in it, and only `release` on a connected entry starts
the draining. `no_leak_iff` says that this is the only leak: the last lease on such an
entry is dropped, or the last `acquire` that waits for it is abandoned.
-/

namespace Tethys.AgentServers

open Lib Store

variable {s t : Store} {key : ConnectionKey} {e e' : Entry} {a : Act} {grace : Nat}

/-- An entry that nobody leases and no call of `acquire` works on is draining if it holds a
child. -/
def NoLeak (s : Store) : Prop :=
  ∀ key e, s.find key = some e → s.leasesOn key = 0 → s.Idle key → e.child.isSome →
    e.state = .draining

/-- The entry went to `error` and still holds its child. -/
def DeadWithChild (s : Store) (key : ConnectionKey) : Prop :=
  ∃ e, s.find key = some e ∧ e.state = .error ∧ e.child.isSome

/-- The steps that leave a child behind: the last lease on a dead entry is dropped, or the
last waiting `acquire` for it is abandoned. -/
def Strands (s : Store) : Act → Prop
  | .release lease =>
    s.leasesOn lease.key = 1 ∧ s.Idle lease.key ∧ DeadWithChild s lease.key
  | .abandon key =>
    s.leasesOn key = 0 ∧ key ∉ s.waiting.erase key ∧ (∀ phase, s.guard ≠ some (key, phase)) ∧
      DeadWithChild s key
  | _ => False

/-- Only an entry that died under its leases can hold a child that is not draining. -/
theorem error_of_leak (h : StoreOk s) (hf : s.find key = some e) (hleases : s.leasesOn key = 0)
    (hchild : e.child.isSome) (hnot : e.state ≠ .draining) : e.state = .error := by
  have hok := h.entry key e hf
  have hnone : e.leases = 0 := by rw [hok.leases, key_of_find hf, hleases]
  rcases hok.child hchild with hs | hs | hs
  · have := (hok.connected hs).1
    omega
  · exact absurd hs hnot
  · exact hs

/-- An entry that is found dead was connected, so it has a lease out. -/
theorem not_connected_of_no_lease (h : StoreOk s) (hf : s.find key = some e)
    (hleases : s.leasesOn key = 0) : e.state ≠ .connected := by
  intro hs
  have hok := h.entry key e hf
  have hone := (hok.connected hs).1
  rw [hok.leases, key_of_find hf] at hone
  omega

/-- Abandoning a call changes nothing but the calls that wait. -/
theorem abandon_eq (h : s.step grace (.abandon key) = some t) :
    (t.waiting = s.waiting.erase key ∧ t.guard = s.guard) ∧
      t.outstanding = s.outstanding ∧ t.entries = s.entries := by
  cases stepped_of_step h
  exact ⟨⟨rfl, rfl⟩, rfl, rfl⟩

/-- The step lemma: a leak in the next state is old or made by a step that strands. -/
theorem noLeak_step (h : StoreOk s) (hn : NoLeak s) (hstep : s.step grace a = some t)
    (hgood : ¬ Strands s a) : NoLeak t := by
  intro key e' he' hleases hidle hchild
  by_contra hnot
  have herr := error_of_leak (h.step hstep) he' hleases hchild hnot
  cases hf : s.find key with
  | none =>
    rcases find_none_of_step hstep hf with hnone | ⟨hnew, -⟩
    · exact nomatch he'.symm.trans hnone
    · obtain rfl : _ = e' := Option.some.inj (hnew.symm.trans he')
      exact nomatch hchild
  | some e =>
    obtain ⟨e'', he'', hc⟩ := change_of_step hstep hf
    obtain rfl : e'' = e' := Option.some.inj (he''.symm.trans he')
    cases hc with
    | quiet he hl hguard hback =>
      have hs0 : s.leasesOn key = 0 := hl.symm.trans hleases
      have hnc := not_connected_of_no_lease h hf hs0
      -- without a lease the entry was not connected, so it was not found dead just now
      obtain rfl : e'' = e := by
        rcases he with rfl | rfl | ⟨agent, -, rfl⟩
        · rfl
        · simp [Entry.refreshLiveness, hnc]
        · simp [Entry.connectionClosed, hnc]
      rcases hback hidle with hsidle | rfl | hsp
      · exact hnot (hn key e'' hf hs0 hsidle hchild)
      · obtain ⟨hw, -⟩ := abandon_eq hstep
        refine hgood ⟨hs0, ?_, ?_, e'', hf, herr, hchild⟩
        · exact hw.1 ▸ hidle.1
        · exact fun phase => hw.2 ▸ hidle.2 phase
      · have hnone := (h.entry key e'' hf).spawning (by rw [key_of_find hf]; exact hsp)
        simp [hnone] at hchild
    | missed ha hs ht hmiss he hl => exact hidle.2 _ ht
    | leased agent ha hs ht hlive he hout hl => omega
    | emptied hs ht he hl => exact hidle.2 _ ht
    | installed hs ht he hl => omega
    | failed hs ht he hl =>
      subst he
      have hnone := (h.entry key e hf).spawning (by rw [key_of_find hf]; exact hs)
      simp [Entry.markError, hnone] at hchild
    | released lease ha hk hs he hl =>
      subst he ha hk
      have hstate : e.state = .error := by
        unfold Entry.release at herr
        split_ifs at herr
        exact herr
      refine hgood ⟨by omega, ?_, e, hf, hstate, hchild⟩
      exact ⟨hs.2 ▸ hidle.1, fun phase => hs.1 ▸ hidle.2 phase⟩
    | restarted hs he hl => subst he; exact nomatch hchild
    | reaped hs hstate hnone he hl => subst he; exact nomatch hchild

/-- A step that strands does leave a child behind. -/
theorem leak_of_strands (hstep : s.step grace a = some t) (hbad : Strands s a) : ¬ NoLeak t := by
  intro hn
  cases a with
  | abandon key =>
    obtain ⟨hleases, hw, hg, e, he, hstate, hchild⟩ := hbad
    obtain ⟨⟨htw, htg⟩, hout, hent⟩ := abandon_eq hstep
    have ht : t.find key = some e := by rw [← he, find, find, hent]
    have hidle : t.Idle key := ⟨htw ▸ hw, fun phase => htg ▸ hg phase⟩
    have := hn key e ht (by rw [← hleases, leasesOn, leasesOn, hout]) hidle hchild
    exact absurd (hstate.symm.trans this) (by decide)
  | release lease =>
    obtain ⟨hleases, hidle, e, he, hstate, hchild⟩ := hbad
    cases stepped_of_step hstep with | release _ hmem =>
    have ht : (s.release lease).find lease.key = some (e.release s.now) :=
      find_modify_self (fun _ => rfl) he
    have hcount := leasesOn_of_erase (t := s.release lease) hmem rfl lease.key
    have := hn lease.key _ ht (by simp at hcount; omega) hidle hchild
    simp [Entry.release, hstate] at this
  | _ => exact hbad

/-! ## Reaping -/

/-- A call of `reap_idle` that nothing interrupts, for an order in which the map lists its
entries. -/
def reapIdle (s : Store) (order : List ConnectionKey) : List Act :=
  .reapStart order :: List.replicate order.length (.reapNext s.reapers.length)

/-- The child has been taken from the entry by `reap_idle`. -/
def Reaped (s : Store) (key : ConnectionKey) (agent : Agent) : Prop :=
  (∃ k ∈ s.terminated, k.agent = agent ∧ k.cause = .reap) ∧
    ∃ e, s.find key = some e ∧ e.child = none ∧ e.state = .terminated

/-- The entry waits for `reap_idle`. -/
def Ready (s : Store) (key : ConnectionKey) (agent : Agent) : Prop :=
  ∃ e, s.find key = some e ∧ e.state = .draining ∧ e.leases = 0 ∧ e.child = some agent

theorem reaped_of_reap {agent : Agent} (h : Ready s key agent) : Reaped (s.reap key) key agent := by
  obtain ⟨e, he, hstate, hnone, hchild⟩ := h
  have htake : s.reapable key := by simp [reapable, he, hstate, hnone]
  rw [reap, if_pos htake]
  refine ⟨?_, e.reap, find_modify_self (fun _ => rfl) he, rfl, rfl⟩
  simp [takeChild, he, takes, hchild]

theorem Ready.reap_of_ne {agent : Agent} {k : ConnectionKey} (h : Ready s key agent)
    (hne : key ≠ k) : Ready (s.reap k) key agent := by
  obtain ⟨e, he, hrest⟩ := h
  refine ⟨e, ?_, hrest⟩
  unfold reap
  split_ifs
  · exact (find_modify_of_ne (f := Entry.reap) (fun _ => rfl) hne).trans he
  · exact he

theorem Reaped.reap {agent : Agent} (h : Reaped s key agent) (k : ConnectionKey) :
    Reaped (s.reap k) key agent := by
  obtain ⟨⟨d, hd, hrest⟩, e, he, hchild, hstate⟩ := h
  unfold Store.reap
  split_ifs with htake
  · refine ⟨⟨d, List.mem_append_left _ hd, hrest⟩, e, ?_, hchild, hstate⟩
    have hne : key ≠ k := by
      rintro rfl
      simp [reapable, he, hstate] at htake
    exact (find_modify_of_ne (f := Entry.reap) (fun _ => rfl) hne).trans he
  · exact ⟨⟨d, hd, hrest⟩, e, he, hchild, hstate⟩

/-- The loop of `reap_idle` takes every child that waits and is on its list. -/
theorem run_reapNext (grace reaper : Nat) (order : List ConnectionKey) {agent : Agent} (s : Store)
    (hr : s.reapers[reaper]? = some order)
    (h : Ready s key agent ∧ key ∈ order ∨ Reaped s key agent) :
    ∃ u, run (Store.step grace) s (List.replicate order.length (.reapNext reaper)) = some u ∧
      Reaped u key agent := by
  induction order generalizing s with
  | nil => exact ⟨s, rfl, h.resolve_left (by simp)⟩
  | cons k rest ih =>
    have hlt : reaper < s.reapers.length := (List.getElem?_eq_some_iff.mp hr).1
    have hstep : s.step grace (.reapNext reaper) =
        some { s.reap k with reapers := s.reapers.set reaper rest } := by
      simp [Store.step, hr]
    obtain ⟨u, hu, hreaped⟩ := ih { s.reap k with reapers := s.reapers.set reaper rest }
      (by simp [hlt]) (by
        rcases h with ⟨hready, hmem⟩ | hreaped
        · by_cases hk : key = k
          · subst hk
            exact .inr (reaped_of_reap hready)
          · exact .inl ⟨hready.reap_of_ne hk, (List.mem_cons.mp hmem).resolve_left hk⟩
        · exact .inr (hreaped.reap k))
    exact ⟨u, run_cons_eq_some.mpr ⟨_, hstep, hu⟩, hreaped⟩

theorem mem_candidates (h : s.find key = some e) (hstate : e.state = .draining)
    (hnone : e.leases = 0) (hgrace : grace ≤ s.now - e.lastActive) : key ∈ s.candidates grace := by
  rw [← key_of_find h]
  exact List.mem_map.mpr
    ⟨e, List.mem_filter.mpr ⟨mem_of_lookup h, by simp [hstate, hnone, hgrace]⟩, rfl⟩

/-- No agent leaks along a run if and only if no step of it strands one. And in every state
of a run an entry that is draining for the grace period is taken by the next `reap_idle`,
its child with it. -/
theorem no_leak_iff (grace : Nat) (acts : List Act) :
    (Always (Store.step grace) NoLeak Store.new acts ↔
      Meets (Store.step grace) (fun s a => ¬ Strands s a) Store.new acts) ∧
    ∀ s, run (Store.step grace) Store.new acts = some s →
      ∀ key e agent, s.find key = some e → e.state = .draining → e.child = some agent →
        grace ≤ s.now - e.lastActive → ∀ order, order.Perm (s.candidates grace) →
          ∃ u, run (Store.step grace) s (reapIdle s order) = some u ∧ Reaped u key agent := by
  constructor
  · refine always_iff_meets (I := fun s => StoreOk s ∧ NoLeak s) (fun s h => h.2) ?_ ?_ ?_
    · exact fun s a t h hgood hstep => ⟨h.1.step hstep, noLeak_step h.1 h.2 hstep hgood⟩
    · exact fun s a t _ hstep hn hbad => leak_of_strands hstep hbad hn
    · exact ⟨.new, nofun⟩
  · intro s hrun key e agent he hstate hchild hgrace order horder
    have hok : StoreOk s := invariant_of_run (fun _ _ _ h hstep => h.step hstep) .new hrun
    have hnone := (hok.entry key e he).draining hstate
    have hmem : key ∈ order := horder.mem_iff.mpr (mem_candidates he hstate hnone hgrace)
    have hstart : s.step grace (.reapStart order) =
        some { s with reapers := s.reapers ++ [order] } := by
      simp [Store.step, List.isPerm_iff.mpr horder]
    obtain ⟨u, hu, hreaped⟩ := run_reapNext grace s.reapers.length order
      { s with reapers := s.reapers ++ [order] } (by simp)
      (.inl ⟨⟨e, he, hstate, hnone, hchild⟩, hmem⟩)
    exact ⟨u, run_cons_eq_some.mpr ⟨_, hstart, hu⟩, hreaped⟩

section Runs

/-- A first `acquire`, up to the lease on the new agent. -/
def firstLease (key : ConnectionKey) : List Act :=
  [.register key, .acquire key, .lock key, .reuse, .beginSpawn, .install]

def claude : ConnectionKey := ⟨"claude", "local"⟩

def firstAgent : Agent := ⟨claude, 0⟩

/-- A lease that is given back leads to a reaped child after the grace period. -/
theorem idle_agent_is_reaped :
    ∃ s, run (Store.step 30) Store.new
        (firstLease claude ++ [.release ⟨claude, firstAgent⟩, .tick 30]) = some s ∧
      ∃ u, run (Store.step 30) s (reapIdle s [claude]) = some u ∧ Reaped u claude firstAgent := by
  refine ⟨_, rfl, ?_⟩
  exact (no_leak_iff 30 (firstLease claude ++ [.release ⟨claude, firstAgent⟩, .tick 30])).2 _ rfl
    claude _ firstAgent rfl rfl rfl (by decide) [claude] (List.isPerm_iff.mp (by decide))

/-- The transport closes first, and then the last lease is dropped: the child is still in an
entry that no `reap_idle` will ever look at. -/
theorem closed_agent_leaks :
    ∃ s, run (Store.step 30) Store.new
        (firstLease claude ++ [.transportClose firstAgent, .watch ⟨claude, firstAgent⟩,
          .release ⟨claude, firstAgent⟩, .tick 30]) = some s ∧
      ¬ NoLeak s ∧ s.candidates 30 = [] := by
  refine ⟨_, rfl, fun h => ?_, by decide⟩
  exact nomatch h claude _ rfl (by decide) ⟨by decide, fun _ => nofun⟩ rfl

end Runs

end Tethys.AgentServers
