import Tethys.AgentServers.Steps

/-!
# Lease accounting

In every interleaving the lease counter of an entry is the number of leases that are out,
a draining entry has none, a connected one has a lease, a child and a connection, and
`reap_idle` only takes children whose entry has no lease out. `StoreOk` is the invariant
behind it; the sections under the lock are few enough that each one keeps it alone.
-/

namespace Tethys.AgentServers

open Lib Store

variable {s t : Store} {key : ConnectionKey} {e e' : Entry} {a : Act} {grace : Nat}

/-- What holds of an entry under any interleaving. -/
structure EntryOk (s : Store) (e : Entry) : Prop where
  leases : e.leases = s.leasesOn e.key
  draining : e.state = .draining → e.leases = 0
  connected : e.state = .connected → 1 ≤ e.leases ∧ e.connection.isSome ∧ e.child.isSome
  connection : e.connection.isSome → e.state = .connected ∨ e.state = .draining
  child : e.child.isSome → e.state = .connected ∨ e.state = .draining ∨ e.state = .error
  agent : ∀ agent, e.connection = some agent → e.child = some agent ∧ agent.key = e.key
  spawning : s.guard = some (e.key, .spawning) → e.child = none

/-- `reuse` leases only an entry that the liveness check leaves alone. -/
theorem eq_of_liveConnection {exited : List Agent} {agent : Agent}
    (h : e.liveConnection exited = some agent) :
    e.refreshLiveness exited = e ∧ e.state = .connected ∧ e.connection = some agent := by
  unfold Entry.liveConnection Entry.refreshLiveness at *
  split_ifs at h ⊢ <;> simp_all

namespace EntryOk

theorem kept (h : EntryOk s e) (hleases : t.leasesOn e.key = s.leasesOn e.key)
    (hsp : t.guard = some (e.key, .spawning) → e.child = none) : EntryOk t e :=
  { h with leases := h.leases.trans hleases.symm, spawning := hsp }

/-- An entry found dead keeps its child and its leases. -/
theorem dead (h : EntryOk s e) (hleases : t.leasesOn e.key = s.leasesOn e.key)
    (hsp : t.guard = some (e.key, .spawning) → e.child = none) :
    EntryOk t { e with connection := none, state := .error } :=
  ⟨h.leases.trans hleases.symm, nofun, nofun, nofun, by simp, nofun, hsp⟩

theorem refreshed (h : EntryOk s e) (hleases : t.leasesOn e.key = s.leasesOn e.key)
    (hsp : t.guard = some (e.key, .spawning) → e.child = none) (exited : List Agent) :
    EntryOk t (e.refreshLiveness exited) := by
  unfold Entry.refreshLiveness
  split_ifs
  · exact h.dead hleases hsp
  · exact h.kept hleases hsp

theorem closed (h : EntryOk s e) (hleases : t.leasesOn e.key = s.leasesOn e.key)
    (hsp : t.guard = some (e.key, .spawning) → e.child = none) (agent : Agent) :
    EntryOk t (e.connectionClosed agent) := by
  unfold Entry.connectionClosed
  split_ifs
  · exact h.dead hleases hsp
  · exact h.kept hleases hsp

theorem released (h : EntryOk s e) (hleases : s.leasesOn e.key = t.leasesOn e.key + 1)
    (hg : t.guard = s.guard) (now : Nat) : EntryOk t (e.release now) := by
  obtain ⟨hl, hd, hconn, hopen, hchild, hagent, hsp⟩ := h
  have hcount : e.leases - 1 = t.leasesOn e.key := by omega
  unfold Entry.release
  by_cases hlast : e.leases - 1 = 0 ∧ e.state = .connected
  · rw [if_pos hlast]
    exact ⟨hcount, fun _ => hlast.1, nofun, fun _ => .inr rfl, fun _ => .inr (.inl rfl), hagent,
      fun h => hsp (hg ▸ h)⟩
  · rw [if_neg hlast]
    refine ⟨hcount, fun hs => ?_, fun hs => ⟨?_, (hconn hs).2⟩, hopen, hchild, hagent,
      fun h => hsp (hg ▸ h)⟩
    · have := hd hs
      simp only
      omega
    · have : e.leases - 1 ≠ 0 := fun h0 => hlast ⟨h0, hs⟩
      simp only
      omega

theorem of_change (h : EntryOk s e) (hkey : e.key = key) (hc : Change s a t key e e') :
    EntryOk t e' := by
  subst hkey
  cases hc with
  | quiet he hleases hguard _ =>
    have hsp : t.guard = some (e.key, .spawning) → e.child = none := fun hg =>
      h.spawning ((hguard _ hg).resolve_right (by simp))
    rcases he with rfl | rfl | ⟨agent, -, rfl⟩
    · exact h.kept hleases hsp
    · exact h.refreshed hleases hsp _
    · exact h.closed hleases hsp agent
  | missed ha hs ht hmiss he hleases =>
    subst he
    exact h.refreshed hleases (by simp [ht]) _
  | leased agent ha hs ht hlive he hout hleases =>
    obtain ⟨hsame, hstate, hconn⟩ := eq_of_liveConnection hlive
    rw [hsame] at he
    subst he
    refine ⟨?_, ?_, fun _ => ⟨Nat.le_add_left 1 _, (h.connected hstate).2⟩, h.connection, h.child,
      h.agent, by simp [ht]⟩
    · exact (congrArg (· + 1) h.leases).trans hleases.symm
    · exact fun hs => absurd (hstate.symm.trans hs) (by decide)
  | emptied hs ht he hleases =>
    subst he
    exact ⟨h.leases.trans hleases.symm, nofun, nofun, nofun, nofun, nofun, fun _ => rfl⟩
  | installed hs ht he hleases =>
    subst he
    refine ⟨(congrArg (· + 1) h.leases).trans hleases.symm, nofun,
      fun _ => ⟨Nat.le_add_left 1 _, rfl, rfl⟩, fun _ => .inl rfl, fun _ => .inl rfl, ?_,
      by simp [ht]⟩
    rintro agent ⟨⟩
    exact ⟨rfl, rfl⟩
  | failed hs ht he hleases =>
    subst he
    exact ⟨h.leases.trans hleases.symm, nofun, nofun, nofun, fun _ => .inr (.inr rfl), nofun,
      fun _ => h.spawning hs⟩
  | released lease ha hk hs he hleases =>
    subst he
    exact h.released hleases hs.1 _
  | restarted hs he hleases =>
    subst he
    exact ⟨h.leases.trans hleases.symm, nofun, nofun, nofun, nofun, nofun, fun _ => rfl⟩
  | reaped hs hstate hnone he hleases =>
    subst he
    exact ⟨h.leases.trans hleases.symm, nofun, nofun, nofun, nofun, nofun, fun _ => rfl⟩

theorem new (key : ConnectionKey) (now : Nat) (hleases : s.leasesOn key = 0) :
    EntryOk s (Entry.new key now) :=
  ⟨hleases.symm, nofun, nofun, nofun, nofun, nofun, fun _ => rfl⟩

end EntryOk

/-- The invariant of the store. -/
structure StoreOk (s : Store) : Prop where
  entry : ∀ key e, s.find key = some e → EntryOk s e
  leased : ∀ lease ∈ s.outstanding, (s.find lease.key).isSome ∧ lease.connection.key = lease.key
  spawning : ∀ key, s.guard = some (key, .spawning) → (s.find key).isSome
  reaped : ∀ k ∈ s.terminated, k.cause = .reap → k.leases = 0

namespace StoreOk

theorem new : StoreOk Store.new := ⟨nofun, nofun, nofun, nofun⟩

theorem leasesOn_unknown (h : StoreOk s) (hf : s.find key = none) : s.leasesOn key = 0 := by
  refine List.countP_eq_zero.mpr fun lease hlease => ?_
  have hsome := (h.leased lease hlease).1
  rintro hkey
  simp_all

theorem step (h : StoreOk s) (hstep : s.step grace a = some t) : StoreOk t := by
  have hstays (key : ConnectionKey) (hsome : (s.find key).isSome) : (t.find key).isSome := by
    obtain ⟨e, he⟩ := Option.isSome_iff_exists.mp hsome
    obtain ⟨e', he', -⟩ := change_of_step hstep he
    exact Option.isSome_of_eq_some he'
  refine ⟨?_, ?_, ?_, ?_⟩
  · intro key e' he'
    cases hf : s.find key with
    | none =>
      rcases find_none_of_step hstep hf with hnone | ⟨hnew, hout⟩
      · exact nomatch he'.symm.trans hnone
      · obtain rfl : _ = e' := Option.some.inj (hnew.symm.trans he')
        have hcount : t.leasesOn key = s.leasesOn key := congrArg (List.countP _) hout
        exact .new key s.now (hcount.trans (h.leasesOn_unknown hf))
    | some e =>
      obtain ⟨e'', he'', hc⟩ := change_of_step hstep hf
      obtain rfl : e'' = e' := Option.some.inj (he''.symm.trans he')
      exact (h.entry key e hf).of_change (key_of_find hf) hc
  · intro lease hlease
    rcases outstanding_of_step hstep hlease with hold | ⟨e, he, hlive⟩ | ⟨hg, hkey⟩
    · exact ⟨hstays _ (h.leased lease hold).1, (h.leased lease hold).2⟩
    · refine ⟨hstays _ (Option.isSome_of_eq_some he), ?_⟩
      have hagent := (h.entry _ e he).agent _ (eq_of_liveConnection hlive).2.2
      rw [hagent.2, key_of_find he]
    · exact ⟨hstays _ (h.spawning _ hg), hkey⟩
  · intro key hg
    rcases guard_of_step hstep hg with hsame | hphase | ⟨hphase, -⟩ | ⟨-, -, hsome⟩
    · exact hstays key (h.spawning key hsame)
    · exact nomatch hphase
    · exact nomatch hphase
    · exact hstays key hsome
  · intro k hk hcause
    rcases terminated_of_step hstep hk with hold | ⟨key, e, cause, he, htakes, htook⟩
    · exact h.reaped k hold hcause
    · obtain ⟨agent, -, rfl⟩ := List.mem_map.mp htakes
      obtain rfl : cause = .reap := hcause
      cases htook with
      | reap reaper rest ha hr hstate hnone =>
        exact (h.entry key e he).leases.symm.trans hnone

end StoreOk

/-- The counters of an entry agree with the leases that are out. -/
structure LeasesOk (s : Store) (e : Entry) : Prop where
  leases : e.leases = s.leasesOn e.key
  draining : e.state = .draining → e.leases = 0
  connected : e.state = .connected → 1 ≤ e.leases ∧ e.connection.isSome ∧ e.child.isSome

/-- Lease accounting, in every state of every run of a store. -/
theorem leases_accounted (grace : Nat) (acts : List Act) :
    Always (Store.step grace)
      (fun s => (∀ key e, s.find key = some e → LeasesOk s e) ∧
        ∀ k ∈ s.terminated, k.cause = .reap → k.leases = 0)
      Store.new acts := by
  refine always_of_run (I := StoreOk) (fun s h => ⟨fun key e he => ?_, h.reaped⟩)
    (fun s a t h hstep => h.step hstep) .new
  obtain ⟨hl, hd, hc, -, -, -, -⟩ := h.entry key e he
  exact ⟨hl, hd, hc⟩

end Tethys.AgentServers
