import Tethys.AgentServers.Recovery
import Tethys.AgentServers.Grace

/-!
# Soundness of the recovery ladder

`cancel` only sends a notification, so that a call returns `Cancelled` while the turn goes on; and a
call that has restarted a process drops its lease at once, so that the entry may be draining when the
next `acquire` comes, which then replaces the process. Steps that keep to `keepsPromises` do neither,
and `recovery_sound` says that nothing else goes wrong. The part of the invariant that speaks of one
key (`FreshFrom`, `Kept`, `Missed`) is kept by the steps of the store alone.
-/

namespace Tethys.AgentServers

open Lib Store

/-! ## Connections and the guard under a step of the store -/

section Store
variable {s t : Store} {key : ConnectionKey} {e e' : Entry} {a : Act} {agent : Agent} {grace : Nat}

/-- A connection after a step was there before, or was installed by it. -/
theorem connection_origin (hc : Change s a t key e e') (hconn : e'.connection = some agent) :
    e.connection = some agent ∨ s.guard = some (key, .spawning) ∧ agent = ⟨key, s.serial⟩ := by
  have hlive (h : (e.refreshLiveness s.exited).connection = some agent) : e.connection = some agent := by
    unfold Entry.refreshLiveness at h
    split_ifs at h
    exact h
  cases hc with
  | quiet he hl hguard hback =>
    rcases he with rfl | rfl | ⟨agent', -, rfl⟩
    · exact .inl hconn
    · exact .inl (hlive hconn)
    · unfold Entry.connectionClosed at hconn
      split_ifs at hconn
      exact .inl hconn
  | missed ha hs ht hmiss he hl => exact .inl (hlive (he ▸ hconn))
  | leased agent' ha hs ht hl he hout hleases => exact .inl (hlive (he ▸ hconn :))
  | emptied hs ht he hl => subst he; exact nomatch hconn
  | installed hs ht he hl => subst he; exact .inr ⟨hs, (Option.some.inj hconn).symm⟩
  | failed hs ht he hl => subst he; exact nomatch hconn
  | released lease ha hk hs he hl => subst he; exact .inl hconn
  | restarted hs he hl => subst he; exact nomatch hconn
  | reaped hs hstate hnone he hl => subst he; exact nomatch hconn

theorem connection_of_step (hstep : s.step grace a = some t) (hf : t.find key = some e')
    (hconn : e'.connection = some agent) :
    (∃ e, s.find key = some e ∧ e.connection = some agent) ∨
      s.guard = some (key, .spawning) ∧ agent = ⟨key, s.serial⟩ := by
  cases hs : s.find key with
  | none =>
    rcases find_none_of_step hstep hs with hnone | ⟨hnew, -⟩
    · exact nomatch hf.symm.trans hnone
    · obtain rfl : _ = e' := Option.some.inj (hnew.symm.trans hf)
      exact nomatch hconn
  | some e =>
    obtain ⟨e'', he'', hc⟩ := change_of_step hstep hs
    obtain rfl : e'' = e' := Option.some.inj (he''.symm.trans hf)
    exact (connection_origin hc hconn).imp_left fun h => ⟨e, rfl, h⟩

theorem serial_le_of_step (h : s.step grace a = some t) : s.serial ≤ t.serial := by
  cases stepped_of_step h with
  | install key hg => exact Nat.le_succ _
  | _ => exact Nat.le_refl _

/-- An `acquire` gets past `reuse` in `reuse`. -/
theorem guard_of_missed (h : s.step grace a = some t) (hg : t.guard = some (key, .missed)) :
    s.guard = some (key, .missed) ∨ a = .reuse ∧ s.guard = some (key, .entered) := by
  cases stepped_of_step h with
  | missed k hk hmiss =>
    obtain ⟨rfl, -⟩ : k = key ∧ Phase.missed = .missed := by simpa using hg
    exact .inr ⟨rfl, hk⟩
  | lock k hfree hw => simp at hg
  | leased k agent hk hlive => exact nomatch hg
  | beginSpawn k hk =>
    rw [Store.beginSpawn] at hg
    split_ifs at hg
    simp at hg
  | install k hk | spawnFailed k hk | spawnAbandoned k hk => cases hg
  | _ => exact .inl hg

/-- The guard stays with its key until it is free. -/
theorem guard_stays {phase : Phase} (h : s.step grace a = some t) (hg : s.guard = some (key, phase)) :
    t.guard = none ∨ ∃ phase', t.guard = some (key, phase') := by
  cases stepped_of_step h with
  | lock k hfree hw => exact nomatch hfree.symm.trans hg
  | leased k agent hk hlive => exact .inl rfl
  | install k hk | spawnFailed k hk | spawnAbandoned k hk => exact .inl rfl
  | missed k hk hmiss =>
    obtain ⟨rfl, -⟩ := Prod.mk.inj (Option.some.inj (hk.symm.trans hg))
    exact .inr ⟨_, rfl⟩
  | beginSpawn k hk =>
    obtain ⟨rfl, -⟩ := Prod.mk.inj (Option.some.inj (hk.symm.trans hg))
    by_cases hknown : (s.find k).isSome
    · exact .inr ⟨.spawning, if_pos hknown⟩
    · exact .inl (if_neg hknown)
  | _ => exact .inr ⟨phase, hg⟩

/-- While an `acquire` is past `reuse` its entry is not connected. -/
def Missed (s : Store) : Prop :=
  ∀ key e, s.guard = some (key, .missed) → s.find key = some e → e.state ≠ .connected

/-- The agents of an entry were spawned since. -/
structure FreshFrom (s : Store) (key : ConnectionKey) (since : Nat) : Prop where
  serial : since ≤ s.serial
  connection : ∀ e agent, s.find key = some e → e.connection = some agent → since ≤ agent.serial

theorem FreshFrom.step {since : Nat} (h : FreshFrom s key since) (hstep : s.step grace a = some t) :
    FreshFrom t key since := by
  refine ⟨Nat.le_trans h.serial (serial_le_of_step hstep), fun e' agent hf hconn => ?_⟩
  rcases connection_of_step hstep hf hconn with ⟨e, he, hold⟩ | ⟨-, rfl⟩
  · exact h.connection e agent he hold
  · exact h.serial

theorem FreshFrom.of_empty (hf : s.find key = some e) (hconn : e.connection = none) :
    FreshFrom s key s.serial := by
  refine ⟨Nat.le_refl _, fun e' agent hf' hconn' => ?_⟩
  obtain rfl : e = e' := Option.some.inj (hf.symm.trans hf')
  exact nomatch hconn.symm.trans hconn'

/-- No `acquire` is about to replace the agent of the key. -/
structure Kept (s : Store) (key : ConnectionKey) (agent : Agent) : Prop where
  guard : ∀ phase, s.guard = some (key, phase) → phase = .entered
  connection : ∀ e agent', s.find key = some e → e.connection = some agent' → agent' = agent

theorem Kept.step (h : Kept s key agent) (hstep : s.step grace a = some t)
    (hreuse : ¬ (a = .reuse ∧ s.guard = some (key, .entered))) : Kept t key agent := by
  refine ⟨fun phase hg => ?_, fun e' agent' hf hconn => ?_⟩
  · rcases guard_of_step hstep hg with hsame | hphase | ⟨rfl, -⟩ | ⟨-, hmissed, -⟩
    · exact h.guard phase hsame
    · exact hphase
    · rcases guard_of_missed hstep hg with hsame | hbad
      · exact h.guard _ hsame
      · exact absurd hbad hreuse
    · exact nomatch h.guard _ hmissed
  · rcases connection_of_step hstep hf hconn with ⟨e, he, hold⟩ | ⟨hspawning, -⟩
    · exact h.connection e agent' he hold
    · exact nomatch h.guard _ hspawning

theorem Missed.step (hok : StoreOk s) (h : Missed s) (hstep : s.step grace a = some t) : Missed t := by
  intro key e' hg hf hstate
  cases hs : s.find key with
  | none =>
    rcases find_none_of_step hstep hs with hnone | ⟨hnew, -⟩
    · exact nomatch hf.symm.trans hnone
    · obtain rfl : _ = e' := Option.some.inj (hnew.symm.trans hf)
      exact nomatch hstate
  | some e =>
    obtain ⟨e'', he'', hc⟩ := change_of_step hstep hs
    obtain rfl : e'' = e' := Option.some.inj (he''.symm.trans hf)
    cases hc with
    | quiet he hl hguard hback =>
      have hsame : e.state = .connected := by
        rcases he with rfl | rfl | ⟨agent, -, rfl⟩
        · exact hstate
        · unfold Entry.refreshLiveness at hstate
          split_ifs at hstate
          exact hstate
        · unfold Entry.connectionClosed at hstate
          split_ifs at hstate
          exact hstate
      exact h key e ((hguard _ hg).resolve_right nofun) hs hsame
    | missed ha hsg ht hmiss he hl =>
      have hlive : e.liveConnection s.exited = e''.connection := by
        unfold Entry.liveConnection
        dsimp only
        rw [← he, if_pos hstate]
      have hconn := (((hok.step hstep).entry key e'' hf).connected hstate).2.1
      rw [← hlive, hmiss] at hconn
      cases hconn
    | leased agent ha hsg ht hlive he hout hl => exact nomatch ht.symm.trans hg
    | emptied hsg ht he hl => exact nomatch ht.symm.trans hg
    | installed hsg ht he hl => exact nomatch ht.symm.trans hg
    | failed hsg ht he hl => exact nomatch ht.symm.trans hg
    | released lease ha hk hsg he hl =>
      refine h key e (hsg.1 ▸ hg) hs ?_
      rw [he] at hstate
      unfold Entry.release at hstate
      dsimp only at hstate
      split_ifs at hstate
      exact hstate
    | restarted hsg he hl => exact nomatch hstate.symm.trans (congrArg Entry.state he)
    | reaped hsg hstate' hnone he hl => exact nomatch hstate.symm.trans (congrArg Entry.state he)

theorem guard_of_restart (h : s.step grace (.restart key) = some t) : t.guard = s.guard := by
  obtain rfl := Option.some.inj h
  rfl

/-- `restart` leaves the entry of its key without a connection. -/
theorem FreshFrom.of_restart (h : s.step grace (.restart key) = some t) : FreshFrom t key s.serial := by
  obtain rfl := Option.some.inj h
  refine ⟨Nat.le_refl _, fun e' agent hf hconn => ?_⟩
  have hfind := (find_modify (f := Entry.restart) (fun _ => rfl) key key).symm.trans hf
  rw [if_pos rfl] at hfind
  obtain ⟨e, -, rfl⟩ := Option.map_eq_some_iff.mp hfind
  cases hconn

theorem guard_of_release {lease : ConnectionLease} (h : s.step grace (.release lease) = some t) :
    lease ∈ s.outstanding ∧ t.guard = s.guard := by
  cases stepped_of_step h with
  | release _ hmem => exact ⟨hmem, rfl⟩

/-- The guard is taken when it is free. -/
theorem guard_of_lock {u : Store} (hacquire : s.step grace (.acquire key) = some t)
    (hlock : t.step grace (.lock key) = some u) : s.guard = none ∧ u.guard = some (key, .entered) := by
  obtain rfl := Option.some.inj hacquire
  cases stepped_of_step hlock with
  | lock _ hfree hw => exact ⟨hfree, rfl⟩

/-- What is handed out to a call that holds the guard. -/
theorem grants_eq_some {phase : Phase} {since : Nat} {lease : ConnectionLease}
    (h : s.grants a = some lease) (hg : s.guard = some (key, phase)) (hfresh : FreshFrom s key since) :
    lease.key = key ∧ since ≤ lease.connection.serial := by
  unfold Store.grants at h
  split at h
  · split at h
    · next k hk =>
      obtain ⟨rfl, -⟩ := Prod.mk.inj (Option.some.inj (hk.symm.trans hg))
      obtain ⟨connection, hlive, rfl⟩ := Option.map_eq_some_iff.mp h
      obtain ⟨e, he, hlive⟩ := Option.bind_eq_some_iff.mp hlive
      exact ⟨rfl, hfresh.connection e connection he (eq_of_liveConnection hlive).2.2⟩
    · cases h
  · split at h
    · next k hk =>
      obtain ⟨rfl, -⟩ := Prod.mk.inj (Option.some.inj (hk.symm.trans hg))
      obtain rfl := Option.some.inj h
      exact ⟨rfl, hfresh.serial⟩
    · cases h
  · cases h

end Store

/-! ## The calls -/

structure CallOk (s : Store) (call : Call) : Prop where
  fresh : FreshFrom s call.key call.since
  leased : ∀ lease, call.rung = .leased lease → lease.key = call.key ∧ call.since ≤ lease.connection.serial

/-- The invariant of the ladder. -/
structure LadderOk (s : Ladder) : Prop where
  store : StoreOk s.store
  missed : Missed s.store
  calls : ∀ call ∈ s.calls, CallOk s.store call
  holder : ∀ call, s.holder = some call →
    CallOk s.store call ∧ ∃ phase, s.store.guard = some (call.key, phase)
  pending : ∀ p ∈ s.pending, Kept s.store p.key p.agent
  sound : Sound s

section Ladder
variable {s s' : Ladder} {t : Store} {a : Act} {call call' : Call} {grace : Nat} {o : StoreOptions}
  {m : Move}

theorem CallOk.step {store : Store} (h : CallOk store call) (hstep : store.step grace a = some t) :
    CallOk t call := ⟨h.fresh.step hstep, h.leased⟩

theorem CallOk.onRung {store : Store} {rung : Rung} (h : CallOk store call)
    (hrung : ∀ lease, rung ≠ .leased lease) : CallOk store { call with rung := rung } :=
  ⟨h.fresh, fun lease hlease => absurd hlease (hrung lease)⟩

theorem Justified.mono {answers answers' : List (ResumeRequest × Bool)} {r : Return}
    (h : Justified answers r) (hsub : answers ⊆ answers') : Justified answers' r :=
  ⟨h.cancelled, fun hr => (h.resumed hr).imp fun _ hmem => hsub hmem, h.restarted⟩

theorem Sound.frame (h : Sound s) (hreturned : s'.returned = s.returned) (hhanded : s'.handed = s.handed)
    (hanswers : s.answers ⊆ s'.answers) : Sound s' :=
  ⟨fun r hr => (h.returned r (hreturned ▸ hr)).mono hanswers, fun p hp => h.handed p (hhanded ▸ hp)⟩

theorem Sound.finish {outcome : RecoveryOutcome} {started : Option Agent} (h : Sound s)
    (hr : Justified s.answers ⟨call, outcome, s.running call.session, started⟩) :
    Sound (s.finish call outcome started) := by
  refine ⟨fun r hmem => ?_, h.handed⟩
  rcases List.mem_append.mp hmem with hold | hnew
  · exact h.returned r hold
  · obtain rfl := List.mem_singleton.mp hnew
    exact hr

namespace LadderOk

theorem new : LadderOk Ladder.new :=
  ⟨.new, nofun, nofun, nofun, nofun, ⟨nofun, nofun⟩⟩

/-- A step that leaves the store and the promises alone. -/
theorem frame (h : LadderOk s) (hstore : s'.store = s.store) (hpending : s'.pending = s.pending)
    (hholder : s'.holder = s.holder) (hcalls : ∀ call ∈ s'.calls, call ∈ s.calls ∨ CallOk s.store call)
    (hsound : Sound s') : LadderOk s' := by
  refine ⟨hstore ▸ h.store, hstore ▸ h.missed, fun call hcall => ?_, ?_, ?_, hsound⟩
  · rw [hstore]
    exact (hcalls call hcall).elim (h.calls call) id
  · rw [hstore, hholder]
    exact h.holder
  · rw [hstore, hpending]
    exact h.pending

theorem remove (h : LadderOk s) (call : Call) : LadderOk (s.remove call) :=
  h.frame rfl rfl rfl (fun _ hmem => .inl (List.mem_of_mem_erase hmem))
    (h.sound.frame rfl rfl fun _ h => h)

theorem replace (h : LadderOk s) (call : Call) (hnew : CallOk s.store call') :
    LadderOk (s.replace call call') := by
  refine h.frame rfl rfl rfl (fun c hmem => ?_) (h.sound.frame rfl rfl (fun _ h => h))
  rcases List.mem_cons.mp hmem with rfl | hmem
  · exact .inr hnew
  · exact .inl (List.mem_of_mem_erase hmem)

theorem finish {outcome : RecoveryOutcome} {started : Option Agent} (h : LadderOk s)
    (hr : Justified s.answers ⟨call, outcome, s.running call.session, started⟩) :
    LadderOk (s.finish call outcome started) :=
  h.frame rfl rfl rfl (fun _ hmem => .inl (List.mem_of_mem_erase hmem)) (h.sound.finish hr)

theorem promise {p : ConnectionKey} {agent : Agent} (h : LadderOk s) (hkept : Kept s.store p agent)
    (deadline : Nat) : LadderOk { s with pending := ⟨p, agent, deadline⟩ :: s.pending } :=
  ⟨h.store, h.missed, h.calls, h.holder, List.forall_mem_cons.mpr ⟨hkept, h.pending⟩,
    h.sound.frame rfl rfl fun _ h => h⟩

/-- A step of the store that resolves no promise and leaves the guard to its holder. -/
theorem stepStore (h : LadderOk s) (hstep : s.store.step grace a = some t) (ha : a ≠ .reuse)
    (hguard : ∀ call phase, s.holder = some call → s.store.guard = some (call.key, phase) →
      ∃ phase', t.guard = some (call.key, phase')) : LadderOk { s with store := t } := by
  refine ⟨h.store.step hstep, h.missed.step h.store hstep,
    fun call hcall => (h.calls call hcall).step hstep, fun call hcall => ?_, fun p hp => (h.pending p hp).step hstep fun hreuse => ha hreuse.1,
    h.sound.frame rfl rfl fun _ h => h⟩
  obtain ⟨hok, phase, hg⟩ := h.holder call hcall
  exact ⟨hok.step hstep, hguard call phase hcall hg⟩

end LadderOk

/-- Promises are resolved by `reuse` only. -/
theorem resolve_cases (s : Ladder) (a : Act) :
    (s.resolve a = s ∧ ∀ key, ¬ (a = .reuse ∧ s.store.guard = some (key, .entered))) ∨
      ∃ key, a = .reuse ∧ s.store.guard = some (key, .entered) ∧ s.resolve a = { s with
        pending := s.pending.filter fun p => p.key ≠ key
        handed := s.handed ++ (s.pending.filter fun p => p.key = key ∧ s.store.now < p.deadline).map
          fun p => (p, (s.store.grants .reuse).map (·.connection)) } := by
  by_cases ha : a = .reuse
  · subst ha
    unfold Ladder.resolve
    dsimp only
    split
    · next key hg => exact .inr ⟨key, rfl, hg, rfl⟩
    · next hg => exact .inl ⟨rfl, fun key h => hg key h.2⟩
  · refine .inl ⟨?_, fun key h => ha h.1⟩
    cases a <;> first | rfl | exact absurd rfl ha

/-- Under the condition `reuse` leases the connection of its entry. -/
theorem grants_reuse_of_keepsPromises {key : ConnectionKey} {p : Promise} (h : LadderOk s)
    (hgood : keepsPromises s (.store .reuse)) (hg : s.store.guard = some (key, .entered))
    (hp : p ∈ s.pending) (hkey : p.key = key) (hdue : s.store.now < p.deadline) :
    s.store.grants .reuse = some ⟨key, p.agent⟩ := by
  simp only [keepsPromises, hg, Bool.or_eq_true] at hgood
  have hfound := hgood.resolve_left fun hall => by
    have hnot := List.all_eq_true.mp hall p hp
    simp [hkey, hdue] at hnot
  obtain ⟨e, he, hentry⟩ := (Option.any_eq_true _ _).mp hfound
  obtain ⟨hstate, hchild⟩ : e.state = .connected ∧ e.child.all (· ∉ s.store.exited) = true := by
    simpa using hentry
  have hsame : e.refreshLiveness s.store.exited = e := by
    unfold Entry.refreshLiveness
    rw [if_neg]
    rintro ⟨-, hexited⟩
    obtain ⟨child, hc, hmem⟩ := (Option.any_eq_true _ _).mp hexited
    rw [hc] at hchild
    simp_all
  obtain ⟨agent, hconn⟩ := Option.isSome_iff_exists.mp ((h.store.entry key e he).connected hstate).2.1
  obtain rfl : agent = p.agent := (h.pending p hp).connection e agent (hkey ▸ he) hconn
  have hlive : e.liveConnection s.store.exited = some p.agent := by
    unfold Entry.liveConnection
    rw [hsame]
    exact (if_pos hstate).trans hconn
  simp only [Store.grants, hg, he, Option.bind_some, hlive, Option.map_some]

/-- What a step of the store makes of the promises. -/
theorem LadderOk.resolve (h : LadderOk s) (hstep : s.store.step grace a = some t)
    (hgood : keepsPromises s (.store a)) :
    LadderOk { s.resolve a with store := t, holder := none } := by
  have hcalls : ∀ call ∈ s.calls, CallOk t call := fun call hcall => (h.calls call hcall).step hstep
  have hkept (p : Promise) (hp : p ∈ s.pending)
      (hreuse : ¬ (a = .reuse ∧ s.store.guard = some (p.key, .entered))) : Kept t p.key p.agent :=
    (h.pending p hp).step hstep hreuse
  rcases resolve_cases s a with ⟨heq, hother⟩ | ⟨key, rfl, hg, heq⟩
  · rw [heq]
    exact ⟨h.store.step hstep, h.missed.step h.store hstep, hcalls, nofun,
      fun p hp => hkept p hp (hother p.key), h.sound.frame rfl rfl fun _ h => h⟩
  · rw [heq]
    refine ⟨h.store.step hstep, h.missed.step h.store hstep, hcalls, nofun, fun p hp => ?_,
      h.sound.returned, fun handed hhanded => ?_⟩
    · obtain ⟨hp, hne⟩ := List.mem_filter.mp hp
      refine hkept p hp fun hreuse => ?_
      obtain ⟨rfl, -⟩ := Prod.mk.inj (Option.some.inj (hg.symm.trans hreuse.2))
      simp at hne
    · rcases List.mem_append.mp hhanded with hold | hnew
      · exact h.sound.handed handed hold
      · obtain ⟨p, hp, rfl⟩ := List.mem_map.mp hnew
        obtain ⟨hp, hdue⟩ := List.mem_filter.mp hp
        obtain ⟨hkey, hdue⟩ : p.key = key ∧ s.store.now < p.deadline := by simpa using hdue
        rw [grants_reuse_of_keepsPromises h hgood hg hp hkey hdue]
        rfl

/-- A step of the store, and what it tells the call that holds the guard. -/
theorem LadderOk.settle (h : LadderOk s) (hstep : s.store.step grace a = some t)
    (hgood : keepsPromises s (.store a)) : LadderOk (s.settle a t) := by
  have hfree := h.resolve hstep hgood
  have hholder : (s.resolve a).holder = s.holder := by
    rcases resolve_cases s a with ⟨heq, -⟩ | ⟨key, -, -, heq⟩ <;> rw [heq]
  have hheld (hstays : ∀ call, s.holder = some call → ∃ phase, t.guard = some (call.key, phase)) :
      LadderOk { s.resolve a with store := t } :=
    ⟨hfree.store, hfree.missed, hfree.calls, fun call hcall =>
      ⟨(h.holder call (hholder ▸ hcall)).1.step hstep, hstays call (hholder ▸ hcall)⟩,
      hfree.pending, hfree.sound.frame rfl rfl fun _ h => h⟩
  unfold Ladder.settle
  dsimp only
  cases hcall : s.holder with
  | none => exact hheld (by simp [hcall])
  | some call =>
    obtain ⟨hok, phase, hg⟩ := h.holder call hcall
    dsimp only
    cases hgrants : s.store.grants a with
    | some lease =>
      obtain ⟨hkey, hsince⟩ := grants_eq_some hgrants hg hok.fresh
      refine hfree.replace call ⟨hok.fresh.step hstep, fun lease' hlease => ?_⟩
      obtain rfl : lease = lease' := Rung.leased.inj hlease
      exact ⟨hkey, hsince⟩
    | none =>
      dsimp only
      split_ifs with hguard habandoned
      · refine hheld fun call' hcall' => ?_
        obtain rfl : call = call' := Option.some.inj (hcall.symm.trans hcall')
        refine (guard_stays hstep hg).resolve_left fun hnone => ?_
        rw [hnone] at hguard
        cases hguard
      · exact hfree.remove call
      · exact hfree.finish ⟨nofun, nofun, nofun⟩

/-- A call that gives its lease back leaves a connected entry without an `acquire` past `reuse`. -/
theorem kept_of_keepsPromises {lease : ConnectionLease} (h : LadderOk s)
    (hgood : keepsPromises s (.call call .drop)) (hrung : call.rung = .leased lease)
    (hkey : lease.key = call.key) (hout : lease ∈ s.store.outstanding) :
    Kept s.store call.key lease.connection := by
  simp only [keepsPromises, hrung] at hgood
  obtain ⟨e, he, hconn⟩ := (Option.any_eq_true _ _).mp hgood
  have hconn : e.connection = some lease.connection := of_decide_eq_true hconn
  have hentry := h.store.entry _ e he
  have hleases : 0 < s.store.leasesOn call.key :=
    List.countP_pos_iff.mpr ⟨lease, hout, decide_eq_true hkey⟩
  have hconnected : e.state = .connected := by
    refine (hentry.connection (by rw [hconn]; rfl)).resolve_right fun hdraining => ?_
    have hnone := hentry.draining hdraining
    rw [hentry.leases, key_of_find he] at hnone
    omega
  refine ⟨fun phase hg => ?_, fun e' agent' he' hconn' => ?_⟩
  · cases phase with
    | entered => rfl
    | missed => exact absurd hconnected (h.missed _ e hg he)
    | spawning =>
      have hchild := hentry.spawning (key_of_find he ▸ hg)
      rw [(hentry.agent _ hconn).1] at hchild
      cases hchild
  · obtain rfl : e = e' := Option.some.inj (he.symm.trans he')
    exact Option.some.inj (hconn'.symm.trans hconn)

theorem LadderOk.climb {event : Event} (h : LadderOk s) (hcall : call ∈ s.calls)
    (hgood : keepsPromises s (.call call event))
    (hstep : s.climb o call call.rung event = some s') : LadderOk s' := by
  have hok := h.calls call hcall
  unfold Ladder.climb at hstep
  split at hstep
  · next hrung => -- look
    cases he : s.store.find call.key with
    | none =>
      rw [he] at hstep
      obtain rfl := Option.some.inj hstep
      exact h.remove call
    | some e =>
      rw [he] at hstep
      dsimp only at hstep
      cases hconn : e.connection with
      | some connection =>
        rw [hconn] at hstep
        obtain rfl := Option.some.inj hstep
        exact h.replace call (hok.onRung nofun)
      | none =>
        rw [hconn] at hstep
        obtain rfl := Option.some.inj hstep
        exact h.replace call ⟨.of_empty he hconn, nofun⟩
  · next sent hrung => -- cancel
    cases sent with
    | true =>
      obtain rfl := Option.some.inj hstep
      refine h.finish ⟨fun _ => ?_, nofun, nofun⟩
      simpa [keepsPromises] using hgood
    | false =>
      obtain rfl := Option.some.inj hstep
      exact h.replace call (hok.onRung nofun)
  · next connection hrung => -- closed
    obtain rfl := Option.some.inj hstep
    have hcalled : CallOk s.store
        { call with rung := .resuming connection (s.store.now + o.cancelGrace) } := hok.onRung nofun
    have hnext := h.replace call hcalled
    exact hnext.frame rfl rfl rfl (fun _ h => .inl h) (hnext.sound.frame rfl rfl fun _ h => h)
  · next connection deadline hrung => -- resumed
    split_ifs at hstep with hanswer
    obtain rfl := Option.some.inj hstep
    exact h.finish ⟨nofun, fun _ => ⟨connection, hanswer⟩, nofun⟩
  · -- resumeFailed
    split_ifs at hstep
    obtain rfl := Option.some.inj hstep
    exact h.replace call (hok.onRung nofun)
  · -- restart
    obtain ⟨t, hrestart, rfl⟩ := Option.map_eq_some_iff.mp hstep
    have hnext := h.stepStore hrestart nofun fun _ _ _ hg => ⟨_, guard_of_restart hrestart ▸ hg⟩
    exact hnext.replace call ⟨.of_restart hrestart, nofun⟩
  · next child ok hrung => -- killed
    split_ifs at hstep
    · obtain rfl := Option.some.inj hstep
      exact h.replace call (hok.onRung nofun)
    · obtain rfl := Option.some.inj hstep
      exact h.finish ⟨nofun, nofun, nofun⟩
  · -- lock
    split_ifs at hstep
    obtain ⟨t, hlock, rfl⟩ := Option.map_eq_some_iff.mp hstep
    obtain ⟨t', hacquire, hlock⟩ := Option.bind_eq_some_iff.mp hlock
    obtain ⟨hfree, hguard⟩ := guard_of_lock hacquire hlock
    have hnone (call' : Call) (hcall' : s.holder = some call') : False := by
      obtain ⟨phase, hg⟩ := (h.holder call' hcall').2
      exact nomatch hfree.symm.trans hg
    have hwaits := h.stepStore hacquire nofun fun call' _ hcall' => (hnone call' hcall').elim
    have hnext := hwaits.stepStore hlock nofun fun call' _ hcall' => (hnone call' hcall').elim
    refine ⟨hnext.store, hnext.missed, hnext.calls, fun call' hcall' => ?_, hnext.pending,
      hnext.sound.frame rfl rfl fun _ h => h⟩
    obtain rfl : call = call' := Option.some.inj hcall'
    exact ⟨hnext.calls call hcall, _, hguard⟩
  · next lease hrung => -- drop
    obtain ⟨t, hrelease, rfl⟩ := Option.map_eq_some_iff.mp hstep
    obtain ⟨hkey, hsince⟩ := hok.leased lease hrung
    obtain ⟨hout, hguard⟩ := guard_of_release hrelease
    have hnext := h.stepStore hrelease nofun fun _ _ _ hg => ⟨_, hguard ▸ hg⟩
    have hkept := (kept_of_keepsPromises h hgood hrung hkey hout).step hrelease nofun
    have hreturned : LadderOk
        (({ s with store := t } : Ladder).finish call .processRestarted (some lease.connection)) :=
      hnext.finish ⟨nofun, nofun, fun _ => ⟨lease.connection, rfl, hsince⟩⟩
    exact hreturned.promise hkept _
  · -- abandon
    split_ifs at hstep
    obtain rfl := Option.some.inj hstep
    exact h.remove call
  · cases hstep

theorem LadderOk.step (h : LadderOk s) (hgood : keepsPromises s m) (hstep : s.step o m = some s') :
    LadderOk s' := by
  cases m with
  | store a =>
    simp only [Ladder.step] at hstep
    split_ifs at hstep
    obtain ⟨t, ht, rfl⟩ := Option.map_eq_some_iff.mp hstep
    exact h.settle ht hgood
  | prompt agent session | turnEnd agent session =>
    obtain rfl := Option.some.inj hstep
    exact h.frame rfl rfl rfl (fun _ h => .inl h) (h.sound.frame rfl rfl fun _ h => h)
  | answer request ok =>
    simp only [Ladder.step] at hstep
    split_ifs at hstep
    obtain rfl := Option.some.inj hstep
    exact h.frame rfl rfl rfl (fun _ h => .inl h)
      (h.sound.frame rfl rfl fun _ h => List.mem_cons_of_mem _ h)
  | recover key session =>
    obtain rfl := Option.some.inj hstep
    refine h.frame rfl rfl rfl (fun call hcall => ?_) (h.sound.frame rfl rfl fun _ h => h)
    rcases List.mem_cons.mp hcall with rfl | hcall
    · exact .inr ⟨⟨Nat.zero_le _, fun _ _ _ _ => Nat.zero_le _⟩, nofun⟩
    · exact .inl hcall
  | call call event =>
    simp only [Ladder.step] at hstep
    split_ifs at hstep with hcall
    exact h.climb hcall hgood hstep

end Ladder

/-- The ladder is sound in every run whose steps keep to the condition. -/
theorem recovery_sound (o : StoreOptions) (moves : List Move)
    (hgood : Meets (Ladder.step o) (fun s m => keepsPromises s m) Ladder.new moves) :
    Always (Ladder.step o) Sound Ladder.new moves :=
  always_of_meets (fun _ => LadderOk.sound) (fun _ _ _ => LadderOk.step) .new hgood

section Runs

def defaultOptions : StoreOptions := ⟨30, 5⟩

/-- The first call, on a key that has never been leased. -/
def firstCall (rung : Rung) : Call := ⟨0, claude, "session", 0, rung⟩

/-- A call that respawns the process, up to its lease. -/
def respawn : List Move :=
  [.store (.register claude), .recover claude "session", .call (firstCall .called) .look,
    .call (firstCall .acquiring) .lock, .store .reuse, .store .beginSpawn, .store .install]

def acquires : List Move := [.store (.acquire claude), .store (.lock claude), .store .reuse]

/-- Another lease is out when the call gives back its own, the next `acquire` gets the process, and a
second call has the session resumed by its agent. -/
def steadyRecovery : List Move :=
  let second (rung : Rung) : Call := ⟨1, claude, "session", 0, rung⟩
  respawn ++ acquires ++ [.call (firstCall (.leased ⟨claude, firstAgent⟩)) .drop] ++ acquires ++
    [.prompt firstAgent "session", .recover claude "session", .call (second .called) .look,
      .call (second (.live firstAgent)) (.cancel false), .call (second (.closing firstAgent)) .closed,
      .answer ⟨1, firstAgent, "session"⟩ true, .call (second (.resuming firstAgent 5)) .resumed]

theorem steady_recovery_is_sound :
    ∃ s, run (Ladder.step defaultOptions) Ladder.new steadyRecovery = some s ∧ Sound s ∧
      s.returned.map Return.outcome = [.processRestarted, .sessionResumed] ∧
      s.handed = [(⟨claude, firstAgent, 30⟩, some firstAgent)] := by
  refine ⟨_, rfl, ?_, by decide, by decide⟩
  exact (recovery_sound defaultOptions steadyRecovery (by decide)).last rfl

/-- The agent ignores the cancel, and the call returns that the turn is cancelled. And a call gives back
the only lease on the process it has started, so that the next `acquire` does not get it. -/
theorem ladder_breaks_promises :
    (∃ s, run (Ladder.step defaultOptions) Ladder.new
        ((firstLease claude).map .store ++ [.prompt firstAgent "session", .recover claude "session",
          .call (firstCall .called) .look, .call (firstCall (.live firstAgent)) (.cancel true)]) = some s ∧
      s.returned.map (fun r => (r.outcome, r.running)) = [(.cancelled, true)] ∧ ¬ Sound s) ∧
    ∃ s, run (Ladder.step defaultOptions) Ladder.new
        (respawn ++ [.call (firstCall (.leased ⟨claude, firstAgent⟩)) .drop] ++ acquires) = some s ∧
      s.returned.map Return.outcome = [.processRestarted] ∧
      s.handed = [(⟨claude, firstAgent, 30⟩, none)] ∧ ¬ Sound s := by
  refine ⟨⟨_, rfl, by decide, fun h => ?_⟩, _, rfl, by decide, by decide, fun h => ?_⟩
  · have hcancelled := (h.returned _ (List.mem_singleton_self _)).cancelled rfl
    revert hcancelled
    decide
  · have hhanded := h.handed (⟨claude, firstAgent, 30⟩, none) (by decide)
    cases hhanded

end Runs

end Tethys.AgentServers
