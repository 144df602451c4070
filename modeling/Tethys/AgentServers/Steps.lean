import Tethys.AgentServers.ConnectionStore

/-!
# What a step of the connection store can do

`Stepped` lists the enabled steps with their guards and results, and `stepped_of_step` is the
one place that takes `Store.step` apart. From it, `change_of_step` says what a step does to
the entry of one key, to the leases on it and to the calls of `acquire` that concern it;
`outstanding_of_step`, `terminated_of_step` and `lastHeld_of_step` say where leases and the
history variables come from.
-/

namespace Tethys.AgentServers

open Lib

namespace Entry

@[simp] theorem key_refreshLiveness (exited : List Agent) (e : Entry) :
    (e.refreshLiveness exited).key = e.key := by
  unfold refreshLiveness; split_ifs <;> rfl

@[simp] theorem key_connectionClosed (agent : Agent) (e : Entry) :
    (e.connectionClosed agent).key = e.key := by
  unfold connectionClosed; split_ifs <;> rfl

end Entry

namespace Store

variable {s t : Store} {key k : ConnectionKey} {e e' : Entry} {a : Act} {grace : Nat}

theorem key_of_find (h : s.find key = some e) : e.key = key := key_of_lookup h

theorem find_modify {f : Entry → Entry} (hf : ∀ e, (f e).key = e.key) (k key : ConnectionKey) :
    (s.modify k f).find key = if key = k then (s.find key).map f else s.find key := by
  unfold modify
  cases h : s.find k with
  | none =>
    split_ifs with hkey
    · subst hkey
      exact h.trans (by rw [h]; rfl)
    · rfl
  | some e =>
    have hk : (f e).key = k := (hf e).trans (key_of_find h)
    split_ifs with hkey
    · subst hkey
      rw [h]
      exact lookup_put_self (lookup_isSome.mp (Option.isSome_of_eq_some h)) hk
    · exact lookup_put_of_ne hkey hk

theorem find_modify_self {f : Entry → Entry} (hf : ∀ e, (f e).key = e.key)
    (h : s.find key = some e) : (s.modify key f).find key = some (f e) := by
  simp [find_modify hf, h]

theorem find_modify_of_ne {f : Entry → Entry} (hf : ∀ e, (f e).key = e.key) (hne : key ≠ k) :
    (s.modify k f).find key = s.find key := by
  simp [find_modify hf, hne]

/-- The entry of a key after a section of its own or of another key. -/
theorem exists_find_modify (f : Entry → Entry) (hf : ∀ e, (f e).key = e.key) (k : ConnectionKey)
    (h : s.find key = some e) :
    ∃ e', (s.modify k f).find key = some e' ∧ (key = k ∧ e' = f e ∨ key ≠ k ∧ e' = e) := by
  by_cases hkey : key = k
  · subst hkey
    exact ⟨_, find_modify_self hf h, .inl ⟨rfl, rfl⟩⟩
  · exact ⟨e, (find_modify_of_ne hf hkey).trans h, .inr ⟨hkey, rfl⟩⟩

theorem find_modify_none (f : Entry → Entry) (hf : ∀ e, (f e).key = e.key) (k : ConnectionKey)
    (h : s.find key = none) : (s.modify k f).find key = none := by
  simp [find_modify hf, h]

theorem leasesOn_of_cons {lease : ConnectionLease} (ht : t.outstanding = lease :: s.outstanding)
    (key : ConnectionKey) :
    t.leasesOn key = s.leasesOn key + if lease.key = key then 1 else 0 := by
  simp [leasesOn, ht, List.countP_cons]

theorem leasesOn_of_erase {lease : ConnectionLease} (h : lease ∈ s.outstanding)
    (ht : t.outstanding = s.outstanding.erase lease) (key : ConnectionKey) :
    s.leasesOn key = t.leasesOn key + if lease.key = key then 1 else 0 := by
  have hperm := (List.perm_cons_erase h).countP_eq fun lease => decide (lease.key = key)
  rw [List.countP_cons, ← ht] at hperm
  simpa [leasesOn] using hperm

/-- The enabled steps and what they lead to. -/
inductive Stepped (grace : Nat) (s : Store) : Act → Store → Prop where
  | register (key : ConnectionKey) : Stepped grace s (.register key) (s.register key)
  | acquire (key : ConnectionKey) :
    Stepped grace s (.acquire key) { s with waiting := key :: s.waiting }
  | abandon (key : ConnectionKey) (hw : key ∈ s.waiting) :
    Stepped grace s (.abandon key) { s with waiting := s.waiting.erase key }
  | lock (key : ConnectionKey) (hg : s.guard = none) (hw : key ∈ s.waiting) :
    Stepped grace s (.lock key)
      { s with waiting := s.waiting.erase key, guard := some (key, .entered) }
  | leased (key : ConnectionKey) (agent : Agent) (hg : s.guard = some (key, .entered))
      (hlive : (s.find key).bind (Entry.liveConnection s.exited) = some agent) :
    Stepped grace s .reuse
      { s.modify key (fun e => (e.refreshLiveness s.exited).addLease s.now) with
        outstanding := ⟨key, agent⟩ :: s.outstanding, guard := none }
  | missed (key : ConnectionKey) (hg : s.guard = some (key, .entered))
      (hmiss : (s.find key).bind (Entry.liveConnection s.exited) = none) :
    Stepped grace s .reuse
      { s.modify key (Entry.refreshLiveness s.exited) with guard := some (key, .missed) }
  | beginSpawn (key : ConnectionKey) (hg : s.guard = some (key, .missed)) :
    Stepped grace s .beginSpawn (s.beginSpawn key)
  | install (key : ConnectionKey) (hg : s.guard = some (key, .spawning)) :
    Stepped grace s .install (s.install key)
  | spawnFailed (key : ConnectionKey) (hg : s.guard = some (key, .spawning)) :
    Stepped grace s .spawnFailed { s.modify key Entry.markError with guard := none }
  | spawnAbandoned (key : ConnectionKey) (hg : s.guard = some (key, .spawning)) :
    Stepped grace s .spawnAbandoned { s with guard := none }
  | release (lease : ConnectionLease) (hmem : lease ∈ s.outstanding) :
    Stepped grace s (.release lease) (s.release lease)
  | restart (key : ConnectionKey) : Stepped grace s (.restart key) (s.restart key)
  | reapStart (order : List ConnectionKey) (hperm : order.isPerm (s.candidates grace)) :
    Stepped grace s (.reapStart order) { s with reapers := s.reapers ++ [order] }
  | reaped (reaper : Nat) (key : ConnectionKey) (rest : List ConnectionKey)
      (hr : s.reapers[reaper]? = some (key :: rest)) (htake : s.reapable key) :
    Stepped grace s (.reapNext reaper)
      { s.takeChild .reap key Entry.reap with reapers := s.reapers.set reaper rest }
  | spared (reaper : Nat) (key : ConnectionKey) (rest : List ConnectionKey)
      (hr : s.reapers[reaper]? = some (key :: rest)) :
    Stepped grace s (.reapNext reaper) { s with reapers := s.reapers.set reaper rest }
  | refresh (key : ConnectionKey) :
    Stepped grace s (.refresh key) (s.modify key (Entry.refreshLiveness s.exited))
  | refreshAll :
    Stepped grace s .refreshAll
      { s with entries := s.entries.map (Entry.refreshLiveness s.exited) }
  | watch (watcher : ConnectionLease) (hw : watcher ∈ s.watchers)
      (hclosed : watcher.connection ∈ s.closed) :
    Stepped grace s (.watch watcher)
      { s.modify watcher.key (Entry.connectionClosed watcher.connection) with
        watchers := s.watchers.erase watcher }
  | childExit (agent : Agent) :
    Stepped grace s (.childExit agent) { s with exited := agent :: s.exited }
  | transportClose (agent : Agent) :
    Stepped grace s (.transportClose agent) { s with closed := agent :: s.closed }
  | tick (time : Nat) : Stepped grace s (.tick time) { s with now := s.now + time }

/-- The only place that looks into `step`. -/
theorem stepped_of_step (h : s.step grace a = some t) : Stepped grace s a t := by
  cases a with
  | register key | acquire key | restart key | refresh key | refreshAll | childExit agent
  | transportClose agent | tick time =>
    obtain rfl := Option.some.inj h
    constructor
  | abandon key | release lease | reapStart order =>
    simp only [step] at h
    split_ifs at h with hguard
    obtain rfl := Option.some.inj h
    constructor
    exact hguard
  | lock key | watch watcher =>
    simp only [step] at h
    split_ifs at h with hguard
    obtain rfl := Option.some.inj h
    constructor
    · exact hguard.1
    · exact hguard.2
  | beginSpawn | install | spawnFailed | spawnAbandoned =>
    simp only [step] at h
    split at h
    case h_1 key hg =>
      obtain rfl := Option.some.inj h
      constructor
      exact hg
    case h_2 => exact nomatch h
  | reuse =>
    simp only [step] at h
    split at h
    case h_1 key hg =>
      obtain rfl := Option.some.inj h
      unfold reuse
      split
      case h_1 agent hlive => exact .leased key agent hg hlive
      case h_2 hmiss => exact .missed key hg hmiss
    case h_2 => exact nomatch h
  | reapNext reaper =>
    simp only [step] at h
    split at h
    case h_1 key rest hr =>
      obtain rfl := Option.some.inj h
      unfold reap
      split_ifs with htake
      · exact .reaped reaper key rest hr htake
      · exact .spared reaper key rest hr
    case h_2 => exact nomatch h

/-- No call of `acquire` on the key is in progress. -/
def Idle (s : Store) (key : ConnectionKey) : Prop :=
  key ∉ s.waiting ∧ ∀ phase, s.guard ≠ some (key, phase)

/-- What a step can do to an entry. -/
inductive Change (s : Store) (a : Act) (t : Store) (key : ConnectionKey) (e e' : Entry) : Prop where
  /-- nothing, or the entry was found dead -/
  | quiet (he : e' = e ∨ e' = e.refreshLiveness s.exited ∨
        ∃ agent ∈ s.closed, e' = e.connectionClosed agent)
      (hleases : t.leasesOn key = s.leasesOn key)
      (hguard : ∀ phase, t.guard = some (key, phase) →
        s.guard = some (key, phase) ∨ phase = .entered)
      (hidle : t.Idle key → s.Idle key ∨ a = .abandon key ∨ s.guard = some (key, .spawning))
  /-- `reuse` found no live connection -/
  | missed (ha : a = .reuse) (hs : s.guard = some (key, .entered))
      (ht : t.guard = some (key, .missed))
      (hmiss : e.liveConnection s.exited = none) (he : e' = e.refreshLiveness s.exited)
      (hleases : t.leasesOn key = s.leasesOn key)
  /-- `reuse` leased the connection -/
  | leased (agent : Agent) (ha : a = .reuse) (hs : s.guard = some (key, .entered))
      (ht : t.guard = none)
      (hlive : e.liveConnection s.exited = some agent)
      (he : e' = (e.refreshLiveness s.exited).addLease s.now)
      (hout : t.outstanding = ⟨key, agent⟩ :: s.outstanding)
      (hleases : t.leasesOn key = s.leasesOn key + 1)
  | emptied (hs : s.guard = some (key, .missed)) (ht : t.guard = some (key, .spawning))
      (he : e' = e.beginSpawn) (hleases : t.leasesOn key = s.leasesOn key)
  | installed (hs : s.guard = some (key, .spawning)) (ht : t.guard = none)
      (he : e' = e.install ⟨key, s.serial⟩ s.now) (hleases : t.leasesOn key = s.leasesOn key + 1)
  | failed (hs : s.guard = some (key, .spawning)) (ht : t.guard = none)
      (he : e' = e.markError) (hleases : t.leasesOn key = s.leasesOn key)
  | released (lease : ConnectionLease) (ha : a = .release lease) (hkey : lease.key = key)
      (hs : t.guard = s.guard ∧ t.waiting = s.waiting) (he : e' = e.release s.now)
      (hleases : s.leasesOn key = t.leasesOn key + 1)
  | restarted (hs : t.guard = s.guard ∧ t.waiting = s.waiting) (he : e' = e.restart)
      (hleases : t.leasesOn key = s.leasesOn key)
  | reaped (hs : t.guard = s.guard ∧ t.waiting = s.waiting) (hstate : e.state = .draining)
      (hnone : e.leases = 0) (he : e' = e.reap) (hleases : t.leasesOn key = s.leasesOn key)

/-- The step leaves the entry, the leases on it and the calls on it alone. -/
theorem Change.same (hleases : t.leasesOn key = s.leasesOn key) (hg : t.guard = s.guard)
    (hw : t.waiting = s.waiting) : Change s a t key e e :=
  .quiet (.inl rfl) hleases (fun _ h => .inl (hg ▸ h))
    fun h => .inl ⟨hw ▸ h.1, fun phase => hg ▸ h.2 phase⟩

/-- The entry is checked and perhaps found dead. -/
theorem Change.dead (he : e' = e.refreshLiveness s.exited ∨
      ∃ agent ∈ s.closed, e' = e.connectionClosed agent)
    (hleases : t.leasesOn key = s.leasesOn key) (hg : t.guard = s.guard)
    (hw : t.waiting = s.waiting) : Change s a t key e e' :=
  .quiet (.inr he) hleases (fun _ h => .inl (hg ▸ h))
    fun h => .inl ⟨hw ▸ h.1, fun phase => hg ▸ h.2 phase⟩

/-- The holder of the guard works on another key. -/
theorem Change.elsewhere {phase : Phase} (hleases : t.leasesOn key = s.leasesOn key)
    (hs : s.guard = some (k, phase)) (hne : key ≠ k) (ht : ∀ phase, t.guard ≠ some (key, phase))
    (hw : t.waiting = s.waiting) : Change s a t key e e := by
  refine .quiet (.inl rfl) hleases (fun phase h => absurd h (ht phase)) fun h => .inl ⟨hw ▸ h.1, ?_⟩
  intro phase' h'
  rw [hs, Option.some.injEq, Prod.mk.injEq] at h'
  exact hne h'.1.symm

theorem reuse_outstanding {agent : Agent} (hf : s.find key = some e)
    (hlive : e.liveConnection s.exited = some agent) :
    (s.reuse key).outstanding = ⟨key, agent⟩ :: s.outstanding := by
  simp [reuse, hf, hlive]

theorem change_of_beginSpawn (hg : s.guard = some (k, .missed)) (hf : s.find key = some e) :
    ∃ e', (s.beginSpawn k).find key = some e' ∧ Change s .beginSpawn (s.beginSpawn k) key e e' := by
  obtain ⟨e', he', ⟨rfl, rfl⟩ | ⟨hne, rfl⟩⟩ :=
    exists_find_modify Entry.beginSpawn (fun _ => rfl) k hf
  · exact ⟨_, he', .emptied hg (by simp [beginSpawn, hf]) rfl rfl⟩
  · refine ⟨e', he', .elsewhere rfl hg hne (fun phase h => ?_) rfl⟩
    simp only [beginSpawn] at h
    split_ifs at h
    exact hne (Prod.mk.inj (Option.some.inj h)).1.symm

theorem change_of_install (hg : s.guard = some (k, .spawning)) (hf : s.find key = some e) :
    ∃ e', (s.install k).find key = some e' ∧ Change s .install (s.install k) key e e' := by
  obtain ⟨e', he', ⟨rfl, rfl⟩ | ⟨hne, rfl⟩⟩ :=
    exists_find_modify (Entry.install ⟨k, s.serial⟩ s.now) (fun _ => rfl) k hf
  · exact ⟨_, he', .installed hg rfl rfl ((leasesOn_of_cons rfl key).trans (by simp))⟩
  · exact ⟨e', he', .elsewhere ((leasesOn_of_cons rfl key).trans (by simp [hne.symm])) hg hne
      (by simp [install]) rfl⟩

theorem change_of_release {lease : ConnectionLease} (hmem : lease ∈ s.outstanding)
    (hf : s.find key = some e) :
    ∃ e', (s.release lease).find key = some e' ∧
      Change s (.release lease) (s.release lease) key e e' := by
  have hl := leasesOn_of_erase (t := s.release lease) hmem rfl key
  obtain ⟨e', he', ⟨hkey, rfl⟩ | ⟨hne, rfl⟩⟩ :=
    exists_find_modify (Entry.release s.now) (fun _ => rfl) lease.key hf
  · exact ⟨_, he', .released lease rfl hkey.symm ⟨rfl, rfl⟩ rfl (by simpa [hkey] using hl)⟩
  · exact ⟨e', he', .same (by simpa [Ne.symm hne] using hl.symm) rfl rfl⟩

/-- Every known entry stays, and changes in one of the ways of `Change`. -/
theorem change_of_step (h : s.step grace a = some t) (hf : s.find key = some e) :
    ∃ e', t.find key = some e' ∧ Change s a t key e e' := by
  cases stepped_of_step h with
  | register k =>
    refine ⟨e, ?_, .same rfl rfl rfl⟩
    unfold register find
    split_ifs
    · exact hf
    · rw [lookup_append, show lookup Entry.key key s.entries = some e from hf, Option.some_or]
  | acquire k =>
    refine ⟨e, hf, .quiet (.inl rfl) rfl (fun _ h => .inl h) fun hidle => .inl ?_⟩
    exact ⟨fun hw => hidle.1 (List.mem_cons_of_mem _ hw), hidle.2⟩
  | abandon k hw =>
    refine ⟨e, hf, .quiet (.inl rfl) rfl (fun _ h => .inl h) fun hidle => ?_⟩
    by_cases hk : k = key
    · exact .inr (.inl (hk ▸ rfl))
    · exact .inl ⟨fun hmem => hidle.1 ((List.mem_erase_of_ne (Ne.symm hk)).mpr hmem), hidle.2⟩
  | lock k hg hw =>
    refine ⟨e, hf, .quiet (.inl rfl) rfl ?_ fun hidle => .inl ?_⟩
    · intro phase hphase
      obtain ⟨-, rfl⟩ : k = key ∧ Phase.entered = phase := by simpa using hphase
      exact .inr rfl
    · have hk : key ≠ k := fun hk => hidle.2 .entered (by simp [hk])
      exact ⟨fun hmem => hidle.1 ((List.mem_erase_of_ne hk).mpr hmem), by simp [hg]⟩
  | leased k agent hg hlive =>
    obtain ⟨e', he', ⟨rfl, rfl⟩ | ⟨hne, rfl⟩⟩ := exists_find_modify
      (fun e => (e.refreshLiveness s.exited).addLease s.now) (by simp [Entry.addLease]) k hf
    · rw [hf, Option.bind_some] at hlive
      exact ⟨_, he', .leased agent rfl hg rfl hlive rfl rfl
        ((leasesOn_of_cons rfl key).trans (by simp))⟩
    · exact ⟨e', he', .elsewhere ((leasesOn_of_cons rfl key).trans (by simp [hne.symm])) hg hne
        (by simp) rfl⟩
  | missed k hg hmiss =>
    obtain ⟨e', he', ⟨rfl, rfl⟩ | ⟨hne, rfl⟩⟩ :=
      exists_find_modify _ (Entry.key_refreshLiveness s.exited) k hf
    · rw [hf, Option.bind_some] at hmiss
      exact ⟨_, he', .missed rfl hg rfl hmiss rfl rfl⟩
    · exact ⟨e', he', .elsewhere rfl hg hne (by simp [hne.symm]) rfl⟩
  | beginSpawn k hg => exact change_of_beginSpawn hg hf
  | install k hg => exact change_of_install hg hf
  | spawnFailed k hg =>
    obtain ⟨e', he', ⟨rfl, rfl⟩ | ⟨hne, rfl⟩⟩ :=
      exists_find_modify Entry.markError (fun _ => rfl) k hf
    · exact ⟨_, he', .failed hg rfl rfl rfl⟩
    · exact ⟨e', he', .elsewhere rfl hg hne (by simp) rfl⟩
  | spawnAbandoned k hg =>
    refine ⟨e, hf, .quiet (.inl rfl) rfl (by simp) fun hidle => ?_⟩
    by_cases hk : k = key
    · exact .inr (.inr (hk ▸ hg))
    · exact .inl ⟨hidle.1, by simp [hg, hk]⟩
  | release lease hmem => exact change_of_release hmem hf
  | restart k =>
    obtain ⟨e', he', ⟨rfl, rfl⟩ | ⟨-, rfl⟩⟩ := exists_find_modify Entry.restart (fun _ => rfl) k hf
    · exact ⟨_, he', .restarted ⟨rfl, rfl⟩ rfl rfl⟩
    · exact ⟨e', he', .same rfl rfl rfl⟩
  | reaped reaper k rest hr htake =>
    obtain ⟨e', he', ⟨rfl, rfl⟩ | ⟨-, rfl⟩⟩ := exists_find_modify Entry.reap (fun _ => rfl) k hf
    · obtain ⟨hstate, hnone⟩ : e.state = .draining ∧ e.leases = 0 := by
        simpa [reapable, hf] using htake
      exact ⟨_, he', .reaped ⟨rfl, rfl⟩ hstate hnone rfl rfl⟩
    · exact ⟨e', he', .same rfl rfl rfl⟩
  | refresh k =>
    obtain ⟨e', he', ⟨-, rfl⟩ | ⟨-, rfl⟩⟩ :=
      exists_find_modify _ (Entry.key_refreshLiveness s.exited) k hf
    · exact ⟨_, he', .dead (.inl rfl) rfl rfl rfl⟩
    · exact ⟨e', he', .same rfl rfl rfl⟩
  | refreshAll =>
    refine ⟨e.refreshLiveness s.exited, ?_, .dead (.inl rfl) rfl rfl rfl⟩
    exact (lookup_map (Entry.key_refreshLiveness s.exited) s.entries).trans (congrArg _ hf)
  | watch watcher hw hclosed =>
    obtain ⟨e', he', ⟨-, rfl⟩ | ⟨-, rfl⟩⟩ :=
      exists_find_modify _ (Entry.key_connectionClosed watcher.connection) watcher.key hf
    · exact ⟨_, he', .dead (.inr ⟨_, hclosed, rfl⟩) rfl rfl rfl⟩
    · exact ⟨e', he', .same rfl rfl rfl⟩
  | reapStart order hperm | spared reaper k rest hr | childExit agent | transportClose agent
  | tick time => exact ⟨e, hf, .same rfl rfl rfl⟩

/-! ## Leases and history -/

/-- A key that is unknown stays so, or is registered. -/
theorem find_none_of_step (h : s.step grace a = some t) (hf : s.find key = none) :
    t.find key = none ∨
      t.find key = some (Entry.new key s.now) ∧ t.outstanding = s.outstanding := by
  cases stepped_of_step h with
  | register k =>
    unfold register find
    split_ifs
    · exact .inl hf
    · rw [lookup_append, show lookup Entry.key key s.entries = none from hf, Option.none_or,
        lookup_cons]
      split_ifs with hk
      · exact .inr ⟨congrArg (fun k => some (Entry.new k s.now)) hk, rfl⟩
      · exact .inl rfl
  | leased k agent hg hlive => exact .inl (find_modify_none _ (by simp [Entry.addLease]) k hf)
  | missed k hg hmiss | refresh k =>
    exact .inl (find_modify_none _ (Entry.key_refreshLiveness s.exited) k hf)
  | beginSpawn k hg => exact .inl (find_modify_none Entry.beginSpawn (fun _ => rfl) k hf)
  | install k hg =>
    exact .inl (find_modify_none (Entry.install ⟨k, s.serial⟩ s.now) (fun _ => rfl) k hf)
  | spawnFailed k hg => exact .inl (find_modify_none Entry.markError (fun _ => rfl) k hf)
  | release lease hmem =>
    exact .inl (find_modify_none (Entry.release s.now) (fun _ => rfl) lease.key hf)
  | restart k => exact .inl (find_modify_none Entry.restart (fun _ => rfl) k hf)
  | reaped reaper k rest hr htake => exact .inl (find_modify_none Entry.reap (fun _ => rfl) k hf)
  | refreshAll =>
    exact .inl ((lookup_map (Entry.key_refreshLiveness s.exited) s.entries).trans (congrArg _ hf))
  | watch watcher hw hclosed =>
    exact .inl (find_modify_none _ (Entry.key_connectionClosed watcher.connection) watcher.key hf)
  | _ => exact .inl hf

/-- Where an outstanding lease comes from. -/
theorem outstanding_of_step {lease : ConnectionLease} (h : s.step grace a = some t)
    (hl : lease ∈ t.outstanding) :
    lease ∈ s.outstanding ∨
      (∃ e, s.find lease.key = some e ∧ e.liveConnection s.exited = some lease.connection) ∨
      (s.guard = some (lease.key, .spawning) ∧ lease.connection.key = lease.key) := by
  cases stepped_of_step h with
  | leased k agent hg hlive =>
    obtain rfl | hl := List.mem_cons.mp hl
    · exact .inr (.inl (Option.bind_eq_some_iff.mp hlive))
    · exact .inl hl
  | install k hg =>
    obtain rfl | hl := List.mem_cons.mp hl
    · exact .inr (.inr ⟨hg, rfl⟩)
    · exact .inl hl
  | release lease' hmem => exact .inl (List.mem_of_mem_erase hl)
  | _ => exact .inl hl

/-- How the guard came to be held. -/
theorem guard_of_step {phase : Phase} (h : s.step grace a = some t)
    (hg : t.guard = some (key, phase)) :
    s.guard = some (key, phase) ∨ phase = .entered ∨
      (phase = .missed ∧ s.guard = some (key, .entered)) ∨
      (phase = .spawning ∧ s.guard = some (key, .missed) ∧ (s.find key).isSome) := by
  cases stepped_of_step h with
  | lock k hfree hw =>
    exact .inr (.inl (by simpa using hg.symm.trans rfl : key = k ∧ phase = .entered).2)
  | missed k hk hmiss =>
    obtain ⟨rfl, rfl⟩ : k = key ∧ Phase.missed = phase := by simpa using hg
    exact .inr (.inr (.inl ⟨rfl, hk⟩))
  | beginSpawn k hk =>
    simp only [beginSpawn] at hg
    split_ifs at hg with hsome
    obtain ⟨rfl, rfl⟩ : k = key ∧ Phase.spawning = phase := by simpa using hg
    exact .inr (.inr (.inr ⟨rfl, hk, hsome⟩))
  | leased k agent hk hlive => exact nomatch hg
  | install k hk | spawnFailed k hk | spawnAbandoned k hk => exact nomatch hg
  | _ => exact .inl hg

/-- When a lease on an agent was last given back. -/
theorem lastHeld_of_step (h : s.step grace a = some t) (agent : Agent) :
    t.lastHeld agent = s.lastHeld agent ∨
      ∃ lease ∈ s.outstanding, lease.connection = agent ∧ t.lastHeld agent = s.now ∧
        ∀ e, t.find lease.key = some e → e.lastActive = s.now := by
  cases stepped_of_step h with
  | release lease hmem =>
    by_cases hag : agent = lease.connection
    · refine .inr ⟨lease, hmem, hag.symm, by simp [release, hag], fun e he => ?_⟩
      have hf := (find_modify (f := Entry.release s.now) (fun _ => rfl) lease.key
        lease.key).symm.trans he
      obtain ⟨e₀, -, rfl⟩ : ∃ e₀, s.find lease.key = some e₀ ∧ e₀.release s.now = e := by
        simpa using hf
      rfl
    · exact .inl (by simp [release, hag])
  | _ => exact .inl rfl

/-- The clock never runs back, and what is dead stays dead. -/
theorem mono_of_step (h : s.step grace a = some t) :
    s.now ≤ t.now ∧ s.exited ⊆ t.exited ∧ s.closed ⊆ t.closed := by
  cases stepped_of_step h with
  | childExit agent => exact ⟨Nat.le_refl _, List.subset_cons_self _ _, List.Subset.refl _⟩
  | transportClose agent => exact ⟨Nat.le_refl _, List.Subset.refl _, List.subset_cons_self _ _⟩
  | tick time => exact ⟨Nat.le_add_right _ _, List.Subset.refl _, List.Subset.refl _⟩
  | _ => exact ⟨Nat.le_refl _, List.Subset.refl _, List.Subset.refl _⟩

/-- What a step takes out of the entry of a key, and why. -/
inductive Took (s : Store) (a : Act) (key : ConnectionKey) (e : Entry) : Cause → Prop where
  | respawn (hs : s.guard = some (key, .missed)) : Took s a key e .respawn
  | reap (reaper : Nat) (rest : List ConnectionKey) (ha : a = .reapNext reaper)
      (hr : s.reapers[reaper]? = some (key :: rest)) (hstate : e.state = .draining)
      (hnone : e.leases = 0) : Took s a key e .reap
  | restart (ha : a = .restart key) : Took s a key e .restart

theorem terminated_of_step {k : Termination} (h : s.step grace a = some t) (hk : k ∈ t.terminated) :
    k ∈ s.terminated ∨ ∃ key e cause, s.find key = some e ∧ k ∈ s.takes cause e ∧
      Took s a key e cause := by
  have htaken (cause : Cause) (key : ConnectionKey) (f : Entry → Entry)
      (hk : k ∈ (s.takeChild cause key f).terminated)
      (htook : ∀ e, s.find key = some e → Took s a key e cause) :
      k ∈ s.terminated ∨ ∃ key e cause, s.find key = some e ∧ k ∈ s.takes cause e ∧
        Took s a key e cause := by
    rcases List.mem_append.mp hk with hk | hk
    · exact .inl hk
    · obtain ⟨e, he, hmem⟩ := List.mem_flatMap.mp hk
      have he : s.find key = some e := Option.mem_toList.mp he
      exact .inr ⟨key, e, cause, he, hmem, htook e he⟩
  cases stepped_of_step h with
  | beginSpawn key hg => exact htaken .respawn key Entry.beginSpawn hk fun _ _ => .respawn hg
  | restart key => exact htaken .restart key Entry.restart hk fun _ _ => .restart rfl
  | reaped reaper key rest hr htake =>
    refine htaken .reap key Entry.reap hk fun e he => ?_
    obtain ⟨hstate, hnone⟩ : e.state = .draining ∧ e.leases = 0 := by
      simpa [reapable, he] using htake
    exact .reap reaper rest rfl hr hstate hnone
  | _ => exact .inl hk

end Store

end Tethys.AgentServers
