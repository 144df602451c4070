import Tethys.AgentServers.Leaks

/-!
# The grace period

A healthy agent should be terminated only by `restart`, or by `reap_idle` once nobody has
held a lease on it for the grace period, and an `acquire` in between should get it back.
Two sections do not keep to this. `reuse` looks for a connected entry, so that `acquire`
kills and respawns an agent that is draining; and `reap_idle` looks at the time only when it
collects its candidates, so that an entry leased and released since then is taken at once.
`grace_honoured` says that nothing else goes wrong.
-/

namespace Tethys.AgentServers

open Lib Store

variable {s t : Store} {key : ConnectionKey} {e e' : Entry} {a : Act} {agent : Agent} {grace : Nat}

/-- No healthy agent was terminated before its time. -/
def GraceHonoured (grace : Nat) (s : Store) : Prop :=
  ∀ k ∈ s.terminated, k.healthy →
    k.cause = .restart ∨ k.cause = .reap ∧ k.leases = 0 ∧ k.lastHeld + grace ≤ k.time

/-- An `acquire` that finds a healthy connection leases it. -/
def Reuses (grace : Nat) (s : Store) (a : Act) : Prop :=
  ∀ key e agent t, a = .reuse → s.guard = some (key, .entered) → s.find key = some e →
    s.healthy e → e.connection = some agent → s.step grace a = some t →
    t.outstanding = ⟨key, agent⟩ :: s.outstanding

/-- `acquire` meets no healthy agent that is draining, and `reap_idle` no healthy agent whose
entry was active within the grace period. -/
def keepsGrace (grace : Nat) (s : Store) : Act → Bool
  | .reuse =>
    match s.guard with
    | some (key, .entered) => (s.find key).all fun e => !(e.state = .draining ∧ s.healthy e)
    | _ => true
  | .reapNext reaper =>
    match s.reapers[reaper]? with
    | some (key :: _) => (s.find key).all fun e =>
        !(e.state = .draining ∧ s.healthy e ∧ s.now - e.lastActive < grace)
    | _ => true
  | _ => true

theorem not_draining_of_keepsGrace (h : keepsGrace grace s .reuse)
    (hg : s.guard = some (key, .entered)) (hf : s.find key = some e) (hh : s.healthy e) :
    e.state ≠ .draining := by
  simp only [keepsGrace, hg, hf] at h
  intro hst
  simp [hst, hh] at h

theorem grace_le_of_keepsGrace {reaper : Nat} {rest : List ConnectionKey}
    (h : keepsGrace grace s (.reapNext reaper)) (hr : s.reapers[reaper]? = some (key :: rest))
    (hf : s.find key = some e) (hst : e.state = .draining) (hh : s.healthy e) :
    grace ≤ s.now - e.lastActive := by
  simp only [keepsGrace, hr, hf] at h
  simpa [hst, hh] using h

theorem healthy_iff : s.healthy e ↔
    (∃ child, e.child = some child ∧ child ∉ s.exited) ∧
      ∃ connection, e.connection = some connection ∧ connection ∉ s.closed := by
  cases hc : e.child <;> cases hk : e.connection <;> simp [healthy, hc, hk]

/-- An agent that is dead stays dead. -/
theorem healthy_of_step (hstep : s.step grace a = some t) (hchild : e'.child = e.child)
    (hconn : e'.connection = e.connection) (h : t.healthy e') : s.healthy e := by
  obtain ⟨-, hexited, hclosed⟩ := mono_of_step hstep
  rw [healthy_iff, hchild, hconn] at h
  obtain ⟨⟨child, hc, hnc⟩, connection, hk, hnk⟩ := h
  exact healthy_iff.mpr
    ⟨⟨child, hc, fun h => hnc (hexited h)⟩, connection, hk, fun h => hnk (hclosed h)⟩

/-- A healthy entry is connected or draining, with one agent as child and connection. -/
theorem EntryOk.of_healthy (h : EntryOk s e) (hh : s.healthy e) :
    (e.state = .connected ∨ e.state = .draining) ∧
      ∃ agent, e.child = some agent ∧ e.connection = some agent ∧ agent ∉ s.exited := by
  obtain ⟨⟨child, hc, hnc⟩, connection, hk, -⟩ := healthy_iff.mp hh
  have hsame := (h.agent connection hk).1
  obtain rfl : child = connection := Option.some.inj (hc.symm.trans hsame)
  exact ⟨h.connection (by simp [hk]), child, hc, hk, hnc⟩

/-- `reuse` leases a healthy entry that is connected. -/
theorem liveConnection_of_healthy (h : EntryOk s e) (hh : s.healthy e)
    (hstate : e.state = .connected) (hconn : e.connection = some agent) :
    e.liveConnection s.exited = some agent := by
  obtain ⟨-, child, hc, -, hne⟩ := h.of_healthy hh
  have hsame : e.refreshLiveness s.exited = e := by
    simp [Entry.refreshLiveness, hc, hne]
  simp [Entry.liveConnection, hsame, hstate, hconn]

/-- What the times of the store say about each other. -/
structure Timed (grace : Nat) (s : Store) : Prop where
  past : ∀ agent, s.lastHeld agent ≤ s.now
  held : ∀ key e agent, s.find key = some e → e.connection = some agent →
    s.lastHeld agent ≤ e.lastActive
  missed : ∀ key e, s.guard = some (key, .missed) → s.find key = some e → ¬ s.healthy e
  honoured : GraceHonoured grace s

/-- A connection after a step was there before, or the entry was active just now. -/
theorem connection_of_change (hc : Change s a t key e e') (hconn : e'.connection = some agent) :
    e.connection = some agent ∧ e'.lastActive = e.lastActive ∨ e'.lastActive = s.now := by
  have hdead : e'.connection = some agent → e' = e.refreshLiveness s.exited →
      e.connection = some agent ∧ e'.lastActive = e.lastActive := by
    rintro h rfl
    unfold Entry.refreshLiveness at h ⊢
    split_ifs at h ⊢
    exact ⟨h, rfl⟩
  cases hc with
  | quiet he hl hguard hback =>
    rcases he with rfl | he | ⟨agent', -, rfl⟩
    · exact .inl ⟨hconn, rfl⟩
    · exact .inl (hdead hconn he)
    · unfold Entry.connectionClosed at hconn ⊢
      split_ifs at hconn ⊢
      exact .inl ⟨hconn, rfl⟩
  | missed ha hs ht hmiss he hl => exact .inl (hdead hconn he)
  | leased agent' ha hs ht hlive he hout hl => subst he; exact .inr rfl
  | emptied hs ht he hl => subst he; exact nomatch hconn
  | installed hs ht he hl => subst he; exact .inr rfl
  | failed hs ht he hl => subst he; exact nomatch hconn
  | released lease ha hk hs he hl => subst he; exact .inr rfl
  | restarted hs he hl => subst he; exact nomatch hconn
  | reaped hs hstate hnone he hl => subst he; exact nomatch hconn

namespace Timed

theorem new (grace : Nat) : Timed grace Store.new :=
  ⟨fun _ => Nat.le_refl _, nofun, nofun, nofun⟩

theorem past_step (h : Timed grace s) (hstep : s.step grace a = some t) (agent : Agent) :
    t.lastHeld agent ≤ t.now := by
  have hnow := (mono_of_step hstep).1
  have hpast := h.past agent
  rcases lastHeld_of_step hstep agent with hsame | ⟨lease, -, -, hheld, -⟩ <;> omega

theorem held_step (hok : StoreOk s) (h : Timed grace s) (hstep : s.step grace a = some t)
    (hf : t.find key = some e') (hconn : e'.connection = some agent) :
    t.lastHeld agent ≤ e'.lastActive := by
  have hkey := ((hok.step hstep).entry key e' hf).agent agent hconn
  rw [key_of_find hf] at hkey
  rcases lastHeld_of_step hstep agent with hsame | ⟨lease, hlease, rfl, hheld, hactive⟩
  · rw [hsame]
    cases hs : s.find key with
    | none =>
      rcases find_none_of_step hstep hs with hnone | ⟨hnew, -⟩
      · exact nomatch hf.symm.trans hnone
      · obtain rfl : _ = e' := Option.some.inj (hnew.symm.trans hf)
        exact nomatch hconn
    | some e =>
      obtain ⟨e'', he'', hc⟩ := change_of_step hstep hs
      obtain rfl : e'' = e' := Option.some.inj (he''.symm.trans hf)
      rcases connection_of_change hc hconn with ⟨hold, heq⟩ | heq
      · exact heq ▸ h.held key e agent hs hold
      · exact heq ▸ h.past agent
  · -- the lease was on the agent of this entry, so its drop was its last activity
    have hlk : lease.key = key := (hok.leased lease hlease).2.symm.trans hkey.2
    exact Nat.le_of_eq (hheld.trans (hactive e' (hlk ▸ hf)).symm)

theorem missed_step (hok : StoreOk s) (h : Timed grace s) (hstep : s.step grace a = some t)
    (hgood : keepsGrace grace s a) (hg : t.guard = some (key, .missed))
    (hf : t.find key = some e') : ¬ t.healthy e' := by
  intro hh
  cases hs : s.find key with
  | none =>
    rcases find_none_of_step hstep hs with hnone | ⟨hnew, -⟩
    · exact nomatch hf.symm.trans hnone
    · obtain rfl : _ = e' := Option.some.inj (hnew.symm.trans hf)
      exact nomatch hh
  | some e =>
    obtain ⟨e'', he'', hc⟩ := change_of_step hstep hs
    obtain rfl : e'' = e' := Option.some.inj (he''.symm.trans hf)
    obtain ⟨-, agent, hchild, hconn, -⟩ := ((hok.step hstep).entry key e'' hf).of_healthy hh
    cases hc with
    | quiet he hl hguard hback =>
      have hmissed := (hguard _ hg).resolve_right nofun
      have hsame : e''.child = e.child ∧ e''.connection = e.connection := by
        rcases he with rfl | rfl | ⟨agent', -, rfl⟩
        · exact ⟨rfl, rfl⟩
        · unfold Entry.refreshLiveness at hconn ⊢
          split_ifs at hconn ⊢
          exact ⟨rfl, rfl⟩
        · unfold Entry.connectionClosed at hconn ⊢
          split_ifs at hconn ⊢
          exact ⟨rfl, rfl⟩
      exact h.missed key e hmissed hs (healthy_of_step hstep hsame.1 hsame.2 hh)
    | missed ha hsg ht hmiss he hl =>
      subst ha
      have hsame : e'' = e := by
        rw [he] at hconn ⊢
        unfold Entry.refreshLiveness at hconn ⊢
        split_ifs at hconn ⊢
        rfl
      subst hsame
      have hsh := healthy_of_step hstep rfl rfl hh
      rcases (hok.entry key e'' hs).of_healthy hsh with ⟨hst | hst, -⟩
      · exact nomatch hmiss.symm.trans
          (liveConnection_of_healthy (hok.entry key e'' hs) hsh hst hconn)
      · exact not_draining_of_keepsGrace hgood hsg hs hsh hst
    | leased agent' ha hsg ht hlive he hout hl => exact nomatch ht.symm.trans hg
    | emptied hsg ht he hl => exact nomatch ht.symm.trans hg
    | installed hsg ht he hl => exact nomatch ht.symm.trans hg
    | failed hsg ht he hl => exact nomatch ht.symm.trans hg
    | released lease ha hk hsg he hl =>
      subst he
      exact h.missed key e (hsg.1 ▸ hg) hs (healthy_of_step hstep rfl rfl hh)
    | restarted hsg he hl => subst he; exact nomatch hchild
    | reaped hsg hstate hnone he hl => subst he; exact nomatch hchild

theorem honoured_step (hok : StoreOk s) (h : Timed grace s) (hstep : s.step grace a = some t)
    (hgood : keepsGrace grace s a) : GraceHonoured grace t := by
  intro k hk hhealthy
  rcases terminated_of_step hstep hk with hold | ⟨key, e, cause, he, htakes, htook⟩
  · exact h.honoured k hold hhealthy
  · obtain ⟨agent, hchild, rfl⟩ := List.mem_map.mp htakes
    have hentry := hok.entry key e he
    cases htook with
    | respawn hs => exact absurd hhealthy (h.missed key e hs he)
    | restart ha => exact .inl rfl
    | reap reaper rest ha hr hstate hnone =>
      subst ha
      have hidle := grace_le_of_keepsGrace hgood hr he hstate hhealthy
      obtain ⟨-, agent', hc, hconn, -⟩ := hentry.of_healthy hhealthy
      obtain rfl : agent = agent' := Option.some.inj ((Option.mem_toList.mp hchild).symm.trans hc)
      have hheld := h.held key e agent he hconn
      have hpast := h.past agent
      refine .inr ⟨rfl, hentry.leases.symm.trans hnone, ?_⟩
      simp only
      omega

theorem step (hok : StoreOk s) (h : Timed grace s) (hgood : keepsGrace grace s a)
    (hstep : s.step grace a = some t) : Timed grace t :=
  ⟨h.past_step hstep, fun _ _ _ hf hconn => held_step hok h hstep hf hconn,
    fun _ _ hg hf => missed_step hok h hstep hgood hg hf, honoured_step hok h hstep hgood⟩

end Timed

/-- An `acquire` that meets no draining agent leases the healthy one it finds. -/
theorem reuses_of_keepsGrace (hok : StoreOk s) (hgood : keepsGrace grace s a) :
    Reuses grace s a := by
  rintro key e agent t rfl hg hf hh hconn hstep
  have hentry := hok.entry key e hf
  have hconnected : e.state = .connected := by
    rcases (hentry.of_healthy hh).1 with hst | hst
    · exact hst
    · exact absurd hst (not_draining_of_keepsGrace hgood hg hf hh)
  simp only [Store.step, hg] at hstep
  obtain rfl := Option.some.inj hstep
  exact reuse_outstanding hf (liveConnection_of_healthy hentry hh hconnected hconn)

/-- The grace period is honoured, and healthy connections are leased again, in every run
whose steps keep to the condition. -/
theorem grace_honoured (grace : Nat) (acts : List Act)
    (hgood : Meets (Store.step grace) (fun s a => keepsGrace grace s a) Store.new acts) :
    Always (Store.step grace) (GraceHonoured grace) Store.new acts ∧
      Meets (Store.step grace) (Reuses grace) Store.new acts := by
  have hpres (s : Store) (a : Act) (t : Store) (h : StoreOk s ∧ Timed grace s)
      (hgood : keepsGrace grace s a) (hstep : s.step grace a = some t) :
      StoreOk t ∧ Timed grace t := ⟨h.1.step hstep, h.2.step h.1 hgood hstep⟩
  have hinit : StoreOk Store.new ∧ Timed grace Store.new := ⟨.new, .new grace⟩
  exact ⟨always_of_meets (fun s h => h.2.honoured) hpres hinit hgood,
    meets_of_meets (fun s a _ h hgood _ => reuses_of_keepsGrace h.1 hgood) hpres hinit hgood⟩

section Runs

def secondAgent : Agent := ⟨claude, 1⟩

/-- Two leases in turn on one healthy agent, which is reaped when its time has come. -/
def patientRun : List Act :=
  firstLease claude ++ [.acquire claude, .lock claude, .reuse, .release ⟨claude, firstAgent⟩,
    .release ⟨claude, firstAgent⟩, .tick 30, .reapStart [claude], .reapNext 0]

theorem patient_run_honours_grace :
    ∃ s, run (Store.step 30) Store.new patientRun = some s ∧ GraceHonoured 30 s ∧
      s.terminated.map (fun k => (k.agent, k.cause, k.healthy)) = [(firstAgent, .reap, true)] := by
  refine ⟨_, rfl, ?_, by decide⟩
  exact (grace_honoured 30 patientRun (by decide)).1.last rfl

/-- An `acquire` right after the last release kills the healthy agent. And a `reap_idle` that
collected its candidates before an agent was spawned takes that agent the moment it is
released. -/
theorem healthy_agents_are_killed :
    (∃ s, run (Store.step 30) Store.new
        (firstLease claude ++ [.release ⟨claude, firstAgent⟩, .acquire claude, .lock claude,
          .reuse, .beginSpawn]) = some s ∧
      s.terminated = [⟨firstAgent, .respawn, true, 0, 0, 0⟩] ∧ ¬ GraceHonoured 30 s) ∧
    ∃ s, run (Store.step 30) Store.new
        (firstLease claude ++ [.release ⟨claude, firstAgent⟩, .tick 30, .reapStart [claude],
          .acquire claude, .lock claude, .reuse, .beginSpawn, .install,
          .release ⟨claude, secondAgent⟩, .reapNext 0]) = some s ∧
      ⟨secondAgent, .reap, true, 0, 30, 30⟩ ∈ s.terminated ∧ ¬ GraceHonoured 30 s := by
  refine ⟨⟨_, rfl, by decide, ?_⟩, _, rfl, by decide, ?_⟩
  · intro h
    have hkilled := h ⟨firstAgent, .respawn, true, 0, 0, 0⟩ (by decide) rfl
    revert hkilled
    decide
  · intro h
    have hkilled := h ⟨secondAgent, .reap, true, 0, 30, 30⟩ (by decide) rfl
    revert hkilled
    decide

end Runs

end Tethys.AgentServers
