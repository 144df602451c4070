import Tethys.Core.Reader

/-!
# One session per thread

A thread should open one session, and send its prompts on the session that its reader reads.
`ensure_connection` looks for a session and a connection first and puts them in place after
several awaits, without a guard against another call that does the same: two first prompts
open two sessions, and the reader stays with the first. `one_session` gives the steps that
have to be avoided.
-/

namespace Tethys.Core

open Schema Lib Thread

/-- The call has found no session and may open one. -/
def Pc.holds : Pc → Bool
  | .check none | .acquiring none | .acquired none _ => true
  | _ => false

/-- The places of a call while the thread has no session. -/
def Pc.early : Pc → Bool
  | .resuming | .start => true
  | pc => pc.holds

def Pc.installs : Pc → Bool
  | .install _ _ => true
  | _ => false

def Pc.starts : Pc → Bool
  | .startReader _ _ | .spawn _ _ => true
  | _ => false

namespace Handle

/-! ## What should hold -/

/-- `new_session` answered. -/
def opensSession : HandleAct → Bool
  | .sessionReady ⟨_, .acquired none _⟩ _ => true
  | _ => false

/-- A prompt is sent on the connection and the session of a running reader. -/
def PromptRead (s : Handle) : HandleAct → Prop
  | .ensured ⟨.prompt, .ensured⟩ =>
    ∀ connection session, s.lease = some connection → s.session = some session →
      s.Reads connection session
  | _ => True

/-- The steps of a single flight: the session is read while no other call is about to open or
to install one, unless there is a session already; `start_reader` finds the slot empty or a
reader of its own connection and session running; and a prompt is sent while no call is about
to start a reader. -/
def singleFlight (s : Handle) : HandleAct → Bool
  | .readSession _ =>
    s.session.isSome ∨ s.calls.all fun call => ¬ call.pc.holds ∧ ¬ call.pc.installs
  | .checkSlot call =>
    match call.pc with
    | .startReader connection session =>
      s.reader.isNone ∨
        s.tasks.any fun task => task.connection = connection ∧ task.session = session
    | _ => true
  | .ensured _ => s.calls.all fun call => ¬ call.pc.starts
  | _ => true

/-! ## Sessions -/

variable {s t : Handle} {call : Call} {a : HandleAct} {n : Nat} {pc : Pc}

/-- After `n` sessions were opened: no other call can open one, and before the first there is
no session, after it there is one or soon will be. -/
structure Flight (n : Nat) (s : Handle) : Prop where
  bound : n + s.calls.countP (·.pc.holds) ≤ 1
  fresh : n = 0 → s.session = none ∧ ∀ c ∈ s.calls, c.pc.early
  kept : n = 1 → s.session.isSome ∨ ∃ c ∈ s.calls, c.pc.installs

namespace Flight

theorem new (id : String) : Flight 0 (Handle.new id) :=
  ⟨Nat.zero_le _, fun _ => ⟨rfl, by simp [Handle.new]⟩, nofun⟩

theorem early (h : Flight n s) (hn : n = 0) (hmem : call ∈ s.calls) : call.pc.early :=
  (h.fresh hn).2 call hmem

/-- The calls besides one. -/
theorem countP_erase (hmem : call ∈ s.calls) :
    (s.calls.erase call).countP (·.pc.holds) + (if call.pc.holds then 1 else 0) =
      s.calls.countP (·.pc.holds) := by
  have hperm := (List.perm_cons_erase hmem).countP_eq (·.pc.holds)
  rw [hperm, List.countP_cons]

/-- A new call. -/
theorem arrive (h : Flight n s) (hpc : pc = .start ∨ pc = .resuming) (kind : Kind) :
    Flight n { s with calls := ⟨kind, pc⟩ :: s.calls } := by
  have hholds : pc.holds = false := by rcases hpc with rfl | rfl <;> rfl
  refine ⟨by simpa [List.countP_cons, hholds] using h.bound, fun hn => ⟨(h.fresh hn).1, ?_⟩,
    fun hn => (h.kept hn).imp_right ?_⟩
  · refine List.forall_mem_cons.mpr ⟨?_, (h.fresh hn).2⟩
    rcases hpc with rfl | rfl <;> rfl
  · rintro ⟨c, hc, hinstalls⟩
    exact ⟨c, List.mem_cons_of_mem _ hc, hinstalls⟩

/-- A call goes on, and does not come closer to opening a session. -/
theorem move (h : Flight n s) (hmem : call ∈ s.calls) (hcalls : t.calls =
      { call with pc := pc } :: s.calls.erase call) (hsession : t.session = s.session)
    (hholds : pc.holds → call.pc.holds) (hearly : n = 0 → pc.early)
    (hinstalls : call.pc.installs = false) : Flight n t := by
  have hcount := countP_erase hmem
  have hbound := h.bound
  refine ⟨?_, fun hn => ⟨hsession ▸ (h.fresh hn).1, ?_⟩, fun hn => ?_⟩
  · rw [hcalls, List.countP_cons]
    split_ifs at hcount ⊢ <;> grind
  · rw [hcalls]
    exact List.forall_mem_cons.mpr ⟨hearly hn, fun c hc =>
      (h.fresh hn).2 c (List.mem_of_mem_erase hc)⟩
  · rw [hsession, hcalls]
    refine (h.kept hn).imp_right ?_
    rintro ⟨c, hc, hc'⟩
    refine ⟨c, List.mem_cons_of_mem _ ((List.mem_erase_of_ne ?_).mpr hc), hc'⟩
    rintro rfl
    simp [hinstalls] at hc'

/-- A call returns. -/
theorem leave (h : Flight n s) (hmem : call ∈ s.calls) (hcalls : t.calls = s.calls.erase call)
    (hsession : t.session = s.session) (hinstalls : call.pc.installs = false) : Flight n t := by
  have hcount := countP_erase hmem
  have hbound := h.bound
  refine ⟨by rw [hcalls]; omega, fun hn => ⟨hsession ▸ (h.fresh hn).1, ?_⟩, fun hn => ?_⟩
  · rw [hcalls]
    exact fun c hc => (h.fresh hn).2 c (List.mem_of_mem_erase hc)
  · rw [hsession, hcalls]
    refine (h.kept hn).imp_right ?_
    rintro ⟨c, hc, hc'⟩
    refine ⟨c, (List.mem_erase_of_ne ?_).mpr hc, hc'⟩
    rintro rfl
    simp [hinstalls] at hc'

theorem frame (h : Flight n s) (hcalls : t.calls = s.calls) (hsession : t.session = s.session) :
    Flight n t :=
  ⟨hcalls ▸ h.bound, hcalls ▸ hsession ▸ h.fresh, hcalls ▸ hsession ▸ h.kept⟩

/-- The session is read: without one, the call is the only one that may open it. -/
theorem readSession (h : Flight n s) (hmem : call ∈ s.calls) (hpc : call.pc = .start)
    (hgood : s.session.isSome ∨ ∀ c ∈ s.calls, c.pc.holds = false ∧ c.pc.installs = false) :
    Flight n (s.advance call (.check s.session)) := by
  cases hsession : s.session with
  | some session =>
    refine h.move hmem rfl rfl nofun (fun hn => ?_) (by rw [hpc]; rfl)
    have := (h.fresh hn).1
    rw [hsession] at this
    cases this
  | none =>
    have hall := hgood.resolve_left (by simp [hsession])
    have hn : n = 0 := by
      by_contra hn
      have hone : n = 1 := by have := h.bound; omega
      rcases h.kept hone with hsome | ⟨c, hc, hinstalls⟩
      · simp [hsession] at hsome
      · simp [(hall c hc).2] at hinstalls
    subst hn
    have hzero : (s.calls.erase call).countP (·.pc.holds) = 0 := by
      refine List.countP_eq_zero.mpr fun c hc => ?_
      simp [(hall c (List.mem_of_mem_erase hc)).1]
    refine ⟨?_, fun _ => ⟨hsession, ?_⟩, nofun⟩
    · simp [Handle.advance, List.countP_cons, hzero]
      split_ifs <;> omega
    · exact List.forall_mem_cons.mpr ⟨rfl, fun c hc => h.early rfl (List.mem_of_mem_erase hc)⟩

/-- The call that may open the session opens it, and is the only one. -/
theorem opened (h : Flight n s) {connection : Connection} (hmem : call ∈ s.calls)
    (hpc : call.pc = .acquired none connection) (session : String) :
    Flight (n + 1) (s.advance call (.install connection session)) := by
  have hcount := countP_erase hmem
  have hbound := h.bound
  have hholds : call.pc.holds = true := by rw [hpc]; rfl
  rw [if_pos hholds] at hcount
  refine ⟨?_, nofun, fun _ => .inr ⟨_, List.mem_cons_self, rfl⟩⟩
  rw [Handle.advance, List.countP_cons_of_neg (by simp [Pc.holds])]
  omega

/-- A call that is past the opening of a session goes on. -/
theorem moveLate (h : Flight n s) (hmem : call ∈ s.calls)
    (hcalls : t.calls = { call with pc := pc } :: s.calls.erase call)
    (hsession : t.session = s.session) (hlate : call.pc.early = false) (hholds : pc.holds = false)
    (hinstalls : call.pc.installs = false) : Flight n t := by
  refine h.move hmem hcalls hsession (by simp [hholds]) (fun hn => ?_) hinstalls
  have := h.early hn hmem
  simp [hlate] at this

/-- Session and lease are put in place. -/
theorem installed (h : Flight n s) {connection : Connection} {session : String}
    (hmem : call ∈ s.calls) (hpc : call.pc = .install connection session) :
    Flight n { s.advance call (.startReader connection session) with
      session := some session, lease := some connection } := by
  have hn : n ≠ 0 := by
    intro hn
    have := h.early hn hmem
    simp [hpc, Pc.early, Pc.holds] at this
  have hcount := countP_erase hmem
  have hbound := h.bound
  refine ⟨?_, fun hn' => absurd hn' hn, fun _ => .inl rfl⟩
  simp only [Handle.advance]
  rw [List.countP_cons_of_neg (by simp [Pc.holds])]
  omega

theorem step (h : Flight n s) (hgood : singleFlight s a) (hstep : s.step a = some t) :
    Flight (n + if opensSession a then 1 else 0) t := by
  cases stepped_of_step hstep with
  | prompt => exact h.arrive (.inl rfl) .prompt
  | resumed => exact h.arrive (.inr rfl) .resume
  | resume kind hmem => exact h.move hmem rfl rfl nofun (fun _ => rfl) rfl
  | readSession kind hmem =>
    exact h.readSession hmem rfl (by simpa [singleFlight] using hgood)
  | checkLive kind existing hmem =>
    refine h.move hmem rfl rfl ?_ (fun hn => ?_) rfl
    · split_ifs
      · exact nofun
      · cases existing <;> simp [Pc.holds]
    · have hlive : s.live = false := by simp [live, (h.fresh hn).1]
      have hearly := h.early hn hmem
      simp only [hlive, Bool.false_eq_true, if_false]
      cases existing with
      | none => rfl
      | some session => exact nomatch hearly
  | acquired kind existing connection hmem =>
    refine h.move hmem rfl rfl ?_ (fun hn => ?_) rfl
    · cases existing <;> simp [Pc.holds]
    · have hearly := h.early hn hmem
      cases existing with
      | none => rfl
      | some session => exact nomatch hearly
  | sessionReady kind existing connection fresh hmem =>
    cases existing with
    | none => exact h.opened hmem rfl _
    | some session =>
      refine h.move hmem rfl rfl nofun (fun hn => ?_) rfl
      exact nomatch h.early hn hmem
  | install kind connection session hmem => exact h.installed hmem rfl
  | checkSlot kind connection session hmem =>
    refine h.moveLate hmem rfl rfl rfl ?_ rfl
    split_ifs <;> rfl
  | spawn _ _ _ hmem | store _ _ hmem | promptFailed _ hmem =>
    exact h.moveLate hmem rfl rfl rfl rfl rfl
  | fail call hmem hpc =>
    refine h.leave hmem rfl rfl ?_
    obtain hpc | ⟨existing, hpc⟩ | ⟨existing, acquired, hpc⟩ | hpc := hpc <;> rw [hpc] <;> rfl
  | ensured kind hmem =>
    by_cases hsend : kind = .prompt ∧ s.live
    · rw [if_pos hsend]
      exact h.moveLate hmem rfl rfl rfl rfl rfl
    · rw [if_neg hsend]
      exact h.leave hmem rfl rfl rfl
  | promptAnswered _ hmem | transportLost _ hmem => exact h.leave hmem rfl rfl rfl
  | event | taskEnd | streamEnd | close => exact h.frame rfl rfl

end Flight

/-- The rest of a run opens as many sessions as are left. -/
theorem countP_opensSession {acts : List HandleAct} (h : Flight n s)
    (hgood : Meets step (fun s a => singleFlight s a) s acts) (hrun : run step s acts = some t) :
    n + acts.countP opensSession ≤ 1 := by
  induction acts generalizing s n with
  | nil =>
    have := h.bound
    simp
    omega
  | cons a acts ih =>
    obtain ⟨u, hu, hrun⟩ := run_cons_eq_some.mp hrun
    have hrest := ih (h.step (hgood u hu).1 hu) (hgood u hu).2 hrun
    rw [List.countP_cons]
    omega

/-! ## Prompts -/

theorem ownSlot_of_singleFlight (hgood : singleFlight s a) : s.OwnSlot a := by
  cases a with
  | checkSlot call =>
    intro connection session hpc hsome
    simp only [singleFlight, hpc, decide_eq_true_eq] at hgood
    exact reads_of_slot hgood hsome
  | _ => trivial

/-- Nobody is about to start the reader, so it is running. -/
theorem promptRead (h : ReadsOk s) (hgood : singleFlight s a) : s.PromptRead a := by
  unfold PromptRead
  split
  · intro connection session hlease hsession
    refine (h connection session hlease hsession).resolve_right ?_
    rintro ⟨c, hc, hstarts⟩
    simp only [singleFlight, List.all_eq_true] at hgood
    have hnot := hgood c hc
    rcases hstarts with hpc | hpc <;> simp [hpc, Pc.starts] at hnot
  · trivial

/-- In every run of a thread in single flight, at most one session is opened, and every prompt
is sent on the connection and the session that a reader reads. -/
theorem one_session (id : String) (acts : List HandleAct)
    (hgood : Meets step (fun s a => singleFlight s a) (Handle.new id) acts) :
    (∀ t, run step (Handle.new id) acts = some t → acts.countP opensSession ≤ 1) ∧
      Meets step PromptRead (Handle.new id) acts := by
  refine ⟨fun t hrun => ?_, ?_⟩
  · have := countP_opensSession (Flight.new id) hgood hrun
    omega
  · exact meets_of_meets (fun _ _ _ h hgood _ => promptRead h hgood)
      (fun _ _ _ h hgood hstep => h.step (ownSlot_of_singleFlight hgood) hstep)
      (ReadsOk.of_no_lease rfl) hgood

/-- A thread that is prompted, loses its connection and is resumed on another one. -/
def reconnects : List HandleAct :=
  firstPrompt ++ [.close 0, .taskEnd ⟨0, 0, "s"⟩, .call .resume, .resume ⟨.resume, .resuming⟩] ++
    ensureOn .resume (some "s") 1 "s"
      [.spawn ⟨.resume, .spawn 1 "s"⟩, .store ⟨.resume, .store 1⟩, .ensured ⟨.resume, .ensured⟩]

theorem reconnects_opens_one_session :
    (∃ t, run step (Handle.new "t") reconnects = some t ∧ t.session = some "s" ∧
      reconnects.countP opensSession ≤ 1) ∧ Meets step PromptRead (Handle.new "t") reconnects := by
  have hone := one_session "t" reconnects (by decide)
  exact ⟨⟨_, rfl, rfl, hone.1 _ rfl⟩, hone.2⟩

/-- Two first prompts at once: each opens a session, the first starts the reader, and the
second finds the slot taken. -/
def twoPrompts : List HandleAct :=
  [.call .prompt, .call .prompt, .readSession ⟨.prompt, .start⟩, .readSession ⟨.prompt, .start⟩,
    .checkLive ⟨.prompt, .check none⟩, .checkLive ⟨.prompt, .check none⟩,
    .acquired ⟨.prompt, .acquiring none⟩ 0, .acquired ⟨.prompt, .acquiring none⟩ 0,
    .sessionReady ⟨.prompt, .acquired none 0⟩ "s1", .sessionReady ⟨.prompt, .acquired none 0⟩ "s2",
    .install ⟨.prompt, .install 0 "s1"⟩, .checkSlot ⟨.prompt, .startReader 0 "s1"⟩,
    .spawn ⟨.prompt, .spawn 0 "s1"⟩, .store ⟨.prompt, .store 0⟩,
    .install ⟨.prompt, .install 0 "s2"⟩, .checkSlot ⟨.prompt, .startReader 0 "s2"⟩]

/-- Two sessions are opened, and the prompts are sent on the one that nobody reads. -/
theorem two_prompts_open_two_sessions :
    (∃ t, run step (Handle.new "t") twoPrompts = some t ∧ t.session = some "s2" ∧
      t.tasks = [⟨0, 0, "s1"⟩]) ∧ twoPrompts.countP opensSession = 2 ∧
      ¬ Meets step PromptRead (Handle.new "t") (twoPrompts ++ [.ensured ⟨.prompt, .ensured⟩]) := by
  refine ⟨⟨_, rfl, rfl, rfl⟩, by decide, fun hmeets => ?_⟩
  obtain ⟨task, hmem, -, hsession⟩ := hmeets.last rfl rfl 0 "s2" rfl rfl
  obtain rfl := List.mem_singleton.mp hmem
  exact absurd hsession (by decide)

end Handle

end Tethys.Core
