import Tethys.Core.ThreadHandle

/-!
# Reader and lease

A thread with a lease and a session should have a reader on just these, and a reader whose
connection closes should clear only a lease on that connection. `start_reader` returns early
for any handle in the slot and a task that ends clears whatever lease it finds, so both fail
when calls overlap with a task of another connection. `reader_consistent` gives the steps
that have to be avoided.
-/

namespace Tethys.Core

open Schema Lib Thread

namespace Handle

/-! ## What should hold -/

/-- A reader of the given connection and session is running. -/
def Reads (s : Handle) (connection : Connection) (session : String) : Prop :=
  ∃ task ∈ s.tasks, task.connection = connection ∧ task.session = session

/-- Between calls, a thread with a lease and a session has a reader on them. -/
def ReaderRuns (s : Handle) : Prop :=
  s.calls = [] → ∀ connection session, s.lease = some connection → s.session = some session →
    s.Reads connection session

/-- A reader that ends changes lease or thread only if the lease is on its connection. -/
def EndsOwn (s : Handle) (a : HandleAct) : Prop :=
  ∀ task t, a = .taskEnd task ∨ a = .streamEnd task → s.step a = some t →
    t.lease ≠ s.lease ∨ t.machine ≠ s.machine → s.lease = some task.connection

/-- The event puts the thread into the middle of a turn. -/
def beginsTurn (body : TurnEventBody) (origin : EventOrigin) : Bool :=
  decide (origin = .live) && match body with
    | .stateChanged ⟨.running⟩ | .stateChanged ⟨.requiresAction⟩ | .permissionRequested _ => true
    | _ => false

/-- The steps that keep reader and lease together: `resume` begins without a reader or
outside of a turn; a lease is put in place while no reader is on another connection;
`start_reader` finds the slot empty or a reader of its own connection and session running;
a reader is spawned while the lease is still on its connection, or without a lease outside
of a turn; and only a reader of the lease's connection receives an event that begins a
turn. -/
def orderly (s : Handle) : HandleAct → Bool
  | .resume _ => s.tasks.isEmpty ∨ ¬ active s.machine
  | .install call =>
    match call.pc with
    | .install connection _ => s.tasks.all (·.connection = connection)
    | _ => true
  | .checkSlot call =>
    match call.pc with
    | .startReader connection session =>
      s.reader.isNone ∨
        s.tasks.any fun task => task.connection = connection ∧ task.session = session
    | _ => true
  | .spawn call =>
    match call.pc with
    | .spawn connection _ => s.lease = some connection ∨ s.lease = none ∧ ¬ active s.machine
    | _ => true
  | .event task _ body origin =>
    s.lease = some task.connection ∨ ¬ beginsTurn body origin
  | _ => true

/-! ## The invariant -/

variable {s t : Handle} {call : Call} {a : HandleAct}

/-- A call is about to start a reader of the given connection and session. -/
def Pc.Starts (pc : Pc) (connection : Connection) (session : String) : Prop :=
  pc = .startReader connection session ∨ pc = .spawn connection session

/-- Lease and session have a reader or soon will. -/
def ReadsOk (s : Handle) : Prop :=
  ∀ connection session, s.lease = some connection → s.session = some session →
    s.Reads connection session ∨ ∃ call ∈ s.calls, Pc.Starts call.pc connection session

/-- `start_reader` finds the slot empty or a reader of its own connection and session. -/
def OwnSlot (s : Handle) : HandleAct → Prop
  | .checkSlot call =>
    ∀ connection session, call.pc = .startReader connection session → s.reader.isSome →
      s.Reads connection session
  | _ => True

/-- A slot that is empty or taken by a reader on both. -/
theorem reads_of_slot {connection : Connection} {session : String}
    (hslot : s.reader.isNone = true ∨ (s.tasks.any fun task =>
      task.connection = connection ∧ task.session = session) = true)
    (hsome : s.reader.isSome) : s.Reads connection session := by
  rcases hslot with hnone | hany
  · simp [Option.isNone_iff_eq_none.mp hnone] at hsome
  · obtain ⟨task, htask, hon⟩ := List.any_eq_true.mp hany
    exact ⟨task, htask, by simpa using hon⟩

namespace ReadsOk

/-- Without a lease there is nothing to read. -/
theorem of_no_lease (hlease : t.lease = none) : ReadsOk t :=
  fun _ _ h => nomatch hlease.symm.trans h

/-- A call that is not about to start a reader goes on or returns. -/
theorem of_calls (h : ReadsOk s) (ht : t.tasks = s.tasks) (hl : t.lease = s.lease)
    (hs : t.session = s.session)
    (hcalls : ∀ c ∈ s.calls,
      (∃ connection session, Pc.Starts c.pc connection session) → c ∈ t.calls) :
    ReadsOk t := by
  intro connection session hlease hsession
  rcases h connection session (hl ▸ hlease) (hs ▸ hsession) with hreads | ⟨c, hc, hstarts⟩
  · exact .inl (by rwa [Reads, ht])
  · exact .inr ⟨c, hcalls c hc ⟨_, _, hstarts⟩, hstarts⟩

theorem mem_erase {c : Call} (hc : c ∈ s.calls)
    (hstarts : ∃ connection session, Pc.Starts c.pc connection session)
    (hcall : ∀ connection session, ¬ Pc.Starts call.pc connection session) :
    c ∈ s.calls.erase call := by
  obtain ⟨connection, session, hstarts⟩ := hstarts
  refine (List.mem_erase_of_ne ?_).mpr hc
  rintro rfl
  exact hcall connection session hstarts

theorem advance (h : ReadsOk s) (pc : Pc)
    (hcall : ∀ connection session, ¬ Pc.Starts call.pc connection session) :
    ReadsOk (s.advance call pc) :=
  h.of_calls rfl rfl rfl fun _ hc hstarts => List.mem_cons_of_mem _ (mem_erase hc hstarts hcall)

theorem finish (h : ReadsOk s)
    (hcall : ∀ connection session, ¬ Pc.Starts call.pc connection session) :
    ReadsOk (s.finish call) :=
  h.of_calls rfl rfl rfl fun _ hc hstarts => mem_erase hc hstarts hcall

/-- The call finds a reader of its own, or is the one to spawn it. -/
theorem checkSlot (h : ReadsOk s) {connection : Connection} {session : String}
    (hpc : call.pc = .startReader connection session)
    (hslot : s.reader.isSome → s.Reads connection session) :
    ReadsOk
      (s.advance call (if s.reader.isSome then .ensured else .spawn connection session)) := by
  intro connection' session' hlease hsession
  rcases h connection' session' hlease hsession with hreads | ⟨c, hc, hstarts⟩
  · exact .inl hreads
  · by_cases hsame : c = call
    · subst hsame
      obtain ⟨rfl, rfl⟩ : connection = connection' ∧ session = session' := by
        simpa [Pc.Starts, hpc] using hstarts
      split_ifs with hsome
      · exact .inl (hslot hsome)
      · exact .inr ⟨_, List.mem_cons_self, .inr rfl⟩
    · exact .inr ⟨c, List.mem_cons_of_mem _ ((List.mem_erase_of_ne hsame).mpr hc), hstarts⟩

/-- The new reader takes over from the call that spawned it. -/
theorem spawn (h : ReadsOk s) {connection : Connection} {session : String}
    (hpc : call.pc = .spawn connection session) :
    ReadsOk { s.advance call (.store s.spawned) with
      tasks := ⟨s.spawned, connection, session⟩ :: s.tasks, spawned := s.spawned + 1 } := by
  intro connection' session' hl hs
  rcases h connection' session' hl hs with ⟨task, hmem, hon⟩ | ⟨c, hc, hstarts⟩
  · exact .inl ⟨task, List.mem_cons_of_mem _ hmem, hon⟩
  · by_cases hsame : c = call
    · subst hsame
      obtain ⟨rfl, rfl⟩ : connection = connection' ∧ session = session' := by
        simpa [Pc.Starts, hpc] using hstarts
      exact .inl ⟨_, List.mem_cons_self, rfl, rfl⟩
    · exact .inr ⟨c, List.mem_cons_of_mem _ ((List.mem_erase_of_ne hsame).mpr hc), hstarts⟩

theorem step (h : ReadsOk s) (hslot : s.OwnSlot a) (hstep : s.step a = some t) : ReadsOk t := by
  cases stepped_of_step hstep with
  | prompt | resumed => exact h.of_calls rfl rfl rfl fun _ hc _ => List.mem_cons_of_mem _ hc
  | resume | transportLost | taskEnd | streamEnd => exact of_no_lease rfl
  | readSession | checkLive | acquired | sessionReady | promptFailed =>
    exact h.advance _ (by simp [Pc.Starts])
  | fail call hmem hpc =>
    refine h.finish fun connection session hstarts => ?_
    obtain hpc | ⟨existing, hpc⟩ | ⟨existing, acquired, hpc⟩ | hpc := hpc <;>
      simp [Pc.Starts, hpc] at hstarts
  | install kind connection session hmem =>
    rintro _ _ ⟨⟩ ⟨⟩
    exact .inr ⟨_, List.mem_cons_self, .inl rfl⟩
  | checkSlot kind connection session hmem =>
    exact h.checkSlot rfl (hslot connection session rfl)
  | spawn kind connection session hmem => exact h.spawn rfl
  | store kind task hmem =>
    exact h.of_calls rfl rfl rfl fun _ hc hstarts =>
      List.mem_cons_of_mem _ (mem_erase hc hstarts (by simp [Pc.Starts]))
  | ensured kind hmem =>
    split_ifs
    · exact h.advance _ (by simp [Pc.Starts])
    · exact h.finish (by simp [Pc.Starts])
  | promptAnswered => exact h.finish (by simp [Pc.Starts])
  | event | close => exact h

end ReadsOk

/-- Lease and session have a reader or soon will, and every reader is on the lease's
connection or finds a thread without lease outside of a turn. -/
structure HandleOk (s : Handle) : Prop where
  reads : ∀ connection session, s.lease = some connection → s.session = some session →
    s.Reads connection session ∨ ∃ call ∈ s.calls, Pc.Starts call.pc connection session
  own : ∀ task ∈ s.tasks, s.lease = some task.connection ∨ s.lease = none ∧ ¬ active s.machine

namespace HandleOk

theorem new (id : String) : HandleOk (Handle.new id) := ⟨nofun, nofun⟩

theorem not_active_markInterrupted (machine : ThreadMachine) :
    ¬ active machine.markInterrupted := by
  simp [active, ThreadMachine.markInterrupted]

theorem not_active_markResumed {machine : ThreadMachine} (h : ¬ active machine) :
    ¬ active machine.markResumed := by
  unfold ThreadMachine.markResumed
  split_ifs
  · simp [active]
  · exact h

theorem not_active_apply {machine : ThreadMachine} {seq : Nat} {body : TurnEventBody}
    {origin : EventOrigin} (h : ¬ active machine) (hbody : ¬ beginsTurn body origin) :
    ¬ active (machine.apply seq body origin) := by
  cases origin with
  | replay => exact h
  | live =>
    cases body with
    | stateChanged changed =>
      obtain ⟨state⟩ := changed
      cases state <;> simp_all [active, beginsTurn, ThreadMachine.apply]
    | _ => simp_all [active, beginsTurn, ThreadMachine.apply]

theorem not_active_endTask (s : Handle) (task : Task) : ¬ active (s.endTask task).machine := by
  by_cases hactive : active s.machine
  · simpa only [Handle.endTask, if_pos hactive] using not_active_markInterrupted s.machine
  · simpa only [Handle.endTask, if_neg hactive] using hactive

/-- An orderly step of `start_reader` finds its own reader in a slot that is taken. -/
theorem ownSlot (hgood : orderly s a) : s.OwnSlot a := by
  cases a with
  | checkSlot call =>
    intro connection session hpc hsome
    simp only [orderly, hpc, decide_eq_true_eq] at hgood
    exact reads_of_slot hgood hsome
  | _ => trivial

/-- Every reader stays on the lease's connection, or the thread is outside of a turn. -/
theorem own_step (h : HandleOk s) (hgood : orderly s a) (hstep : s.step a = some t) :
    ∀ task ∈ t.tasks, t.lease = some task.connection ∨ t.lease = none ∧ ¬ active t.machine := by
  cases stepped_of_step hstep with
  | resume kind hmem =>
    simp only [orderly, decide_eq_true_eq, List.isEmpty_iff] at hgood
    intro task htask
    rcases hgood with hnone | hidle
    · exact absurd htask (by simp [Handle.advance, hnone])
    · exact .inr ⟨rfl, not_active_markResumed hidle⟩
  | install kind connection session hmem =>
    simp only [orderly, List.all_eq_true, decide_eq_true_eq] at hgood
    exact fun task htask => .inl (congrArg some (hgood task htask).symm)
  | spawn kind connection session hmem =>
    simp only [orderly, decide_eq_true_eq] at hgood
    intro task htask
    rcases List.mem_cons.mp htask with rfl | hold
    · exact hgood
    · exact h.own task hold
  | transportLost => exact fun task _ => .inr ⟨rfl, not_active_markInterrupted s.machine⟩
  | ensured =>
    split_ifs
    · exact h.own
    · exact h.own
  | event task seq body origin hmem =>
    simp only [orderly, decide_eq_true_eq] at hgood
    intro task' hmem'
    rcases h.own task' hmem' with hlease | ⟨hlease, hidle⟩
    · exact .inl hlease
    · exact .inr ⟨hlease, not_active_apply hidle (hgood.resolve_left (by simp [hlease]))⟩
  | taskEnd task | streamEnd task => exact fun _ _ => .inr ⟨rfl, not_active_endTask s task⟩
  -- the other steps leave readers, lease and machine
  | prompt | resumed | readSession | checkLive | acquired | sessionReady | fail | checkSlot
  | store | promptAnswered | promptFailed | close => exact h.own

theorem step (h : HandleOk s) (hgood : orderly s a) (hstep : s.step a = some t) : HandleOk t :=
  ⟨ReadsOk.step h.reads (ownSlot hgood) hstep, h.own_step hgood hstep⟩

theorem readerRuns (h : HandleOk s) : ReaderRuns s := by
  intro hcalls connection session hlease hsession
  refine (h.reads connection session hlease hsession).resolve_right ?_
  simp [hcalls]

/-- A reader that is not on the lease's connection changes nothing when it ends. -/
theorem endsOwn (h : HandleOk s) : EndsOwn s a := by
  intro task t ha hstep hchanged
  have ht : task ∈ s.tasks ∧ t = s.endTask task := by
    rcases ha with rfl | rfl
    · cases stepped_of_step hstep with
      | taskEnd task hmem => exact ⟨hmem, rfl⟩
    · cases stepped_of_step hstep with
      | streamEnd task hmem => exact ⟨hmem, rfl⟩
  obtain ⟨hmem, rfl⟩ := ht
  refine (h.own task hmem).resolve_right fun ⟨hlease, hidle⟩ => ?_
  simp [Handle.endTask, hlease, hidle] at hchanged

end HandleOk

/-- Reader and lease stay together, in every run whose steps are orderly. -/
theorem reader_consistent (id : String) (acts : List HandleAct)
    (hgood : Meets step (fun s a => orderly s a) (Handle.new id) acts) :
    Always step ReaderRuns (Handle.new id) acts ∧ Meets step EndsOwn (Handle.new id) acts :=
  ⟨always_of_meets (fun _ => HandleOk.readerRuns) (fun _ _ _ => HandleOk.step)
      (HandleOk.new id) hgood,
    meets_of_meets (fun _ _ _ h _ _ => h.endsOwn) (fun _ _ _ => HandleOk.step)
      (HandleOk.new id) hgood⟩

/-- A call that finds no connection: it acquires one, sets up the session and starts a
reader. -/
def ensureOn (kind : Kind) (existing : Option String) (connection : Connection) (session : String)
    (rest : List HandleAct) : List HandleAct :=
  [.readSession ⟨kind, .start⟩, .checkLive ⟨kind, .check existing⟩,
    .acquired ⟨kind, .acquiring existing⟩ connection,
    .sessionReady ⟨kind, .acquired existing connection⟩ session,
    .install ⟨kind, .install connection session⟩,
    .checkSlot ⟨kind, .startReader connection session⟩] ++ rest

/-- The first prompt of a thread, up to the agent's answer. -/
def firstPrompt : List HandleAct :=
  .call .prompt :: ensureOn .prompt none 0 "s"
    [.spawn ⟨.prompt, .spawn 0 "s"⟩, .store ⟨.prompt, .store 0⟩, .ensured ⟨.prompt, .ensured⟩,
      .event ⟨0, 0, "s"⟩ 0 (.stateChanged ⟨.running⟩) .live,
      .event ⟨0, 0, "s"⟩ 1 (.stateChanged ⟨.idle (some .endTurn)⟩) .live,
      .promptAnswered ⟨.prompt, .prompting⟩]

theorem orderly_thread_reconnects :
    let acts := firstPrompt ++ [.close 0, .taskEnd ⟨0, 0, "s"⟩, .call .resume,
      .resume ⟨.resume, .resuming⟩] ++ ensureOn .resume (some "s") 1 "s"
        [.spawn ⟨.resume, .spawn 1 "s"⟩, .store ⟨.resume, .store 1⟩, .ensured ⟨.resume, .ensured⟩]
    (∃ t, run step (Handle.new "t") acts = some t ∧ t.calls = [] ∧ t.Reads 1 "s") ∧
      Always step ReaderRuns (Handle.new "t") acts ∧ Meets step EndsOwn (Handle.new "t") acts :=
  ⟨⟨_, rfl, rfl, ⟨1, 1, "s"⟩, by decide, rfl, rfl⟩, reader_consistent "t" _ (by decide)⟩

/-- The agent's process dies and the thread is resumed before the reader notices. The slot
is taken, so the new connection has no reader; the old reader then ends and clears the new
lease. -/
def staleReader : List HandleAct :=
  firstPrompt ++ [.close 0, .call .resume, .resume ⟨.resume, .resuming⟩] ++
    ensureOn .resume (some "s") 1 "s" [.ensured ⟨.resume, .ensured⟩]

theorem stale_reader_breaks_lease :
    ¬ Always step ReaderRuns (Handle.new "t") staleReader ∧
      ¬ Meets step EndsOwn (Handle.new "t") (staleReader ++ [.taskEnd ⟨0, 0, "s"⟩]) := by
  constructor
  · intro h
    obtain ⟨task, hmem, hconnection, -⟩ := h.last rfl rfl 1 "s" rfl rfl
    obtain rfl := List.mem_singleton.mp hmem
    exact absurd hconnection (by decide)
  · intro h
    have hown := h.last rfl rfl ⟨0, 0, "s"⟩ _ (.inl rfl) rfl (.inl (by decide))
    exact absurd hown (by decide)

end Handle

end Tethys.Core
