import Tethys.AgentServers.ConnectionStore
import Tethys.Core.Threads
import Tethys.Schema.Sync

/-!
# Failed requests

`prompt`, `resume`, `ensure_connection` and `mark_transport_lost` of
`tethys-core/src/thread_session.rs` and `AcpConnection::prompt` of `tethys-acp/src/client.rs`,
as one call sees them when nothing else happens to the thread. Everything outside of the
thread answers through `World`.

`ensure_connection` changes the thread only when it succeeds. `resume` gives up the lease and
clears `Interrupted` before it calls it, and `prompt` treats every error of the connection as
a lost transport. `unchanged_iff` says for which failed calls the thread is as before;
`perform_is_run` that these calls are runs of the model in which calls overlap.
-/

namespace Tethys.Core

open Schema Lib Thread
open AgentServers (ConnectionKey)

inductive ConnectionError where
  | transport (message : String)
  | protocol (message : String)
  | unsupported (what : String)
  | sessionNotFound (id : String)
  | cancelled
  deriving DecidableEq

def ConnectionError.display : ConnectionError → String
  | .transport message => "transport: " ++ message
  | .protocol message => "protocol: " ++ message
  | .unsupported what => "unsupported: " ++ what
  | .sessionNotFound id => "session not found: " ++ id
  | .cancelled => "cancelled"

inductive RequestError where
  | notFound (message : String)
  | internal (message : String)
  | capabilitiesNotNegotiated
  deriving DecidableEq

/-- The protocol version of a connection. -/
inductive Wire where
  | v1 | v2
  deriving DecidableEq

/-- What the connection store tells about a key. -/
structure ConnectionEntry where
  protocol : Option Wire
  mcp : Option McpTransports
  deriving DecidableEq

/-- `ResumeSession` or, without a session, `NewSession`. -/
structure SessionRequest (Server : Type) where
  session : Option String
  cwd : String
  mcpServers : List Server

/-- The answers of everything outside of the thread during one call: the registered profiles,
the connection store, the registry with the secret store, and the agent. -/
structure World (Server : Type) where
  profileKey : String → Option ConnectionKey
  acquire : ConnectionKey → Except String Connection
  entry : ConnectionKey → Option ConnectionEntry
  spawnServers : String → String → McpTransports → Except String (List Server)
  session : Connection → SessionRequest Server → Except ConnectionError String
  wire : Connection → Wire
  send : Connection → String → List String → Except ConnectionError StopReason

/-! ## The adapter -/

/-- Both adapters take text only. -/
def textBlock : ContentBlock → Except ConnectionError String
  | .text text => .ok text
  | .resourceLink .. => .error (.unsupported "prompt_resource_link")
  | .image .. => .error (.unsupported "prompt_image")
  | .unknown _ => .error (.unsupported "prompt_content_block")

def toV1Block : ContentBlock → Except ConnectionError String := textBlock

def toV2Block : ContentBlock → Except ConnectionError String := textBlock

/-- `AcpConnection::prompt`: the answer, and the events it emits for the session. -/
def promptOn (wire : Wire) (send : List String → Except ConnectionError StopReason)
    (blocks : List ContentBlock) : Except ConnectionError Unit × List TurnEventBody :=
  match wire with
  | .v1 =>
    match blocks.mapM toV1Block with
    | .error e => (.error e, [])
    | .ok blocks =>
      match send blocks with
      | .error e => (.error e, [.stateChanged ⟨.running⟩])
      | .ok stopReason =>
        (.ok (), [.stateChanged ⟨.running⟩, .stateChanged ⟨.idle (some stopReason)⟩])
  | .v2 =>
    match blocks.mapM toV2Block with
    | .error e => (.error e, [])
    | .ok blocks => ((send blocks).map fun _ => (), [])

/-! ## The thread -/

namespace World

variable {Server : Type}

def transportsFor (w : World Server) (key : ConnectionKey) : Except RequestError McpTransports :=
  match w.entry key with
  | none => .error (.notFound ("connection for " ++ key.profileId))
  | some entry =>
    match entry.mcp with
    | none => .error .capabilitiesNotNegotiated
    | some mcp => .ok (if entry.protocol = some .v1 then { mcp with stdio := true } else mcp)

def mcpServers (w : World Server) (workspaceRoot : String) (key : ConnectionKey) :
    Except RequestError (List Server) :=
  match w.transportsFor key with
  | .error e => .error e
  | .ok transports => (w.spawnServers workspaceRoot key.profileId transports).mapError .internal

end World

namespace ThreadInner

variable {Server : Type}

/-- `live_connection`. -/
def live (inner : ThreadInner) : Option (Connection × String) :=
  match inner.lease, inner.session with
  | some connection, some session => some (connection, session)
  | _, _ => none

/-- The request for the session of the thread on a connection; a resumed session keeps its
id. -/
def requestSession (inner : ThreadInner) (w : World Server) (connection : Connection)
    (servers : List Server) : Except ConnectionError String :=
  (w.session connection ⟨inner.session, inner.workdir, servers⟩).map inner.session.getD

def ensureConnection (inner : ThreadInner) (w : World Server) : Except RequestError ThreadInner :=
  match w.profileKey inner.agentProfileId with
  | none => .error (.notFound ("agent profile " ++ inner.agentProfileId))
  | some key =>
    if inner.live.isSome then .ok inner
    else do
      let connection ← (w.acquire key).mapError .internal
      let servers ← w.mcpServers inner.workspaceRoot key
      let session ← (inner.requestSession w connection servers).mapError (.internal ·.display)
      .ok { inner with session := some session, lease := some connection }

def markTransportLost (inner : ThreadInner) : ThreadInner :=
  { inner with lease := none, machine := inner.machine.markInterrupted }

end ThreadInner

/-- What a call returns, how it leaves the thread, and what it emits for the reader. -/
structure Outcome where
  result : Except RequestError Unit
  inner : ThreadInner
  emitted : List TurnEventBody

inductive Request where
  | prompt (blocks : List ContentBlock)
  | resume
  deriving DecidableEq

namespace ThreadInner

variable {Server : Type}

/-- `prompt` with a connection in place. -/
def promptLive (inner : ThreadInner) (w : World Server) (blocks : List ContentBlock) : Outcome :=
  match inner.live with
  | none => ⟨.error (.internal "thread has no live connection"), inner, []⟩
  | some (connection, session) =>
    match promptOn (w.wire connection) (w.send connection session) blocks with
    | (.ok (), emitted) => ⟨.ok (), inner, emitted⟩
    | (.error e, emitted) => ⟨.error (.internal e.display), inner.markTransportLost, emitted⟩

def prompt (inner : ThreadInner) (w : World Server) (blocks : List ContentBlock) : Outcome :=
  match inner.ensureConnection w with
  | .error e => ⟨.error e, inner, []⟩
  | .ok inner' => inner'.promptLive w blocks

def resume (inner : ThreadInner) (w : World Server) : Outcome :=
  let inner := { inner with lease := none, machine := inner.machine.markResumed }
  match inner.ensureConnection w with
  | .error e => ⟨.error e, inner, []⟩
  | .ok inner' => ⟨.ok (), inner', []⟩

def perform (inner : ThreadInner) (w : World Server) : Request → Outcome
  | .prompt blocks => inner.prompt w blocks
  | .resume => inner.resume w

end ThreadInner

/-! ## When a failed call leaves the thread as it was -/

/-- The thread is as before, and there is nothing for its reader. -/
def Outcome.Unchanged (outcome : Outcome) (inner : ThreadInner) : Prop :=
  outcome.inner = inner ∧ outcome.emitted = []

namespace ThreadInner

variable {Server : Type} {inner inner' : ThreadInner} {w : World Server}
  {blocks : List ContentBlock}

/-- The connection cannot be ensured: the profile is unknown, or there is no connection yet and
the store, the servers or the agent fail. -/
def Refused (inner : ThreadInner) (w : World Server) : Prop :=
  ∀ key, w.profileKey inner.agentProfileId = some key → inner.live = none ∧
    ∀ connection servers session, w.acquire key = .ok connection →
      w.mcpServers inner.workspaceRoot key = .ok servers →
      w.session connection ⟨inner.session, inner.workdir, servers⟩ ≠ .ok session

/-- A thread that a lost transport leaves as it is. -/
structure Parked (inner : ThreadInner) : Prop where
  lease : inner.lease = none
  session : inner.session.isSome
  state : inner.machine.state = .interrupted
  turns : ∀ turn ∈ inner.machine.turns, turn.endedSeq.isSome

/-- Nothing is emitted for a prompt with content that the adapter does not take, nor by the
second protocol. -/
def Silent (inner : ThreadInner) (w : World Server) (blocks : List ContentBlock) : Prop :=
  (∃ block ∈ blocks, ∀ text, block ≠ .text text) ∨
    ∀ key connection, w.profileKey inner.agentProfileId = some key →
      w.acquire key = .ok connection → w.wire connection = .v2

/-- The failed calls that change nothing: a resume of a thread that has no lease and is not
interrupted; a prompt that does not get as far as a connection; and a prompt that the
connection refuses without an event, on a thread that is parked already. -/
def Harmless (inner : ThreadInner) (w : World Server) : Request → Prop
  | .resume => inner.lease = none ∧ inner.machine.state ≠ .interrupted
  | .prompt blocks => inner.Refused w ∨ inner.Parked ∧ inner.Silent w blocks

theorem markResumed_eq_self {m : ThreadMachine} : m.markResumed = m ↔ m.state ≠ .interrupted := by
  unfold ThreadMachine.markResumed
  split_ifs with hstate
  · refine iff_of_false (fun heq => ?_) (fun hne => hne hstate)
    rw [← heq] at hstate
    cases hstate
  · exact iff_of_true rfl hstate

theorem endTurn_eq_self (seq : Nat) (stopReason : Option StopReason) {turns : List TurnRecord} :
    ThreadMachine.endTurn seq stopReason turns = turns ↔ ∀ turn ∈ turns, turn.endedSeq.isSome := by
  induction turns with
  | nil => simp [ThreadMachine.endTurn]
  | cons turn turns ih =>
    cases hended : turn.endedSeq with
    | none =>
      refine iff_of_false (fun heq => ?_) fun hall => by simp [hended] at hall
      simp only [ThreadMachine.endTurn, hended, Option.isNone_none, if_true, List.cons.injEq,
        and_true] at heq
      have := congrArg TurnRecord.endedSeq heq
      simp [hended] at this
    | some ended => simpa [ThreadMachine.endTurn, hended] using ih

theorem markInterrupted_eq_self {m : ThreadMachine} :
    m.markInterrupted = m ↔ m.state = .interrupted ∧ ∀ turn ∈ m.turns, turn.endedSeq.isSome := by
  rw [← endTurn_eq_self m.latestSeq (some .error)]
  obtain ⟨id, state, entries, turns, latestSeq, sessionId, title⟩ := m
  simp [ThreadMachine.markInterrupted, and_comm, eq_comm]

/-- The three requests that ensure a connection, when there is none. -/
theorem ensureConnection_of_not_live {key : ConnectionKey}
    (hkey : w.profileKey inner.agentProfileId = some key) (hlive : inner.live = none) :
    (∃ e, inner.ensureConnection w = .error e ∧ inner.Refused w) ∨
      ∃ connection servers session, w.acquire key = .ok connection ∧
        w.mcpServers inner.workspaceRoot key = .ok servers ∧
        w.session connection ⟨inner.session, inner.workdir, servers⟩ = .ok session ∧
        inner.ensureConnection w = .ok { inner with
          session := some (inner.session.getD session), lease := some connection } := by
  have hrefused : (∀ connection servers session, w.acquire key = .ok connection →
      w.mcpServers inner.workspaceRoot key = .ok servers →
      w.session connection ⟨inner.session, inner.workdir, servers⟩ ≠ .ok session) →
      inner.Refused w := by
    intro hfail key' hkey'
    obtain rfl : key = key' := Option.some.inj (hkey.symm.trans hkey')
    exact ⟨hlive, hfail⟩
  cases hacquire : w.acquire key with
  | error e =>
    refine .inl ⟨.internal e, ?_, hrefused (by simp [hacquire])⟩
    simp [ensureConnection, hkey, hlive, hacquire, Except.mapError, bind, Except.bind]
  | ok connection =>
    cases hservers : w.mcpServers inner.workspaceRoot key with
    | error e =>
      refine .inl ⟨e, ?_, hrefused (by simp [hservers])⟩
      simp [ensureConnection, hkey, hlive, hacquire, hservers, Except.mapError, bind, Except.bind]
    | ok servers =>
      cases hsession : w.session connection ⟨inner.session, inner.workdir, servers⟩ with
      | error e =>
        refine .inl ⟨.internal e.display, ?_, hrefused (by grind)⟩
        simp [ensureConnection, hkey, hlive, hacquire, hservers, requestSession, hsession,
          Except.mapError, Except.map, bind, Except.bind]
      | ok session =>
        refine .inr ⟨connection, servers, session, rfl, rfl, hsession, ?_⟩
        simp [ensureConnection, hkey, hlive, hacquire, hservers, requestSession, hsession,
          Except.mapError, Except.map, bind, Except.bind]

/-- Either the connection cannot be ensured, or it was there, or it is set up. -/
theorem ensureConnection_cases (inner : ThreadInner) (w : World Server) :
    (∃ e, inner.ensureConnection w = .error e ∧ inner.Refused w) ∨
      (¬ inner.Refused w ∧ inner.lease ≠ none ∧ inner.live.isSome ∧
        inner.ensureConnection w = .ok inner) ∨
      ∃ key connection session, w.profileKey inner.agentProfileId = some key ∧
        w.acquire key = .ok connection ∧ ¬ inner.Refused w ∧ inner.live = none ∧
        inner.ensureConnection w = .ok { inner with
          session := some (inner.session.getD session), lease := some connection } := by
  cases hkey : w.profileKey inner.agentProfileId with
  | none =>
    refine .inl ⟨.notFound ("agent profile " ++ inner.agentProfileId), ?_, by simp [Refused, hkey]⟩
    simp [ensureConnection, hkey]
  | some key =>
    cases hlive : inner.live with
    | some pair =>
      refine .inr (.inl ⟨fun hrefused => ?_, fun hlease => ?_, rfl, ?_⟩)
      · have := (hrefused key hkey).1
        rw [hlive] at this
        cases this
      · simp [live, hlease] at hlive
      · simp [ensureConnection, hkey, hlive]
    | none =>
      rcases ensureConnection_of_not_live hkey hlive with herror |
        ⟨connection, servers, session, hacquire, hservers, hsession, hok⟩
      · exact .inl herror
      · refine .inr (.inr ⟨key, connection, session, rfl, hacquire, fun hrefused => ?_, rfl, hok⟩)
        exact (hrefused key hkey).2 connection servers session hacquire hservers hsession

/-- Content is refused before anything is sent, exactly when a block is not text. -/
theorem mapM_textBlock (blocks : List ContentBlock) :
    (∃ texts, blocks.mapM textBlock = .ok texts ∧ ∀ block ∈ blocks, ∃ text, block = .text text) ∨
      (∃ e, blocks.mapM textBlock = .error e) ∧ ∃ block ∈ blocks, ∀ text, block ≠ .text text := by
  induction blocks with
  | nil => exact .inl ⟨[], rfl, nofun⟩
  | cons block blocks ih =>
    cases block with
    | text text =>
      rcases ih with ⟨texts, hok, hall⟩ | ⟨⟨e, herror⟩, block, hmem, hnot⟩
      · refine .inl ⟨text :: texts, ?_, ?_⟩
        · rw [List.mapM_cons, hok]
          rfl
        · exact List.forall_mem_cons.mpr ⟨⟨text, rfl⟩, hall⟩
      · refine .inr ⟨⟨e, ?_⟩, block, List.mem_cons_of_mem _ hmem, hnot⟩
        rw [List.mapM_cons, herror]
        rfl
    | resourceLink uri name mimeType =>
      exact .inr ⟨⟨_, rfl⟩, _, List.mem_cons_self, by simp⟩
    | image mimeType data => exact .inr ⟨⟨_, rfl⟩, _, List.mem_cons_self, by simp⟩
    | unknown raw => exact .inr ⟨⟨_, rfl⟩, _, List.mem_cons_self, by simp⟩

/-- A failed prompt emits nothing if the content is not text or on the second protocol. -/
theorem promptOn_silent_iff {wire : Wire} {send : List String → Except ConnectionError StopReason}
    {e : ConnectionError} {emitted : List TurnEventBody}
    (h : promptOn wire send blocks = (.error e, emitted)) :
    emitted = [] ↔ (∃ block ∈ blocks, ∀ text, block ≠ .text text) ∨ wire = .v2 := by
  cases wire with
  | v1 =>
    rcases mapM_textBlock blocks with ⟨texts, hok, hall⟩ | ⟨⟨e', herror⟩, hnot⟩
    · simp only [promptOn, toV1Block, hok] at h
      have htext : ¬ ∃ block ∈ blocks, ∀ text, block ≠ .text text := by
        rintro ⟨block, hmem, hnot⟩
        obtain ⟨text, heq⟩ := hall block hmem
        exact hnot text heq
      cases hsend : send texts with
      | error e' =>
        obtain ⟨-, rfl⟩ := Prod.mk.inj (hsend ▸ h)
        simp [htext]
      | ok stopReason => simp [hsend] at h
    · simp only [promptOn, toV1Block, herror, Prod.mk.injEq] at h
      exact iff_of_true h.2.symm (.inl hnot)
  | v2 =>
    refine iff_of_true ?_ (.inr rfl)
    simp only [promptOn] at h
    split at h
    · exact (Prod.mk.inj h).2.symm
    · exact (Prod.mk.inj h).2.symm

/-- A prompt that the connection refuses marks the transport as lost. -/
theorem promptLive_error {connection : Connection} {session : String}
    (hlive : inner.live = some (connection, session))
    (hfail : ∃ e, (inner.promptLive w blocks).result = .error e) :
    (inner.promptLive w blocks).inner = inner.markTransportLost ∧
      ((inner.promptLive w blocks).emitted = [] ↔
        (∃ block ∈ blocks, ∀ text, block ≠ .text text) ∨ w.wire connection = .v2) := by
  obtain ⟨e, hfail⟩ := hfail
  simp only [promptLive, hlive] at hfail ⊢
  cases hprompt : promptOn (w.wire connection) (w.send connection session) blocks with
  | mk answer emitted =>
    cases answer with
    | ok _ => simp [hprompt] at hfail
    | error e' => exact ⟨rfl, promptOn_silent_iff hprompt⟩

/-- After a lost transport on a connection that was just set up, the thread is as before if it
was parked. -/
theorem lost_eq_self_iff {connection : Connection} {session : String} :
    markTransportLost { inner with
      session := some (inner.session.getD session), lease := some connection } = inner ↔
    inner.Parked := by
  constructor
  · intro heq
    have hlease : none = inner.lease := congrArg ThreadInner.lease heq
    have hsession : some (inner.session.getD session) = inner.session :=
      congrArg ThreadInner.session heq
    have hmachine : inner.machine.markInterrupted = inner.machine :=
      congrArg ThreadInner.machine heq
    obtain ⟨hstate, hturns⟩ := markInterrupted_eq_self.mp hmachine
    exact ⟨hlease.symm, by rw [← hsession]; rfl, hstate, hturns⟩
  · rintro ⟨hlease, hsession, hstate, hturns⟩
    obtain ⟨session', hsession'⟩ := Option.isSome_iff_exists.mp hsession
    have hmachine := markInterrupted_eq_self.mpr ⟨hstate, hturns⟩
    simp only [markTransportLost, hmachine, hsession', Option.getD_some]
    rw [← hlease, ← hsession']

/-- A failed call leaves the thread as it was if and only if it is one of the harmless ones. -/
theorem unchanged_iff (inner : ThreadInner) (w : World Server) (request : Request)
    (hfail : ∃ e, (inner.perform w request).result = .error e) :
    (inner.perform w request).Unchanged inner ↔ inner.Harmless w request := by
  cases request with
  | resume =>
    have hinner : (inner.resume w).Unchanged inner ↔
        { inner with lease := none, machine := inner.machine.markResumed } = inner := by
      obtain ⟨e, hfail⟩ := hfail
      simp only [perform, resume] at hfail
      simp only [resume]
      split at hfail
      · rename_i herror
        simp [Outcome.Unchanged]
      · cases hfail
    refine hinner.trans ⟨fun heq => ?_, fun ⟨hlease, hstate⟩ => ?_⟩
    · exact ⟨(congrArg ThreadInner.lease heq).symm,
        markResumed_eq_self.mp (congrArg ThreadInner.machine heq)⟩
    · rw [markResumed_eq_self.mpr hstate, ← hlease]
  | prompt blocks =>
    simp only [perform, prompt] at hfail ⊢
    rcases ensureConnection_cases inner w with ⟨e, herror, hrefused⟩ |
      ⟨hnot, hlease, hlive, hok⟩ | ⟨key, connection, session, hkey, hacquire, hnot, -, hok⟩
    · rw [herror]
      exact iff_of_true ⟨rfl, rfl⟩ (.inl hrefused)
    · -- a healthy thread loses its lease
      obtain ⟨⟨connection, session⟩, hlive⟩ := Option.isSome_iff_exists.mp hlive
      rw [hok] at hfail ⊢
      refine iff_of_false (fun hsame => ?_) ?_
      · have hlost := (promptLive_error hlive hfail).1.symm.trans hsame.1
        exact hlease (congrArg ThreadInner.lease hlost).symm
      · rintro (hrefused | ⟨hparked, -⟩)
        · exact hnot hrefused
        · exact hlease hparked.lease
    · rw [hok] at hfail ⊢
      obtain ⟨hlost, hsilent⟩ := promptLive_error rfl hfail
      have hwire : (∀ key' connection', w.profileKey inner.agentProfileId = some key' →
          w.acquire key' = .ok connection' → w.wire connection' = .v2) ↔
          w.wire connection = .v2 := by
        refine ⟨fun hall => hall key connection hkey hacquire, fun hv2 key' connection' hk hc => ?_⟩
        obtain rfl : key = key' := Option.some.inj (hkey.symm.trans hk)
        obtain rfl : connection = connection' := Except.ok.inj (hacquire.symm.trans hc)
        exact hv2
      simp only [Outcome.Unchanged, hlost, lost_eq_self_iff, hsilent, Harmless, Silent, hwire, hnot,
        false_or]

section Failures

/-- A thread with a session on a connection. -/
def healthy : ThreadInner where
  handle := 0
  machine := ThreadMachine.new "thread-1"
  workspaceId := "workspace"
  agentProfileId := "claude"
  workdir := "/w"
  workspaceRoot := "/w"
  session := some "s"
  lease := some 0

/-- The thread after its transport was lost. -/
def interrupted : ThreadInner := healthy.markTransportLost

/-- The profile is registered and its process cannot be started. -/
def noProcess : World Unit where
  profileKey := fun _ => some ⟨"claude", "local"⟩
  acquire := fun _ => .error "spawn failed: no such file"
  entry := fun _ => none
  spawnServers := fun _ _ _ => .ok []
  session := fun _ _ => .error .cancelled
  wire := fun _ => .v1
  send := fun _ _ _ => .error .cancelled

/-- A failed resume leaves an interrupted thread idle, and a prompt with an image interrupts a
healthy thread although nothing was sent. -/
theorem failed_calls_change_the_thread :
    (interrupted.perform noProcess .resume).result =
        .error (.internal "spawn failed: no such file") ∧
      interrupted.machine.state = .interrupted ∧
      (interrupted.perform noProcess .resume).inner.machine.state = .idle ∧
      (healthy.perform noProcess (.prompt [.image "image/png" ""])).result =
        .error (.internal "unsupported: prompt_image") ∧
      (healthy.perform noProcess (.prompt [.image "image/png" ""])).inner.lease = none ∧
      (healthy.perform noProcess (.prompt [.image "image/png" ""])).inner.machine.state =
        .interrupted ∧
      ¬ (interrupted.perform noProcess .resume).Unchanged interrupted ∧
      ¬ (healthy.perform noProcess (.prompt [.image "image/png" ""])).Unchanged healthy := by
  refine ⟨rfl, rfl, rfl, rfl, rfl, rfl, fun hsame => ?_, fun hsame => ?_⟩
  · exact absurd (congrArg (·.machine.state) hsame.1) (by decide)
  · exact absurd (congrArg ThreadInner.lease hsame.1) (by decide)

/-- An interrupted thread is as before after a prompt that found no process. -/
theorem prompt_without_process_unchanged :
    (∃ e, (interrupted.perform noProcess (.prompt [.text "hi"])).result = .error e) ∧
      (interrupted.perform noProcess (.prompt [.text "hi"])).Unchanged interrupted := by
  refine ⟨⟨_, rfl⟩, (unchanged_iff interrupted noProcess (.prompt [.text "hi"]) ⟨_, rfl⟩).mpr ?_⟩
  exact .inl fun key _ => ⟨rfl, nofun⟩

end Failures

/-! ## The same call among others -/

/-- The thread of the interleaving model is this thread. -/
structure Agrees (inner : ThreadInner) (h : Handle) : Prop where
  machine : h.machine = inner.machine
  session : h.session = inner.session
  lease : h.lease = inner.lease

/-- The handle with a single call. -/
def alone (h : Handle) (kind : Kind) (pc : Pc) : Handle := { h with calls := [⟨kind, pc⟩] }

variable {h : Handle} {kind : Kind} {pc pc' : Pc}

@[simp] theorem stepAt_alone (place : Pc → Option Handle) :
    (alone h kind pc).stepAt ⟨kind, pc⟩ place = place pc := by
  simp [Handle.stepAt, alone]

@[simp] theorem advance_alone : (alone h kind pc).advance ⟨kind, pc⟩ pc' = alone h kind pc' := by
  simp [Handle.advance, alone]

@[simp] theorem finish_alone : (alone h kind pc).finish ⟨kind, pc⟩ = { h with calls := [] } := by
  simp [Handle.finish, alone]

theorem step_install_alone {connection : Connection} {session : String} :
    (alone h kind (.install connection session)).step (.install ⟨kind, .install connection session⟩) =
      some (alone { h with session := some session, lease := some connection } kind
        (.startReader connection session)) := by
  simp [Handle.step]
  rfl

/-- `start_reader` as steps of the only call. -/
theorem run_startReader (h : Handle) (kind : Kind) (connection : Connection) (session : String) :
    ∃ acts t, run Handle.step (alone h kind (.startReader connection session)) acts =
        some (alone t kind .ensured) ∧
      t.machine = h.machine ∧ t.session = h.session ∧ t.lease = h.lease := by
  cases hslot : h.reader with
  | some task =>
    refine ⟨[.checkSlot ⟨kind, .startReader connection session⟩], h, ?_, rfl, rfl, rfl⟩
    have hreader : (alone h kind (.startReader connection session)).reader = some task := hslot
    simp [run_cons, Handle.step, hreader]
  | none =>
    have hreader : (alone h kind (.startReader connection session)).reader = none := hslot
    have hcheck : (alone h kind (.startReader connection session)).step
        (.checkSlot ⟨kind, .startReader connection session⟩) =
        some (alone h kind (.spawn connection session)) := by
      simp [Handle.step, hreader]
    have hspawn : (alone h kind (.spawn connection session)).step
        (.spawn ⟨kind, .spawn connection session⟩) =
        some (alone { h with
          tasks := ⟨h.spawned, connection, session⟩ :: h.tasks
          spawned := h.spawned + 1 } kind (.store h.spawned)) := by
      simp [Handle.step]
      rfl
    have hstore : ∀ h' : Handle, (alone h' kind (.store h.spawned)).step
        (.store ⟨kind, .store h.spawned⟩) =
        some (alone { h' with reader := some h.spawned } kind .ensured) := by
      intro h'
      simp [Handle.step]
      rfl
    refine ⟨[.checkSlot ⟨kind, .startReader connection session⟩,
      .spawn ⟨kind, .spawn connection session⟩, .store ⟨kind, .store h.spawned⟩],
      { h with
        tasks := ⟨h.spawned, connection, session⟩ :: h.tasks
        spawned := h.spawned + 1
        reader := some h.spawned }, ?_, rfl, rfl, rfl⟩
    rw [run_cons, hcheck, Option.bind_some, run_cons, hspawn, Option.bind_some, run_cons, hstore,
      Option.bind_some, run_nil]

theorem live_isSome : inner.live.isSome ↔ inner.lease.isSome ∧ inner.session.isSome := by
  unfold live
  cases inner.lease <;> cases inner.session <;> simp

theorem live_alone (hagrees : inner.Agrees h) : (alone h kind pc).live = inner.live.isSome := by
  rw [Bool.eq_iff_iff, live_isSome, ← hagrees.lease, ← hagrees.session]
  exact decide_eq_true_iff

/-- `ensure_connection` as steps of the only call. -/
theorem run_ensureConnection (kind : Kind) (hagrees : inner.Agrees h)
    (hok : inner.ensureConnection w = .ok inner') :
    ∃ acts t, run Handle.step (alone h kind .start) acts = some (alone t kind .ensured) ∧
      inner'.Agrees t := by
  have hread : (alone h kind .start).step (.readSession ⟨kind, .start⟩) =
      some (alone h kind (.check h.session)) := by
    simp [Handle.step]
    rfl
  have hcheck : (alone h kind (.check h.session)).step (.checkLive ⟨kind, .check h.session⟩) =
      some (alone h kind (if inner.live.isSome then .ensured else .acquiring h.session)) := by
    simp [Handle.step, live_alone hagrees]
  rcases ensureConnection_cases inner w with ⟨e, herror, -⟩ | ⟨-, -, hlive, hsame⟩ |
    ⟨key, connection, fresh, -, -, -, hlive, hsetup⟩
  · cases herror.symm.trans hok
  · obtain rfl := Except.ok.inj (hsame.symm.trans hok)
    refine ⟨[.readSession ⟨kind, .start⟩, .checkLive ⟨kind, .check h.session⟩], h, ?_, hagrees⟩
    rw [run_cons, hread, Option.bind_some, run_cons, hcheck, if_pos hlive, Option.bind_some, run_nil]
  · obtain rfl := Except.ok.inj (hsetup.symm.trans hok)
    have hsession : inner.session.getD fresh = h.session.getD fresh := by rw [hagrees.session]
    obtain ⟨acts, t, hrun, hmachine, htsession, hlease⟩ :=
      run_startReader
        { h with session := some (inner.session.getD fresh), lease := some connection }
        kind connection (inner.session.getD fresh)
    refine ⟨.readSession ⟨kind, .start⟩ :: .checkLive ⟨kind, .check h.session⟩ ::
      .acquired ⟨kind, .acquiring h.session⟩ connection ::
      .sessionReady ⟨kind, .acquired h.session connection⟩ fresh ::
      .install ⟨kind, .install connection (inner.session.getD fresh)⟩ :: acts, t, ?_,
      hmachine.trans hagrees.machine, htsession, hlease⟩
    have hnot : ¬ inner.live.isSome := by simp [hlive]
    rw [run_cons, hread, Option.bind_some, run_cons, hcheck, if_neg hnot, Option.bind_some]
    have hacquired : (alone h kind (.acquiring h.session)).step
        (.acquired ⟨kind, .acquiring h.session⟩ connection) =
        some (alone h kind (.acquired h.session connection)) := by
      simp [Handle.step]
    have hready : (alone h kind (.acquired h.session connection)).step
        (.sessionReady ⟨kind, .acquired h.session connection⟩ fresh) =
        some (alone h kind (.install connection (inner.session.getD fresh))) := by
      simp [Handle.step, hsession]
    rw [run_cons, hacquired, Option.bind_some, run_cons, hready, Option.bind_some, run_cons,
      step_install_alone, Option.bind_some, hrun]

/-- A prompt with a connection in place, as steps of the only call. -/
theorem run_promptLive (w : World Server) (blocks : List ContentBlock) (hagrees : inner.Agrees h) :
    ∃ acts t, run Handle.step (alone h .prompt .ensured) acts = some t ∧ t.calls = [] ∧
      (inner.promptLive w blocks).inner.Agrees t := by
  cases hpair : inner.live with
  | none =>
    refine ⟨[.ensured ⟨.prompt, .ensured⟩], { h with calls := [] }, ?_, rfl, ?_⟩
    · simp [run_cons, Handle.step, live_alone hagrees, hpair]
    · simp only [promptLive, hpair]
      exact ⟨hagrees.machine, hagrees.session, hagrees.lease⟩
  | some pair =>
    have hensured : (alone h .prompt .ensured).step (.ensured ⟨.prompt, .ensured⟩) =
        some (alone h .prompt .prompting) := by
      simp [Handle.step, live_alone hagrees, hpair]
    cases hprompt : promptOn (w.wire pair.1) (w.send pair.1 pair.2) blocks with
    | mk answer emitted =>
      cases answer with
      | ok _ =>
        refine ⟨[.ensured ⟨.prompt, .ensured⟩, .promptAnswered ⟨.prompt, .prompting⟩],
          { h with calls := [] }, ?_, rfl, ?_⟩
        · rw [run_cons, hensured]
          simp [run_cons, Handle.step]
        · simp only [promptLive, hpair, hprompt]
          exact ⟨hagrees.machine, hagrees.session, hagrees.lease⟩
      | error e =>
        have hfailed : (alone h .prompt .prompting).step (.promptFailed ⟨.prompt, .prompting⟩) =
            some (alone h .prompt .lost) := by
          simp [Handle.step]
        refine ⟨[.ensured ⟨.prompt, .ensured⟩, .promptFailed ⟨.prompt, .prompting⟩,
          .transportLost ⟨.prompt, .lost⟩],
          { h with calls := [], lease := none, machine := h.machine.markInterrupted }, ?_, rfl, ?_⟩
        · rw [run_cons, hensured, Option.bind_some, run_cons, hfailed, Option.bind_some]
          simp [run_cons, Handle.step]
          rfl
        · simp only [promptLive, hpair, hprompt]
          exact ⟨congrArg ThreadMachine.markInterrupted hagrees.machine, hagrees.session, rfl⟩

/-- The call that nothing interrupts is one of the runs of the interleaving model. -/
theorem perform_is_run (request : Request) (hagrees : inner.Agrees h) (hcalls : h.calls = []) :
    ∃ acts t, run Handle.step h acts = some t ∧ t.calls = [] ∧
      (inner.perform w request).inner.Agrees t := by
  have hfail : ∀ (h : Handle) (kind : Kind), (alone h kind .start).step (.fail ⟨kind, .start⟩) =
      some { h with calls := [] } := by
    intro h kind
    simp [Handle.step]
  cases request with
  | prompt blocks =>
    have hcall : h.step (.call .prompt) = some (alone h .prompt .start) := by
      simp [Handle.step, hcalls, alone]
    cases hensure : inner.ensureConnection w with
    | error e =>
      refine ⟨[.call .prompt, .fail ⟨.prompt, .start⟩], { h with calls := [] }, ?_, rfl, ?_⟩
      · rw [run_cons, hcall, Option.bind_some, run_cons, hfail, Option.bind_some, run_nil]
      · simp only [perform, prompt, hensure]
        exact ⟨hagrees.machine, hagrees.session, hagrees.lease⟩
    | ok inner' =>
      obtain ⟨acts, t, hrun, hagrees'⟩ := run_ensureConnection .prompt hagrees hensure
      obtain ⟨acts', t', hrun', hnone, hlast⟩ := run_promptLive w blocks hagrees'
      refine ⟨.call .prompt :: (acts ++ acts'), t', ?_, hnone, ?_⟩
      · rw [run_cons, hcall, Option.bind_some, run_append, hrun, Option.bind_some, hrun']
      · simpa only [perform, prompt, hensure] using hlast
  | resume =>
    have hcall : h.step (.call .resume) = some (alone h .resume .resuming) := by
      simp [Handle.step, hcalls, alone]
    have hresume : (alone h .resume .resuming).step (.resume ⟨.resume, .resuming⟩) =
        some (alone { h with lease := none, machine := h.machine.markResumed } .resume .start) := by
      simp [Handle.step]
      rfl
    have hagrees' : Agrees { inner with lease := none, machine := inner.machine.markResumed }
        { h with lease := none, machine := h.machine.markResumed } :=
      ⟨congrArg ThreadMachine.markResumed hagrees.machine, hagrees.session, rfl⟩
    cases hensure : ensureConnection
        { inner with lease := none, machine := inner.machine.markResumed } w with
    | error e =>
      refine ⟨[.call .resume, .resume ⟨.resume, .resuming⟩, .fail ⟨.resume, .start⟩],
        { h with lease := none, machine := h.machine.markResumed, calls := [] }, ?_, rfl, ?_⟩
      · rw [run_cons, hcall, Option.bind_some, run_cons, hresume, Option.bind_some, run_cons, hfail,
          Option.bind_some, run_nil]
      · simp only [perform, resume, hensure]
        exact ⟨hagrees'.machine, hagrees'.session, hagrees'.lease⟩
    | ok inner' =>
      obtain ⟨acts, t, hrun, hlast⟩ := run_ensureConnection .resume hagrees' hensure
      refine ⟨.call .resume :: .resume ⟨.resume, .resuming⟩ ::
        (acts ++ [.ensured ⟨.resume, .ensured⟩]), { t with calls := [] }, ?_, rfl, ?_⟩
      · rw [run_cons, hcall, Option.bind_some, run_cons, hresume, Option.bind_some, run_append, hrun]
        simp [run_cons, Handle.step]
      · simp only [perform, resume, hensure]
        exact ⟨hlast.machine, hlast.session, hlast.lease⟩

end ThreadInner

end Tethys.Core
