import Tethys.Frontend.Events

/-!
# The two reducers side by side

The front end and the back end reduce the same live events. `Corresponds` compares the
session status with the thread state and the two transcripts entry by entry, for messages,
tool calls and permissions and for the fields that both sides keep. The front end misses
some rules of the back end: it never clears a message nor changes its role, ignores tool
output chunks, repeats a permission that is asked again, and lets the pending list decide the
status after a permission is resolved. `agrees` names the steps on which none of this shows,
and `corresponds_of_agrees` proves that these steps keep the two sides together.
-/

namespace Tethys.Frontend

open Schema Lib Thread

/-! ## What is compared -/

def statusOf : ThreadState → SessionStatus
  | .idle => .idle
  | .running => .running
  | .awaitingApproval => .awaitingApproval
  | .error => .error
  | .interrupted => .interrupted
  | .suspended => .suspended
  | .archived => .archived

/-- Status and transcript correspond. -/
def Corresponds (m : ThreadMachine) (s : SessionState) : Prop :=
  s.status = statusOf m.state ∧
  s.entries.filterMap frontView = m.entries.filterMap backView

instance (m : ThreadMachine) (s : SessionState) : Decidable (Corresponds m s) :=
  inferInstanceAs (Decidable (_ ∧ _))

/-- A live event as both sides receive it: its number, the front end's clock, its body. -/
structure LiveEvent where
  seq : Nat
  now : Nat
  body : TurnEventBody
  deriving DecidableEq

/-- Both sides take the same live event. -/
def bothStep (p : ThreadMachine × SessionState) (event : LiveEvent) :
    Option (ThreadMachine × SessionState) :=
  some (p.1.apply event.seq event.body .live,
    sessionReducer p.2 event.body (some event.seq) event.now)

/-! ## The steps on which the rules agree -/

/-- Both sides find an entry with this id, or neither does. -/
def findsAlike (m : ThreadMachine) (s : SessionState) (id : String) : Bool :=
  (findMut m.entries id).isSome == (lookup SessionEntry.id id s.liveEntries).isSome

def agrees (m : ThreadMachine) (s : SessionState) : TurnEventBody → Bool
  | .messageChunk chunk => findsAlike m s chunk.messageId
  | .messageUpsert upsert =>
    findsAlike m s upsert.messageId &&
    match findMut m.entries upsert.messageId with
    | some (.message _ role blocks) =>
      -- the role stays, and a clear finds nothing to clear
      role = upsert.role && (upsert.content ≠ .clear || extractTextFromContentBlocks blocks = "")
    | _ => true
  | .toolCallUpsert toolCallId _ => findsAlike m s toolCallId
  | .toolCallContentChunk toolCallId item =>
    match findMut m.entries toolCallId with
    | some (.toolCall _ patch) =>
      -- the chunk adds no text to the output
      chunkText item = none || chunkText item = some "" && patch.output.isSome
    | _ => true
  | .permissionRequested request => (findMut m.entries request.reqId).isNone
  | .permissionResolved reqId _ _ =>
    -- the last pending permission, answered while the turn is still on
    (m.state = .awaitingApproval || m.state = .running) &&
      s.pendingPermissions.filter (fun p => p.reqId ≠ reqId) = []
  | _ => true

/-! ## One step, and whole runs -/

/-- The simulation relation between the machine and the session. -/
structure Sim (m : ThreadMachine) (s : SessionState) : Prop where
  status : s.status = statusOf m.state
  history : s.historyEntries = []
  combined : s.entries = s.liveEntries
  aligned : Aligned m.entries s.liveEntries

theorem Sim.corresponds {m : ThreadMachine} {s : SessionState} (h : Sim m s) : Corresponds m s :=
  ⟨h.status, h.combined ▸ h.aligned.paired.views⟩

theorem Sim.init (id sessionId providerId workspaceId title : String)
    (branchName : Option String) :
    Sim (ThreadMachine.new id)
      (createInitialSessionState sessionId providerId workspaceId title branchName) :=
  ⟨rfl, rfl, rfl, .nil, List.nodup_nil, List.Pairwise.nil⟩

theorem Sim.combined_step {m : ThreadMachine} {s : SessionState} (h : Sim m s)
    (event : TurnEventBody) (seq : Option Nat) (now : Nat) :
    (sessionReducer s event seq now).entries = (sessionReducer s event seq now).liveEntries := by
  cases event with
  | stateChanged changed => obtain ⟨state⟩ := changed; cases state <;> exact h.combined
  | messageUpsert _ | messageChunk _ | toolCallUpsert _ _ | permissionRequested _
  | permissionResolved _ _ _ =>
    simp only [sessionReducer, h.history, rebuildCombinedEntries_nil]
  | _ => exact h.combined

/-- A resolved permission leads back to `running` on both sides when it was the last one. -/
theorem Sim.status_step {m : ThreadMachine} {s : SessionState} (h : Sim m s)
    (event : TurnEventBody) (seq now : Nat) (ok : agrees m s event) :
    (sessionReducer s event (some seq) now).status = statusOf (m.apply seq event .live).state := by
  cases event with
  | stateChanged changed => obtain ⟨state⟩ := changed; cases state <;> rfl
  | permissionResolved reqId outcome decidedBy =>
    simp only [agrees, Bool.and_eq_true, Bool.or_eq_true, decide_eq_true_eq] at ok
    obtain ⟨hstate, hpending⟩ := ok
    have hstatus : (sessionReducer s (.permissionResolved reqId outcome decidedBy) (some seq)
        now).status = .running := by
      simp only [sessionReducer]
      rw [hpending]
      rfl
    rw [hstatus]
    rcases hstate with hs | hs <;> simp [ThreadMachine.apply, hs, statusOf]
  | permissionRequested request => rfl
  | error code message retryable => rfl
  | _ => exact h.status

/-- An event that aims at no entry changes neither transcript. -/
theorem Aligned.no_target {es : List Entry} {fs : List SessionEntry} {event : TurnEventBody}
    (h : Aligned es fs) (ht : targetId event = none) : Paired (entryReducer.live es event) fs := by
  rw [Reducer.live_of_no_target (R := entryReducer) ht]
  exact h.paired

theorem Sim.paired_step {m : ThreadMachine} {s : SessionState} (h : Sim m s)
    (event : TurnEventBody) (now : Nat) (ok : agrees m s event) :
    Paired (entryReducer.live m.entries event) (frontLive s.liveEntries event now) := by
  have ha := h.aligned
  cases event with
  | messageChunk chunk =>
    exact ha.messageChunk chunk now (by simpa [agrees, findsAlike, findMut] using ok)
  | messageUpsert upsert =>
    simp only [agrees, Bool.and_eq_true] at ok
    refine ha.messageUpsert upsert now (by simpa [findsAlike, findMut] using ok.1) ?_
    intro id role blocks hl
    have hkeeps := ok.2
    rw [findMut, hl] at hkeeps
    simp only [Bool.and_eq_true, Bool.or_eq_true, decide_eq_true_eq] at hkeeps
    exact ⟨hkeeps.1, fun hc => hkeeps.2.resolve_left (by simp [hc])⟩
  | toolCallUpsert toolCallId patch =>
    exact ha.toolCallUpsert toolCallId patch now (by simpa [agrees, findsAlike, findMut] using ok)
  | toolCallContentChunk toolCallId item =>
    refine ha.toolCallContentChunk toolCallId item fun id patch hl => ?_
    simpa [agrees, findMut, hl] using ok
  | permissionRequested request =>
    exact ha.permissionRequested request now (by simpa [agrees, findMut] using ok)
  | permissionResolved reqId outcome decidedBy =>
    exact ha.permissionResolved reqId outcome decidedBy now
  | planUpsert planId plan =>
    refine ha.hidden_event (x := planId) rfl (by simp [freshEntry, backView]) ?_
    intro e e' htouch
    cases e <;> simp [touch] at htouch
    exact ⟨rfl, htouch ▸ rfl⟩
  | terminalUpsert terminalId _ | terminalOutputChunk terminalId _ =>
    refine ha.hidden_event (x := terminalId) rfl (by simp [freshEntry, backView]) ?_
    intro e e' htouch
    cases e <;> simp [touch] at htouch
    exact ⟨rfl, htouch ▸ rfl⟩
  | error code message retryable =>
    refine ha.hidden_event (x := "error") rfl (by simp [freshEntry, backView]) ?_
    intro e e' htouch
    cases e <;> simp [touch] at htouch
    exact ⟨rfl, htouch ▸ rfl⟩
  | stateChanged changed => obtain ⟨state⟩ := changed; cases state <;> exact ha.no_target rfl
  | _ => exact ha.no_target rfl

/-- An id that is new to the back end is new to the front end, where it matters. -/
theorem new_on_both {m : ThreadMachine} {s : SessionState} {event : TurnEventBody}
    (ok : agrees m s event) {e : Entry} (hf : freshEntry event = some e) (ht : isText e)
    (hl : lookup Entry.entryId e.entryId m.entries = none) :
    lookup SessionEntry.id e.entryId s.liveEntries = none := by
  cases event <;> simp only [freshEntry, Option.some.injEq, reduceCtorEq] at hf <;> subst hf
  case messageChunk chunk =>
    simp only [Entry.entryId] at hl ⊢
    simpa [agrees, findsAlike, findMut, hl] using ok
  case messageUpsert upsert =>
    simp only [Entry.entryId] at hl ⊢
    simpa [agrees, findsAlike, findMut, hl] using ok
  case toolCallUpsert toolCallId patch =>
    simp only [Entry.entryId] at hl ⊢
    simpa [agrees, findsAlike, findMut, hl] using ok
  all_goals simp [isText, Entry.kind] at ht

theorem Sim.step {m : ThreadMachine} {s : SessionState} (h : Sim m s) (event : LiveEvent)
    (ok : agrees m s event.body) :
    Sim (m.apply event.seq event.body .live)
      (sessionReducer s event.body (some event.seq) event.now) := by
  refine ⟨h.status_step event.body event.seq event.now ok, ?_,
    h.combined_step event.body (some event.seq) event.now, ?_⟩
  · rw [sessionReducer_historyEntries, h.history]
  · rw [sessionReducer_liveEntries, ThreadMachine.apply_live_entries]
    exact h.aligned.step (h.paired_step event.body event.now ok) fun e hf ht hl =>
      new_on_both ok hf ht hl

/-- Along every run of live events whose steps all agree, the session and the thread
correspond in every state. -/
theorem corresponds_of_agrees (id sessionId providerId workspaceId title : String)
    (branchName : Option String) (events : List LiveEvent)
    (ok : Meets bothStep (fun p event => agrees p.1 p.2 event.body)
      (ThreadMachine.new id,
        createInitialSessionState sessionId providerId workspaceId title branchName) events) :
    Always bothStep (fun p => Corresponds p.1 p.2)
      (ThreadMachine.new id,
        createInitialSessionState sessionId providerId workspaceId title branchName) events := by
  have pres : ∀ p event p', Sim p.1 p.2 → agrees p.1 p.2 event.body = true →
      bothStep p event = some p' → Sim p'.1 p'.2 := by
    intro p event p' hsim hok hp
    cases hp
    exact hsim.step event hok
  exact always_of_meets (I := fun p => Sim p.1 p.2) (fun p hsim => hsim.corresponds) pres
    (Sim.init id sessionId providerId workspaceId title branchName) ok

/-- A turn with a message, a tool call and a permission, on which all steps agree. -/
theorem corresponds_on_turn :
    Always bothStep (fun p => Corresponds p.1 p.2)
      (ThreadMachine.new "t", createInitialSessionState "s" "p" "w" "New Thread" none)
      [⟨0, 7, .stateChanged ⟨.running⟩⟩,
       ⟨1, 7, .messageChunk ⟨"m", .agent, .text "hel"⟩⟩,
       ⟨2, 8, .messageChunk ⟨"m", .agent, .text "lo"⟩⟩,
       ⟨3, 8, .toolCallUpsert "c" ⟨some "ls", none, none, some "{}", none, []⟩⟩,
       ⟨4, 9, .permissionRequested ⟨"perm-1", "Run ls?", none, none, []⟩⟩,
       ⟨5, 9, .permissionResolved "perm-1" .approved .user⟩,
       ⟨6, 9, .toolCallUpsert "c" ⟨none, none, some .completed, none, some "a.txt", []⟩⟩,
       ⟨7, 9, .stateChanged ⟨.idle (some .endTurn)⟩⟩] :=
  corresponds_of_agrees "t" "s" "p" "w" "New Thread" none _ (by decide)

/-- Clearing a message: the back end empties it, the front end keeps the old text. -/
theorem clear_is_lost :
    ¬ Always bothStep (fun p => Corresponds p.1 p.2)
      (ThreadMachine.new "t", createInitialSessionState "s" "p" "w" "New Thread" none)
      [⟨0, 7, .messageUpsert ⟨"m", .agent, .set [.text "draft"]⟩⟩,
       ⟨1, 8, .messageUpsert ⟨"m", .agent, .clear⟩⟩] := by
  decide

end Tethys.Frontend
