import Tethys.Acp.MapV1
import Tethys.Lib.Runs
import Tethys.Lib.Text

/-!
# Permission requests on a connection

How `connect_v1` and `connect_v2` of `tethys-acp/src/client.rs` serve the agent's permission
requests. A request gets a number, is shown in the transcript of its session, and is handed
to the resolver in a task of its own; the task shows the decision and then responds. The
tasks of a connection run side by side, with the session updates between them. The theorem
at the end gives, for every order of these steps, all that the transcripts and the agent
have seen of a request.
-/

namespace Tethys.Acp

open Schema Lib

/-! ## Requests -/

namespace V2

structure PermissionOption where
  optionId : String
  name : String
  kind : Raw
  deriving DecidableEq

inductive RequestPermissionSubject where
  | command (command : String)
  | toolCall (toolCallId : String)
  | other (raw : Raw)
  deriving DecidableEq

structure RequestPermissionRequest where
  sessionId : String
  title : String
  description : Option String
  subject : Option RequestPermissionSubject
  options : List PermissionOption
  deriving DecidableEq

end V2

/-- A v1 request. It is about a tool call, whose title may be left out. -/
structure V1.RequestPermissionRequest where
  sessionId : String
  toolCallId : String
  title : Option String
  options : List V2.PermissionOption
  deriving DecidableEq

def permOption (option : V2.PermissionOption) : PermOption where
  optionId := option.optionId
  name := option.name
  kind := some (label option.kind)

/-- The request that the handler of `connect_v1` builds. -/
def v1Permission (request : V1.RequestPermissionRequest) (reqId : String) :
    PermissionRequested where
  reqId := reqId
  title := request.title.getD request.toolCallId
  description := none
  subject := some (.toolCall request.toolCallId)
  options := request.options.map permOption

def subject : V2.RequestPermissionSubject → PermissionSubject
  | .command command => .command command
  | .toolCall toolCallId => .toolCall toolCallId
  | .other raw => .unknown raw

/-- Maps a v2 permission request to the normalized request, still without a number. -/
def permissionRequest (request : V2.RequestPermissionRequest) : PermissionRequested where
  reqId := ""
  title := request.title
  description := request.description
  subject := request.subject.map subject
  options := request.options.map permOption

inductive AgentRequest where
  | v1 (request : V1.RequestPermissionRequest)
  | v2 (request : V2.RequestPermissionRequest)
  deriving DecidableEq

namespace AgentRequest

def sessionId : AgentRequest → String
  | .v1 request => request.sessionId
  | .v2 request => request.sessionId

def permission (reqId : String) : AgentRequest → PermissionRequested
  | .v1 request => v1Permission request reqId
  | .v2 request => { permissionRequest request with reqId := reqId }

@[simp] theorem permission_reqId (reqId : String) (request : AgentRequest) :
    (request.permission reqId).reqId = reqId := by
  cases request <;> rfl

end AgentRequest

/-! ## Decisions -/

/-- Decision returned by a permission resolver. -/
structure PermissionDecision where
  outcome : PermOutcome
  optionId : Option String
  decidedBy : Decider
  deriving DecidableEq

def PermissionDecision.cancelled : PermissionDecision := ⟨.cancelled, none, .policy⟩

inductive RequestPermissionOutcome where
  | selected (optionId : String)
  | cancelled
  deriving DecidableEq

/-- `v1_permission_response` and `v2_permission_response`, which differ in their types only.
An approval without an option cancels. -/
def permissionResponse (decision : PermissionDecision) : RequestPermissionOutcome :=
  match decision.outcome with
  | .approved =>
    match decision.optionId with
    | some optionId => .selected optionId
    | none => .cancelled
  | _ => .cancelled

theorem permissionResponse_eq_selected {decision : PermissionDecision} {optionId : String} :
    permissionResponse decision = .selected optionId ↔
      decision.outcome = .approved ∧ decision.optionId = some optionId := by
  obtain ⟨outcome, option, decidedBy⟩ := decision
  cases outcome <;> cases option <;> simp [permissionResponse]

/-! ## The connection -/

/-- Where the task of a request stands. -/
inductive Stage where
  /-- It has its number and is not shown yet. -/
  | numbered
  /-- `connection.spawn` failed after it was shown. -/
  | dropped
  | resolving
  /-- The decision is shown, and the response not sent yet. -/
  | decided (decision : PermissionDecision)
  | responded (decision : PermissionDecision)
  /-- `responder.respond` failed. -/
  | unheard (decision : PermissionDecision)
  deriving DecidableEq

structure PermissionTask where
  sessionId : String
  permission : PermissionRequested
  stage : Stage
  deriving DecidableEq

/-- What a connection keeps and has sent for its permission requests. `tasks` has every
request in the order of the numbers, `emitted` what the sessions were shown, and `responses`
what the agent was told, under the place of the request in `tasks`. -/
structure Permissions where
  permissionSeq : Nat
  tasks : List PermissionTask
  emitted : List (String × TurnEventBody)
  responses : List (Nat × RequestPermissionOutcome)
  deriving DecidableEq

def isPermission : TurnEventBody → Bool
  | .permissionRequested _ => true
  | .permissionResolved .. => true
  | _ => false

/-- Where the other events of a session come from: the updates and prompts of a v1 session, with
the ids it has then, and the updates of a v2 session. -/
inductive Update where
  | v1 (event : V1Event) (synthetic : SyntheticMessageIds)
  | v2 (update : V2.SessionUpdate)
  deriving DecidableEq

def Update.events : Update → List TurnEventBody
  | .v1 event synthetic => (emit synthetic event).1
  | .v2 update => v2Update update

/-- The steps of the request handler, of the tasks it spawns, and of the notification
handler. -/
inductive PermissionsAct where
  | number (request : AgentRequest)
  | display (call : Nat) (spawned : Bool)
  | decide (call : Nat) (decision : PermissionDecision)
  | respond (call : Nat) (sent : Bool)
  /-- The next event of an update; those of other tasks may come before the one after it. -/
  | update (sessionId : String) (update : Update) (next : Nat)
  deriving DecidableEq

namespace Permissions

def new : Permissions := ⟨0, [], [], []⟩

def requestId (seq : Nat) : String := "perm-" ++ toString seq

/-- The task of a call moves to a stage. -/
def move (s : Permissions) (call : Nat) (task : PermissionTask) (stage : Stage)
    (events : List TurnEventBody) (responses : List RequestPermissionOutcome) : Permissions :=
  { s with
    tasks := s.tasks.set call { task with stage := stage }
    emitted := s.emitted ++ events.map (task.sessionId, ·)
    responses := s.responses ++ responses.map (call, ·) }

def step (s : Permissions) : PermissionsAct → Option Permissions
  | .number request =>
    let seq := (s.permissionSeq + 1) % 2 ^ 32
    some { s with
      permissionSeq := seq
      tasks := s.tasks ++ [⟨request.sessionId, request.permission (requestId seq), .numbered⟩] }
  | .display call spawned =>
    match s.tasks[call]? with
    | some ⟨sessionId, permission, .numbered⟩ =>
      some (s.move call ⟨sessionId, permission, .numbered⟩
        (if spawned then .resolving else .dropped) [.permissionRequested permission] [])
    | _ => none
  | .decide call decision =>
    match s.tasks[call]? with
    | some ⟨sessionId, permission, .resolving⟩ =>
      some (s.move call ⟨sessionId, permission, .resolving⟩ (.decided decision)
        [.permissionResolved permission.reqId decision.outcome decision.decidedBy] [])
    | _ => none
  | .respond call sent =>
    match s.tasks[call]? with
    | some ⟨sessionId, permission, .decided decision⟩ =>
      some (s.move call ⟨sessionId, permission, .decided decision⟩
        (if sent then .responded decision else .unheard decision) []
        (if sent then [permissionResponse decision] else []))
    | _ => none
  | .update sessionId update next =>
    match update.events[next]? with
    | some body => some { s with emitted := s.emitted ++ [(sessionId, body)] }
    | none => none

end Permissions

/-! ## Session updates -/

theorem isPermission_v1Update {update : V1.SessionUpdate} {synthetic : SyntheticMessageIds}
    {body : TurnEventBody} (h : body ∈ (v1Update update synthetic).1) :
    isPermission body = false := by
  cases update with
  | toolCall toolCall =>
    obtain rfl | ⟨content, -, rfl⟩ := by simpa [v1Update] using h
    all_goals rfl
  | toolCallUpdate update =>
    obtain rfl | ⟨content, -, rfl⟩ := by simpa [v1Update] using h
    all_goals rfl
  | _ =>
    obtain rfl := List.mem_singleton.mp h
    rfl

theorem isPermission_v2Update {update : V2.SessionUpdate} {body : TurnEventBody}
    (h : body ∈ v2Update update) : isPermission body = false := by
  cases update with
  | toolCallUpdate update =>
    obtain ⟨toolCallId, title, kind, status, rawInput, rawOutput, locations, content⟩ := update
    cases content with
    | value content =>
      obtain rfl | ⟨item, -, rfl⟩ := by simpa [v2Update] using h
      all_goals rfl
    | _ =>
      obtain rfl := List.mem_singleton.mp h
      rfl
  | stateUpdate update => cases update <;> (obtain rfl := List.mem_singleton.mp h; rfl)
  | planUpdate update => cases update <;> (obtain rfl := List.mem_singleton.mp h; rfl)
  | _ =>
    obtain rfl := List.mem_singleton.mp h
    rfl

theorem Update.isPermission_eq_false {update : Update} {body : TurnEventBody}
    (h : body ∈ update.events) : isPermission body = false := by
  cases update with
  | v1 event synthetic =>
    cases event with
    | update update => exact isPermission_v1Update h
    | prompt | response =>
      obtain rfl := List.mem_singleton.mp h
      rfl
  | v2 update => exact isPermission_v2Update h

/-! ## What is known of a request -/

/-- A permission event of the request with this number. -/
def about (reqId : String) : TurnEventBody → Bool
  | .permissionRequested permission => permission.reqId = reqId
  | .permissionResolved id .. => id = reqId
  | _ => false

theorem about_of_isPermission {reqId : String} {body : TurnEventBody}
    (h : isPermission body = false) : about reqId body = false := by
  cases body with
  | permissionRequested => cases h
  | permissionResolved => cases h
  | _ => rfl

namespace PermissionTask

def resolved (task : PermissionTask) (decision : PermissionDecision) : TurnEventBody :=
  .permissionResolved task.permission.reqId decision.outcome decision.decidedBy

/-- The events of a request up to a stage. -/
def history (task : PermissionTask) : List TurnEventBody :=
  match task.stage with
  | .numbered => []
  | .dropped | .resolving => [.permissionRequested task.permission]
  | .decided decision | .responded decision | .unheard decision =>
    [.permissionRequested task.permission, task.resolved decision]

/-- What the agent was told up to a stage. -/
def answers (task : PermissionTask) : List RequestPermissionOutcome :=
  match task.stage with
  | .responded decision => [permissionResponse decision]
  | _ => []

end PermissionTask

namespace Permissions

/-- What all sessions were shown of a request. -/
def shown (emitted : List (String × TurnEventBody)) (reqId : String) :
    List (String × TurnEventBody) :=
  emitted.filter fun e => about reqId e.2

/-- What the agent was told about a request. -/
def told (responses : List (Nat × RequestPermissionOutcome)) (call : Nat) :
    List RequestPermissionOutcome :=
  (responses.filter fun r => r.1 = call).map Prod.snd

variable {s t : Permissions} {a : PermissionsAct}

/-- What a connection has shown and told of a request is what its task stands for. -/
structure Recorded (s : Permissions) (call : Nat) (task : PermissionTask) : Prop where
  id : task.permission.reqId = requestId (call + 1)
  shown : shown s.emitted task.permission.reqId = task.history.map (task.sessionId, ·)
  told : told s.responses call = task.answers

/-- The numbers count up, every request is recorded, and no permission event and no answer is
of another source. -/
structure Accounted (s : Permissions) : Prop where
  seq : s.permissionSeq = s.tasks.length
  recorded : ∀ (call : Nat) (task : PermissionTask), s.tasks[call]? = some task →
    s.Recorded call task
  source : ∀ e ∈ s.emitted, isPermission e.2 →
    ∃ (call : Nat) (task : PermissionTask), s.tasks[call]? = some task ∧
      about task.permission.reqId e.2
  heard : ∀ r ∈ s.responses, r.1 < s.tasks.length

theorem Accounted.new : Accounted .new := by
  constructor <;> simp [Permissions.new]

/-- A permission event is about one number only. -/
theorem about_unique {x y : String} {body : TurnEventBody} (hx : about x body) (hy : about y body) :
    x = y := by
  cases body with
  | permissionRequested permission =>
    have hx : permission.reqId = x := by simpa [about] using hx
    have hy : permission.reqId = y := by simpa [about] using hy
    exact hx.symm.trans hy
  | permissionResolved id outcome decidedBy =>
    have hx : id = x := by simpa [about] using hx
    have hy : id = y := by simpa [about] using hy
    exact hx.symm.trans hy
  | _ => cases hx

theorem requestId_inj {m n : Nat} (h : requestId m = requestId n) : m = n := by
  apply toString_injective
  simpa [requestId] using congrArg String.toList h

/-- Two requests have two numbers. -/
theorem Accounted.call_unique (h : Accounted s) {m n : Nat} {task other : PermissionTask}
    (hm : s.tasks[m]? = some task) (hn : s.tasks[n]? = some other)
    (heq : task.permission.reqId = other.permission.reqId) : m = n := by
  have hid := (h.recorded m task hm).id.symm.trans (heq.trans (h.recorded n other hn).id)
  simpa using requestId_inj hid

/-- A number that no task has is not in the transcripts. -/
theorem Accounted.shown_fresh (h : Accounted s) {reqId : String}
    (hfresh : ∀ (call : Nat) (task : PermissionTask), s.tasks[call]? = some task →
      task.permission.reqId ≠ reqId) : shown s.emitted reqId = [] := by
  refine List.filter_eq_nil_iff.mpr fun e he habout => ?_
  have hperm : isPermission e.2 := by
    by_contra hno
    simp [about_of_isPermission (Bool.eq_false_iff.mpr hno)] at habout
  obtain ⟨call, task, hget, htask⟩ := h.source e he hperm
  exact hfresh call task hget (about_unique htask habout)

theorem Accounted.told_fresh (h : Accounted s) : told s.responses s.tasks.length = [] := by
  rw [told, List.map_eq_nil_iff, List.filter_eq_nil_iff]
  intro r hr heq
  have hlt := h.heard r hr
  have heq : r.1 = s.tasks.length := by simpa using heq
  omega

theorem Accounted.number (h : Accounted s) (hlen : t.tasks.length < 2 ^ 32)
    {request : AgentRequest} (hstep : s.step (.number request) = some t) : Accounted t := by
  obtain rfl := Option.some.inj hstep
  simp only [List.length_append, List.length_singleton] at hlen
  have hseq : (s.permissionSeq + 1) % 2 ^ 32 = s.tasks.length + 1 := by
    rw [h.seq, Nat.mod_eq_of_lt hlen]
  have hfresh : ∀ (call : Nat) (task : PermissionTask), s.tasks[call]? = some task →
      task.permission.reqId ≠ requestId (s.tasks.length + 1) := by
    intro call task hget heq
    have hcall := requestId_inj ((h.recorded call task hget).id.symm.trans heq)
    have hlt := (List.getElem?_eq_some_iff.mp hget).1
    omega
  simp only [hseq]
  refine ⟨by simp, ?_, ?_, ?_⟩
  · intro call task hget
    rw [List.getElem?_append] at hget
    split_ifs at hget with hlt
    · obtain ⟨hid, hshown, htold⟩ := h.recorded call task hget
      exact ⟨hid, hshown, htold⟩
    · obtain ⟨hi, rfl⟩ := List.getElem?_eq_some_iff.mp hget
      obtain rfl : call = s.tasks.length := by
        simp only [List.length_singleton] at hi
        omega
      refine ⟨by simp, ?_, ?_⟩
      · simpa [PermissionTask.history] using h.shown_fresh hfresh
      · simpa [PermissionTask.answers] using h.told_fresh
  · intro e he hperm
    obtain ⟨call, task, hget, htask⟩ := h.source e he hperm
    have hlt := (List.getElem?_eq_some_iff.mp hget).1
    exact ⟨call, task, by rwa [List.getElem?_append_left hlt], htask⟩
  · intro r hr
    have hlt := h.heard r hr
    simp only [List.length_append, List.length_singleton]
    omega

theorem shown_append (emitted events : List (String × TurnEventBody)) (reqId : String) :
    shown (emitted ++ events) reqId = shown emitted reqId ++ shown events reqId :=
  List.filter_append ..

theorem told_append (responses answers : List (Nat × RequestPermissionOutcome)) (call : Nat) :
    told (responses ++ answers) call = told responses call ++ told answers call := by
  simp [told]

theorem shown_own {reqId : String} {events : List TurnEventBody} (sessionId : String)
    (habout : ∀ body ∈ events, about reqId body) :
    shown (events.map (sessionId, ·)) reqId = events.map (sessionId, ·) := by
  simpa [shown, List.filter_eq_self] using habout

theorem shown_other {x y : String} {events : List TurnEventBody} (sessionId : String)
    (habout : ∀ body ∈ events, about x body) (hne : x ≠ y) :
    shown (events.map (sessionId, ·)) y = [] := by
  simp only [shown, List.filter_eq_nil_iff, List.forall_mem_map]
  exact fun body hbody hy => hne (about_unique (habout body hbody) hy)

theorem told_own (responses : List RequestPermissionOutcome) (call : Nat) :
    told (responses.map (call, ·)) call = responses := by
  rw [told, List.filter_eq_self.mpr (by simp), List.map_map]
  exact List.map_id responses

theorem told_other (responses : List RequestPermissionOutcome) {call other : Nat}
    (hne : call ≠ other) : told (responses.map (call, ·)) other = [] := by
  simp [told, hne]

/-- A task that shows and tells what its new stage adds keeps the account. -/
theorem Accounted.move (h : Accounted s) {call : Nat} {task : PermissionTask} {stage : Stage}
    {events : List TurnEventBody} {responses : List RequestPermissionOutcome}
    (hget : s.tasks[call]? = some task)
    (hhistory : ({ task with stage := stage } : PermissionTask).history = task.history ++ events)
    (hanswers : ({ task with stage := stage } : PermissionTask).answers = task.answers ++ responses)
    (habout : ∀ body ∈ events, about task.permission.reqId body) :
    Accounted (s.move call task stage events responses) := by
  have hlt := (List.getElem?_eq_some_iff.mp hget).1
  have hset : (s.tasks.set call { task with stage := stage })[call]? =
      some { task with stage := stage } := List.getElem?_set_self hlt
  refine ⟨?_, ?_, ?_, ?_⟩
  · simpa [Permissions.move] using h.seq
  · intro other task' hother
    simp only [Permissions.move] at hother
    obtain rfl | hne := eq_or_ne call other
    · obtain rfl := Option.some.inj (hset.symm.trans hother)
      obtain ⟨hid, hshown, htold⟩ := h.recorded call task hget
      refine ⟨hid, ?_, ?_⟩
      · simp only [Permissions.move, shown_append, shown_own _ habout, hshown, hhistory,
          List.map_append]
      · simp only [Permissions.move, told_append, told_own, htold, hanswers]
    · rw [List.getElem?_set_ne hne] at hother
      obtain ⟨hid, hshown, htold⟩ := h.recorded other task' hother
      have hids : task.permission.reqId ≠ task'.permission.reqId :=
        fun heq => hne (h.call_unique hget hother heq)
      refine ⟨hid, ?_, ?_⟩
      · simp only [Permissions.move, shown_append, shown_other _ habout hids, hshown,
          List.append_nil]
      · simp only [Permissions.move, told_append, told_other _ hne, htold, List.append_nil]
  · intro e he hperm
    rcases List.mem_append.mp he with he | he
    · obtain ⟨other, task', hother, hown⟩ := h.source e he hperm
      obtain rfl | hne := eq_or_ne call other
      · obtain rfl := Option.some.inj (hget.symm.trans hother)
        exact ⟨call, _, hset, hown⟩
      · exact ⟨other, task', by rwa [← List.getElem?_set_ne hne] at hother, hown⟩
    · obtain ⟨body, hbody, rfl⟩ := List.mem_map.mp he
      exact ⟨call, _, hset, habout body hbody⟩
  · intro r hr
    simp only [Permissions.move, List.length_set]
    rcases List.mem_append.mp hr with hr | hr
    · exact h.heard r hr
    · obtain ⟨answer, -, rfl⟩ := List.mem_map.mp hr
      exact hlt

theorem Accounted.step (h : Accounted s) (hlen : t.tasks.length < 2 ^ 32)
    (hstep : s.step a = some t) : Accounted t := by
  cases a with
  | number request => exact h.number hlen hstep
  | display call spawned =>
    simp only [Permissions.step] at hstep
    split at hstep
    · rename_i sessionId permission hget
      obtain rfl := Option.some.inj hstep
      refine h.move hget ?_ ?_ (by simp [about])
      all_goals cases spawned <;> rfl
    · cases hstep
  | decide call decision =>
    simp only [Permissions.step] at hstep
    split at hstep
    · rename_i sessionId permission hget
      obtain rfl := Option.some.inj hstep
      exact h.move hget rfl rfl (by simp [about])
    · cases hstep
  | respond call sent =>
    simp only [Permissions.step] at hstep
    split at hstep
    · rename_i sessionId permission decision hget
      obtain rfl := Option.some.inj hstep
      refine h.move hget ?_ ?_ (by simp)
      all_goals cases sent <;> rfl
    · cases hstep
  | update sessionId update next =>
    simp only [Permissions.step] at hstep
    split at hstep
    · rename_i body hbody
      obtain rfl := Option.some.inj hstep
      have hperm : isPermission body = false := Update.isPermission_eq_false (List.mem_of_getElem? hbody)
      refine ⟨h.seq, fun call task hget => ?_, fun e he hown => ?_, h.heard⟩
      · obtain ⟨hid, hshown, htold⟩ := h.recorded call task hget
        refine ⟨hid, ?_, htold⟩
        rw [shown_append, hshown]
        simp [shown, about_of_isPermission hperm]
      · rcases List.mem_append.mp he with he | he
        · exact h.source e he hown
        · obtain rfl := List.mem_singleton.mp he
          simp [hperm] at hown
    · cases hstep

theorem length_tasks_le (hstep : s.step a = some t) : s.tasks.length ≤ t.tasks.length := by
  cases a <;> simp only [Permissions.step] at hstep
  case number request =>
    obtain rfl := Option.some.inj hstep
    simp
  all_goals
    split at hstep
    all_goals
      cases hstep
      try simp [Permissions.move]

/-- As long as the counter has not come round, every order of the steps keeps the account. -/
theorem accounted_of_run {acts : List PermissionsAct} (hrun : run step new acts = some s)
    (hlen : s.tasks.length < 2 ^ 32) : Accounted s := by
  refine invariant_of_run (I := fun s => s.tasks.length < 2 ^ 32 → Accounted s) ?_
    (fun _ => .new) hrun hlen
  intro s a t ih hstep hlen
  exact (ih ((length_tasks_le hstep).trans_lt hlen)).step hlen hstep

theorem Accounted.mem_history (h : Accounted s) {e : String × TurnEventBody} (he : e ∈ s.emitted)
    (hperm : isPermission e.2) :
    ∃ task ∈ s.tasks, e ∈ task.history.map (task.sessionId, ·) := by
  obtain ⟨call, task, hget, habout⟩ := h.source e he hperm
  refine ⟨task, List.mem_of_getElem? hget, ?_⟩
  rw [← (h.recorded call task hget).shown]
  exact List.mem_filter.mpr ⟨he, habout⟩

/-- An option is selected only where the session shows the approval. -/
theorem Accounted.selected_shown (h : Accounted s) {call : Nat} {optionId : String}
    (hmem : (call, .selected optionId) ∈ s.responses) :
    ∃ task decidedBy, s.tasks[call]? = some task ∧
      (task.sessionId, .permissionResolved task.permission.reqId .approved decidedBy)
        ∈ s.emitted := by
  obtain ⟨task, hget⟩ : ∃ task, s.tasks[call]? = some task :=
    ⟨_, List.getElem?_eq_getElem (h.heard _ hmem)⟩
  obtain ⟨-, hshown, htold⟩ := h.recorded call task hget
  have hanswer : .selected optionId ∈ task.answers := by
    rw [← htold]
    exact List.mem_map.mpr ⟨_, List.mem_filter.mpr ⟨hmem, by simp⟩, rfl⟩
  obtain ⟨sessionId, permission, stage⟩ := task
  cases stage with
  | responded decision =>
    have heq := (permissionResponse_eq_selected.mp (List.mem_singleton.mp hanswer).symm).1
    refine ⟨_, decision.decidedBy, hget, ?_⟩
    have hmem : (sessionId, .permissionResolved permission.reqId decision.outcome
        decision.decidedBy) ∈ shown s.emitted permission.reqId := by
      rw [hshown]
      simp [PermissionTask.history, PermissionTask.resolved]
    rw [heq] at hmem
    exact (List.mem_filter.mp hmem).1
  | _ => cases hanswer

/-- In every order in which the tasks of a connection run, with session updates between them:
no two requests share a number, the sessions show of a request exactly what its task has come
to (first the request, then at most one decision, both in the session that asked), the agent
is told of it only the response to that decision, at most once, and there is no other
permission event. An option is selected only where the session shows the approval. -/
theorem requests_answered_once {acts : List PermissionsAct} (hrun : run step new acts = some s)
    (hlen : s.tasks.length < 2 ^ 32) :
    (∀ (m n : Nat) (task other : PermissionTask), s.tasks[m]? = some task →
      s.tasks[n]? = some other → task.permission.reqId = other.permission.reqId → m = n) ∧
    (∀ (call : Nat) (task : PermissionTask), s.tasks[call]? = some task →
      shown s.emitted task.permission.reqId = task.history.map (task.sessionId, ·) ∧
        told s.responses call = task.answers) ∧
    (∀ e ∈ s.emitted, isPermission e.2 →
      ∃ task ∈ s.tasks, e ∈ task.history.map (task.sessionId, ·)) ∧
    (∀ call optionId, (call, .selected optionId) ∈ s.responses →
      ∃ task decidedBy, s.tasks[call]? = some task ∧
        (task.sessionId, .permissionResolved task.permission.reqId .approved decidedBy)
          ∈ s.emitted) := by
  have h := accounted_of_run hrun hlen
  refine ⟨fun m n task other hm hn => h.call_unique hm hn, fun call task hget => ?_,
    fun e he => h.mem_history he, fun call optionId => h.selected_shown⟩
  exact ⟨(h.recorded call task hget).shown, (h.recorded call task hget).told⟩

/-- Two agents' requests on one connection, decided in the order in which they did not come. -/
def twoRequests : List PermissionsAct :=
  [.number (.v1 ⟨"session-1", "call-1", none, [⟨"allow", "Allow", "\"allow_once\""⟩]⟩),
    .number (.v2 ⟨"session-2", "Run make", none, some (.command "make"), []⟩),
    .display 1 true, .display 0 true,
    .decide 1 ⟨.approved, none, .policy⟩, .update "session-1" (.v1 .prompt .empty) 0,
    .decide 0 ⟨.approved, some "allow", .user⟩, .respond 0 true, .respond 1 true]

theorem requests_answered_once_twoRequests :
    ∃ s, run step new twoRequests = some s ∧
      told s.responses 0 = [.selected "allow"] ∧ told s.responses 1 = [.cancelled] := by
  obtain ⟨s, hs⟩ : ∃ s, s = (run step new twoRequests).getD new := ⟨_, rfl⟩
  have hrun : run step new twoRequests = some s := by
    subst hs
    decide
  obtain ⟨-, hrecorded, -, -⟩ := requests_answered_once hrun (by subst hs; decide)
  subst hs
  exact ⟨_, hrun, (hrecorded 0 _ rfl).2, (hrecorded 1 _ rfl).2⟩

end Permissions

end Tethys.Acp
