import Tethys.Thread.State
import Mathlib.Algebra.Group.Nat.Defs

/-!
# Permission requests across connections

The adapter numbers permission requests with a counter of its own connection
(`Shared::next_request_id` in `tethys-acp/src/client.rs`), while the transcript of a thread
outlives its connections: `ensure_connection` in `tethys-core/src/thread_session.rs` resumes
the session on a fresh connection, whose counter starts again. `Conversation` follows one
thread over any number of connections. A request whose number was already answered finds
the old entry, and the entry keeps its outcome.
-/

namespace Tethys.Core

open Schema Lib Thread

structure ConnectionEvent where
  body : TurnEventBody
  replayed : Bool
  deriving DecidableEq

/-- What the adapter keeps for one connection and one of its sessions: the request counter,
the replay flag, the requests whose resolver has not returned, and the events that the
reader has not taken. -/
structure Shared where
  permissionSeq : Nat
  replaying : Bool
  resolving : List String
  channel : List ConnectionEvent
  deriving DecidableEq

namespace Shared

def new : Shared where
  permissionSeq := 0
  replaying := false
  resolving := []
  channel := []

def emit (s : Shared) (body : TurnEventBody) : Shared :=
  { s with channel := s.channel ++ [⟨body, s.replaying⟩] }

/-- The next request id and the advanced `u32` counter. -/
def nextRequestId (s : Shared) : String × Shared :=
  let next := (s.permissionSeq + 1) % 2 ^ 32
  ("perm-" ++ toString next, { s with permissionSeq := next })

/-- Number an agent's request, show it, and leave it to the resolver. -/
def requestPermission (s : Shared) (request : PermissionRequested) : Shared :=
  let (reqId, s) := s.nextRequestId
  { s.emit (.permissionRequested { request with reqId := reqId }) with
    resolving := s.resolving ++ [reqId] }

end Shared

/-- A thread and its current connection. `unanswered` lists the requests that were applied
live and not resolved since. -/
structure Conversation where
  shared : Shared
  machine : ThreadMachine
  unanswered : List String
  deriving DecidableEq

/-- The steps of a thread over its connections. -/
inductive ConversationAct where
  /-- A fresh connection takes the place of the last one. -/
  | connect
  | setReplaying (replaying : Bool)
  /-- The agent asks on this thread's session, or on another one of the connection. -/
  | requestPermission (request : PermissionRequested)
  | requestElsewhere
  /-- The resolver of a request decides. -/
  | resolve (reqId : String) (outcome : PermOutcome) (decidedBy : Decider)
  /-- A session update of the agent, mapped to an event. -/
  | update (body : TurnEventBody)
  /-- The reader applies the next event, or loses it to a full channel. -/
  | deliver (seq : Nat)
  | lag
  /-- Any other call on the machine. -/
  | call (o : Op)
  deriving DecidableEq

namespace Conversation

def new (id : String) : Conversation where
  shared := .new
  machine := .new id
  unanswered := []

/-- The update mappers produce no permission events. -/
def mapped : TurnEventBody → Bool
  | .permissionRequested _ => false
  | .permissionResolved .. => false
  | _ => true

/-- The unanswered requests after an event is applied. -/
def unansweredAfter (unanswered : List String) : ConnectionEvent → List String
  | ⟨.permissionRequested request, false⟩ => unanswered.insert request.reqId
  | ⟨.permissionResolved reqId _ _, false⟩ => unanswered.filter (· ≠ reqId)
  | _ => unanswered

def origin (event : ConnectionEvent) : EventOrigin := if event.replayed then .replay else .live

/-- Calls the thread session makes on the machine besides applying events. -/
def callable : Op → Bool
  | .apply .. => false
  | _ => true

def step (s : Conversation) : ConversationAct → Option Conversation
  | .connect => some { s with shared := .new }
  | .setReplaying replaying => some { s with shared := { s.shared with replaying := replaying } }
  | .requestPermission request => some { s with shared := s.shared.requestPermission request }
  | .requestElsewhere => some { s with shared := s.shared.nextRequestId.2 }
  | .resolve reqId outcome decidedBy =>
    if reqId ∈ s.shared.resolving then
      some { s with shared :=
        { s.shared.emit (.permissionResolved reqId outcome decidedBy) with
          resolving := s.shared.resolving.erase reqId } }
    else none
  | .update body => if mapped body then some { s with shared := s.shared.emit body } else none
  | .deliver seq =>
    match s.shared.channel with
    | [] => none
    | event :: channel =>
      some {
        shared := { s.shared with channel := channel }
        machine := s.machine.apply seq event.body (origin event)
        unanswered := unansweredAfter s.unanswered event }
  | .lag =>
    match s.shared.channel with
    | [] => none
    | _ :: channel => some { s with shared := { s.shared with channel := channel } }
  | .call o => if callable o then some { s with machine := s.machine.op o } else none

/-- An entry that shows a permission without an answer. -/
def isOpen : Option Entry → Bool
  | some (.permission _ _ none) => true
  | _ => false

/-- Every unanswered permission is shown unanswered. -/
def Shown (s : Conversation) : Prop :=
  ∀ reqId ∈ s.unanswered, isOpen (findMut s.machine.entries reqId) = true

instance : DecidablePred Shown := fun s =>
  inferInstanceAs (Decidable (∀ reqId ∈ s.unanswered,
    isOpen (findMut s.machine.entries reqId) = true))

/-- A live request that is applied names no entry yet, or a permission without an answer. -/
def NewOrOpen (s : Conversation) : ConversationAct → Prop
  | .deliver _ =>
    ∀ request, s.shared.channel.head? = some ⟨.permissionRequested request, false⟩ →
      findMut s.machine.entries request.reqId = none ∨
        isOpen (findMut s.machine.entries request.reqId) = true
  | _ => True

/-! ## What an applied event does to an open permission -/

theorem exists_of_isOpen {entry : Option Entry} (h : isOpen entry = true) :
    ∃ reqId request, entry = some (.permission reqId request none) := by
  unfold isOpen at h
  split at h
  · exact ⟨_, _, rfl⟩
  · cases h

/-- Only its own resolution closes an open permission. -/
theorem isOpen_live {entries : List Entry} {event : TurnEventBody} {reqId : String}
    (h : isOpen (findMut entries reqId) = true)
    (hres : ∀ outcome decidedBy, event ≠ .permissionResolved reqId outcome decidedBy) :
    isOpen (findMut (entryReducer.live entries event) reqId) = true := by
  obtain ⟨id, request, hfind⟩ := exists_of_isOpen h
  by_cases ht : targetId event = some reqId
  · have hlive := Reducer.lookup_live_of_some (R := entryReducer) ht hfind
    rw [findMut, hlive]
    cases event with
    | permissionResolved reqId' outcome decidedBy =>
      obtain rfl : reqId' = reqId := Option.some.inj ht
      exact absurd rfl (hres outcome decidedBy)
    | _ => simp [touch, isOpen]
  · rw [findMut, Reducer.lookup_live_of_ne (R := entryReducer) ht]
    exact h

theorem isOpen_replay {entries : List Entry} {event : TurnEventBody} {reqId : String}
    (h : isOpen (findMut entries reqId) = true) :
    isOpen (findMut (entryReducer.replay entries event) reqId) = true := by
  obtain ⟨id, request, hfind⟩ := exists_of_isOpen h
  have hkept := Reducer.lookup_foldl_replay (R := entryReducer) [event] hfind
  rw [List.foldl_cons, List.foldl_nil] at hkept
  rw [findMut, hkept]
  rfl

/-- A live request is shown open exactly when its id was free or open before: an answered
permission keeps its outcome, and an entry of another kind stays what it is. -/
theorem isOpen_live_requested (entries : List Entry) (request : PermissionRequested) :
    isOpen (findMut (entryReducer.live entries (.permissionRequested request)) request.reqId) =
        true ↔
      findMut entries request.reqId = none ∨ isOpen (findMut entries request.reqId) = true := by
  have ht : targetId (.permissionRequested request) = some request.reqId := rfl
  cases hfind : findMut entries request.reqId with
  | none =>
    rw [findMut, Reducer.lookup_live_of_none (R := entryReducer) ht hfind]
    simp [freshEntry, isOpen]
  | some entry =>
    rw [findMut, Reducer.lookup_live_of_some (R := entryReducer) ht hfind]
    cases entry with
    | permission reqId earlier outcome => cases outcome <;> simp [touch, isOpen]
    | _ => simp [touch, isOpen]

/-! ## Runs -/

variable {s t : Conversation} {a : ConversationAct}

/-- A step applies the next event of the channel, or leaves transcript and requests. -/
theorem step_cases (h : s.step a = some t) :
    (∃ seq event channel, a = .deliver seq ∧ s.shared.channel = event :: channel ∧
      t.machine = s.machine.apply seq event.body (origin event) ∧
      t.unanswered = unansweredAfter s.unanswered event) ∨
    ((∀ seq, a ≠ .deliver seq) ∧ t.machine.entries = s.machine.entries ∧
      t.unanswered = s.unanswered) := by
  cases a with
  | deliver seq =>
    left
    simp only [step] at h
    split at h
    · cases h
    · next event channel hch =>
      cases h
      exact ⟨seq, event, channel, rfl, hch, rfl, rfl⟩
  | call o =>
    right
    simp only [step, Option.ite_none_right_eq_some] at h
    obtain ⟨hcall, h⟩ := h
    cases h
    refine ⟨nofun, ?_, rfl⟩
    cases o with
    | apply => cases hcall
    | markResumed =>
      simp only [ThreadMachine.op, ThreadMachine.markResumed]
      split <;> rfl
    | _ => rfl
  | lag =>
    right
    simp only [step] at h
    split at h
    · cases h
    · cases h
      exact ⟨nofun, rfl, rfl⟩
  | resolve | update =>
    right
    simp only [step, Option.ite_none_right_eq_some] at h
    cases h.2
    exact ⟨nofun, rfl, rfl⟩
  | _ =>
    right
    cases h
    exact ⟨nofun, rfl, rfl⟩

theorem shown_step (hs : s.Shown) (ok : s.NewOrOpen a) (h : s.step a = some t) : t.Shown := by
  obtain ⟨seq, event, channel, rfl, hch, hm, hu⟩ | ⟨_, he, hu⟩ := step_cases h
  · obtain ⟨body, replayed⟩ := event
    intro reqId hreq
    rw [hu] at hreq
    rw [hm]
    cases replayed with
    | true =>
      have hold : reqId ∈ s.unanswered := by
        cases body <;> exact hreq
      rw [origin, if_pos rfl, ThreadMachine.apply_replay_entries]
      exact isOpen_replay (hs reqId hold)
    | false =>
      rw [origin, if_neg Bool.false_ne_true, ThreadMachine.apply_live_entries]
      by_cases hreqd : ∃ request, body = .permissionRequested request ∧ request.reqId = reqId
      · obtain ⟨request, rfl, rfl⟩ := hreqd
        exact (isOpen_live_requested _ request).mpr (ok request (by rw [hch]; rfl))
      · have hres : ∀ outcome decidedBy, body ≠ .permissionResolved reqId outcome decidedBy := by
          rintro outcome decidedBy rfl
          simp [unansweredAfter] at hreq
        have hold : reqId ∈ s.unanswered := by
          cases body with
          | permissionRequested request => grind [unansweredAfter]
          | permissionResolved reqId' outcome decidedBy => grind [unansweredAfter]
          | _ => exact hreq
        exact isOpen_live (hs reqId hold) hres
  · intro reqId hreq
    rw [he]
    exact hs reqId (hu ▸ hreq)

/-- A request under a used id shows wrongly as soon as it is applied. -/
theorem newOrOpen_of_shown (h : s.step a = some t) (ht : t.Shown) : s.NewOrOpen a := by
  obtain ⟨seq, event, channel, rfl, hch, hm, hu⟩ | ⟨ha, _, _⟩ := step_cases h
  · intro request hhead
    obtain rfl : event = ⟨.permissionRequested request, false⟩ := by
      simpa [hch] using hhead
    have hmem : request.reqId ∈ t.unanswered := by
      rw [hu]
      simp [unansweredAfter]
    have hopen := ht request.reqId hmem
    rw [hm, origin, if_neg Bool.false_ne_true, ThreadMachine.apply_live_entries] at hopen
    exact (isOpen_live_requested _ request).mp hopen
  · cases a with
    | deliver seq => exact absurd rfl (ha seq)
    | _ => trivial

end Conversation

/-- Over every run of connections and events, each unanswered permission is shown unanswered
in every state if and only if no live request is applied under the id of an answered
permission or of an entry of another kind. -/
theorem unanswered_shown_iff (id : String) (acts : List ConversationAct) :
    Always Conversation.step Conversation.Shown (.new id) acts ↔
      Meets Conversation.step Conversation.NewOrOpen (.new id) acts :=
  always_iff_meets (fun _ h => h) (fun _ _ _ => Conversation.shown_step)
    (fun _ _ _ _ => Conversation.newOrOpen_of_shown) (fun _ h => by cases h)

/-- The second connection numbers its first request like the first one did. -/
def renumberedRequest : List ConversationAct :=
  [.requestPermission ⟨"", "edit", none, none, []⟩, .deliver 1,
   .resolve "perm-1" .approved .user, .deliver 2,
   .connect, .requestPermission ⟨"", "delete", none, none, []⟩, .deliver 3]

theorem unanswered_shown_approved :
    ¬ Always Conversation.step Conversation.Shown (.new "thread") renumberedRequest := by
  decide

end Tethys.Core
