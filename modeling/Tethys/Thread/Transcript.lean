import Tethys.Thread.State

/-!
# The shape of a transcript

What no run of a thread can do to its entries. A replay adds entries and touches nothing else,
and a second one adds none. Over any calls, ids stay distinct and every position keeps its id
and kind; the entry under an id is made by the events that carry this id alone, so that streams
for different ids may be interleaved in any way.
-/

namespace Tethys.Thread

open Schema Lib ThreadMachine

/-! ## Replays -/

/-- A replay reaches the entries and the sequence number only. -/
theorem applyAll_replay_eq (m : ThreadMachine) (events : List (Nat × TurnEventBody)) :
    m.applyAll events .replay = { m with
      entries := (events.map Prod.snd).foldl entryReducer.replay m.entries
      latestSeq := (m.applyAll events .replay).latestSeq } := by
  rw [← applyAll_replay_entries]
  induction events generalizing m with
  | nil => rfl
  | cons event events ih =>
    have hstep := ih (m.apply event.1 event.2 .replay)
    rw [applyAll, List.foldl_cons]
    exact hstep

/-- For every machine and every replayed sequence: state, turns, title and session stay, the old
entries are a prefix of the new ones, and replaying the same events again, under any numbers,
changes nothing but the sequence number. -/
theorem replay_keeps_history (m : ThreadMachine) (events : List (Nat × TurnEventBody)) :
    let replayed := m.applyAll events .replay
    replayed.state = m.state ∧ replayed.turns = m.turns ∧ replayed.title = m.title ∧
    replayed.sessionId = m.sessionId ∧ m.entries <+: replayed.entries ∧
    ∀ again : List (Nat × TurnEventBody), again.map Prod.snd = events.map Prod.snd →
      replayed.applyAll again .replay =
        { replayed with latestSeq := (replayed.applyAll again .replay).latestSeq } := by
  intro replayed
  have hreplayed : replayed = _ := applyAll_replay_eq m events
  have hentries : replayed.entries = (events.map Prod.snd).foldl entryReducer.replay m.entries :=
    applyAll_replay_entries m events
  refine ⟨?_, ?_, ?_, ?_, ?_, ?_⟩
  · rw [hreplayed]
  · rw [hreplayed]
  · rw [hreplayed]
  · rw [hreplayed]
  · rw [hentries, Reducer.foldl_replay_eq]
    exact List.prefix_append _ _
  · intro again hagain
    have hknown : (events.map Prod.snd).foldl entryReducer.replay replayed.entries =
        replayed.entries := by
      refine Reducer.foldl_replay_of_known fun event hevent e hfresh => ?_
      rw [hentries]
      exact Reducer.key_fresh_mem_foldl_replay m.entries hevent hfresh
    have hsecond := applyAll_replay_eq replayed again
    rwa [hagain, hknown] at hsecond

/-! ## Runs -/

/-- The event that a call applies, and whether it is replayed. -/
def Op.event : Op → Option (TurnEventBody × Bool)
  | .apply _ event origin => some (event, decide (origin = .replay))
  | _ => none

/-- The call applies an event for the entry `x`. -/
def Op.carries (x : String) (o : Op) : Bool := o.event.any fun event => targetId event.1 = some x

/-- The machine after a list of calls. -/
def ThreadMachine.calls (m : ThreadMachine) (ops : List Op) : ThreadMachine := ops.foldl op m

theorem op_entries (m : ThreadMachine) (o : Op) :
    (m.op o).entries = o.event.toList.foldl entryReducer.step m.entries := by
  cases o with
  | apply seq event origin =>
    cases origin with
    | live => exact apply_live_entries m seq event
    | replay => exact apply_replay_entries m seq event
  | markResumed =>
    change (markResumed m).entries = m.entries
    unfold markResumed
    split_ifs <;> rfl
  | _ => rfl

theorem calls_entries (m : ThreadMachine) (ops : List Op) :
    (m.calls ops).entries = (ops.filterMap Op.event).foldl entryReducer.step m.entries := by
  induction ops generalizing m with
  | nil => rfl
  | cons o ops ih =>
    have hrest := ih (m.op o)
    rw [op_entries] at hrest
    cases ho : o.event with
    | none => simpa [calls, List.filterMap_cons, ho] using hrest
    | some event => simpa [calls, List.filterMap_cons, ho] using hrest

theorem filterMap_carries (x : String) (ops : List Op) :
    (ops.filter (·.carries x)).filterMap Op.event =
      (ops.filterMap Op.event).filter fun event => targetId event.1 = some x := by
  induction ops with
  | nil => rfl
  | cons o ops ih =>
    cases ho : o.event with
    | none =>
      have hcarries : o.carries x = false := by simp [Op.carries, ho]
      simp [hcarries, ho, ih]
    | some event =>
      have hcarries : o.carries x = decide (targetId event.1 = some x) := by simp [Op.carries, ho]
      by_cases hx : targetId event.1 = some x <;>
        simp [hcarries, ho, hx, ih]

/-- The entry under an id is made by the calls that carry the id. -/
theorem findMut_calls (id x : String) (ops : List Op) :
    findMut ((ThreadMachine.new id).calls ops).entries x =
      findMut ((ThreadMachine.new id).calls (ops.filter (·.carries x))).entries x := by
  have hfold : ∀ events : List (TurnEventBody × Bool),
      lookup Entry.entryId x (events.foldl entryReducer.step []) =
        (events.filter fun event => targetId event.1 = some x).foldl entryReducer.act none :=
    fun events => Reducer.lookup_foldl_step (R := entryReducer) events []
  simp only [findMut, calls_entries, filterMap_carries]
  change lookup _ x (List.foldl _ [] _) = lookup _ x (List.foldl _ [] _)
  rw [hfold, hfold, List.filter_filter]
  simp only [Bool.and_self]

theorem nodup_calls (id : String) (ops : List Op) :
    (((ThreadMachine.new id).calls ops).entries.map Entry.entryId).Nodup := by
  rw [calls_entries]
  exact Reducer.nodup_foldl_step (R := entryReducer) List.nodup_nil

/-- Over every run from a new thread: ids are distinct; the list of ids and kinds only grows, at
its end; the entry under an id is the one that the calls carrying this id make alone; and runs
with the same calls for each id, however interleaved, have the same entries up to their order. -/
theorem transcript_shape (id : String) (ops : List Op) :
    let m := (ThreadMachine.new id).calls ops
    (m.entries.map Entry.entryId).Nodup ∧
    (∀ more, m.entries.map shape <+: (m.calls more).entries.map shape) ∧
    (∀ x, findMut m.entries x =
      findMut ((ThreadMachine.new id).calls (ops.filter (·.carries x))).entries x) ∧
    ∀ ops' : List Op, (∀ x, ops'.filter (·.carries x) = ops.filter (·.carries x)) →
      ((ThreadMachine.new id).calls ops').entries.Perm m.entries := by
  intro m
  refine ⟨nodup_calls id ops, ?_, fun x => findMut_calls id x ops, ?_⟩
  · intro more
    rw [calls_entries m more]
    exact Reducer.map_foldl_step_grows shape_touch _ _
  · intro ops' hops
    refine perm_of_lookup_eq (nodup_calls id ops') (nodup_calls id ops) fun x => ?_
    have h := findMut_calls id x ops'
    have h' := findMut_calls id x ops
    rw [hops] at h
    exact h.trans h'.symm

end Tethys.Thread
