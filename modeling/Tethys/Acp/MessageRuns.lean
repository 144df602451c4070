import Mathlib.Data.List.Induction
import Tethys.Acp.MapV1
import Tethys.Lib.Segments
import Tethys.Lib.Text
import Tethys.Thread.Entries

/-!
# The messages of a v1 session

Which chunks of a v1 session make up one message, and whether the ids that `v1_update` gives
to chunks keep the messages apart. `SyntheticMessageIds` sees the chunks only: a chunk
without `messageId` opens a run (`Tethys.Lib.Segments`) when the chunk before it has another
role or an id of its own, whatever other updates and prompts came between.
-/

namespace Tethys.Acp

open Schema Lib

/-! ## Messages -/

/-- The role of a message chunk, and its own id if it has one. -/
def chunkOf : V1Event → Option (Role × Option String)
  | .update (.userMessageChunk chunk) => some (.user, chunk.messageId)
  | .update (.agentMessageChunk chunk) => some (.agent, chunk.messageId)
  | .update (.agentThoughtChunk chunk) => some (.thought, chunk.messageId)
  | _ => none

/-- The response to a prompt, which ends no message and starts none. -/
def V1Event.isResponse : V1Event → Bool
  | .response _ => true
  | _ => false

/-- Two chunks belong to one message: they have the same id, or neither has an id and they
are in one contiguous run of their role, with no other update and no new prompt between. -/
def SameMessage (x : Role × Option String) (between : List V1Event) (y : Role × Option String) :
    Prop :=
  match x.2, y.2 with
  | none, none => x.1 = y.1 ∧ ∀ e ∈ between, chunkOf e = some (x.1, none) ∨ e.isResponse = true
  | some id, some id' => id = id'
  | _, _ => False

/-- The id that a chunk gets from `v1_update` after a history. -/
def messageIdAt (history : List V1Event) (event : V1Event) : Option String :=
  (emitted history event).findSome? fun
    | .messageChunk chunk => some chunk.messageId
    | _ => none

/-- Applies the events one after the other, live or replayed. -/
def applyEvents (entries : List Entry) (events : List TurnEventBody) (replayed : Bool) :
    List Entry :=
  events.foldl (fun entries event => (Thread.applyEvent entries event replayed).1) entries

/-- The ids of a history delimit its messages: two chunks have the same id exactly when they
belong to one message, and a chunk leaves the entry of every other message as it is, whatever
the entries are by then. -/
structure Delimits (history : List V1Event) : Prop where
  same_id_iff : ∀ a x b y c, history = a ++ x :: (b ++ y :: c) → ∀ cx cy, chunkOf x = some cx →
    chunkOf y = some cy → (messageIdAt a x = messageIdAt (a ++ x :: b) y ↔ SameMessage cx b cy)
  apart : ∀ a x b y c, history = a ++ x :: (b ++ y :: c) → ∀ cx cy, chunkOf x = some cx →
    chunkOf y = some cy → ¬ SameMessage cx b cy → ∀ id, messageIdAt a x = some id →
      ∀ entries replayed, Thread.findMut
        (applyEvents entries (emitted (a ++ x :: b) y) replayed) id = Thread.findMut entries id

/-! ## When they do -/

/-- What an event is to the synthetic ids. -/
def mark (event : V1Event) : Mark Role :=
  match chunkOf event with
  | none => .pass
  | some (_, some _) => .cut
  | some (role, none) => .item role

/-- The number of runs of chunks without `messageId`, where a run ends at a chunk of another
role or with an id. -/
def chunkRuns (history : List V1Event) : Nat := starts none (history.map mark)

/-- No update of another kind and no prompt comes between two chunks of one role without
`messageId` that follow each other. -/
def Unbroken (history : List V1Event) : Prop :=
  ∀ a x b y c, history = a ++ x :: (b ++ y :: c) → ∀ role, chunkOf x = some (role, none) →
    chunkOf y = some (role, none) → (∀ e ∈ b, chunkOf e = none) → ∀ e ∈ b, e.isResponse = true

/-- No agent picks an id that the session makes up for its own runs. -/
def NoClash (history : List V1Event) : Prop :=
  ∀ e ∈ history, ∀ role id, chunkOf e = some (role, some id) →
    ∀ n, 1 ≤ n → n ≤ chunkRuns history → id ≠ syntheticId (UInt32.ofNat n)

/-! ## The ids that are given -/

section Ids
variable {history : List V1Event} {event : V1Event} {role : Role}

theorem emit_of_chunk {explicit : Option String} (h : chunkOf event = some (role, explicit))
    (ids : SyntheticMessageIds) :
    ∃ block, emit ids event =
      ([.messageChunk ⟨(ids.id explicit role).1, role, block⟩], (ids.id explicit role).2) := by
  cases event with
  | prompt | response _ => cases h
  | update update =>
    cases update with
    | userMessageChunk chunk | agentMessageChunk chunk | agentThoughtChunk chunk =>
      cases h
      exact ⟨contentBlock chunk.content, rfl⟩
    | _ => cases h

theorem emit_of_not_chunk (h : chunkOf event = none) (ids : SyntheticMessageIds) :
    (emit ids event).2 = ids := by
  cases event with
  | prompt | response _ => rfl
  | update update =>
    cases update with
    | userMessageChunk chunk | agentMessageChunk chunk | agentThoughtChunk chunk => cases h
    | _ => rfl

/-- One event: the last role is the kind of the open run, the ordinal counts the runs. -/
theorem emit_ids (event : V1Event) (current : Option Role) (n : Nat) :
    (emit ⟨current, UInt32.ofNat n⟩ event).2 =
      ⟨(mark event).after current, UInt32.ofNat (n + ((mark event).opens current).toNat)⟩ := by
  cases hchunk : chunkOf event with
  | none => simp [emit_of_not_chunk hchunk, mark, hchunk, Mark.after, Mark.opens]
  | some chunk =>
    obtain ⟨role, explicit⟩ := chunk
    obtain ⟨block, hemit⟩ := emit_of_chunk hchunk ⟨current, UInt32.ofNat n⟩
    rw [hemit]
    cases explicit with
    | some id => simp [SyntheticMessageIds.id, mark, hchunk, Mark.after, Mark.opens]
    | none =>
      by_cases hrole : current = some role
      · simp [SyntheticMessageIds.id, mark, hchunk, Mark.after, Mark.opens, hrole]
      · simp [SyntheticMessageIds.id, mark, hchunk, Mark.after, Mark.opens, hrole]

/-- The ids after a whole history. -/
theorem idsAfter_eq (history : List V1Event) :
    idsAfter history = ⟨openAfter none (history.map mark), UInt32.ofNat (chunkRuns history)⟩ := by
  induction history using List.reverseRecOn with
  | nil => rfl
  | append_singleton history event ih =>
    have hstep : idsAfter (history ++ [event]) = (emit (idsAfter history) event).2 := by
      simp [idsAfter]
    rw [hstep, ih, emit_ids]
    simp [chunkRuns, starts_append, openAfter_append]

theorem chunkRuns_append_singleton :
    chunkRuns (history ++ [event]) =
      chunkRuns history + ((mark event).opens (openAfter none (history.map mark))).toNat := by
  simp [chunkRuns, starts_append]

theorem messageIdAt_explicit {id : String} (h : chunkOf event = some (role, some id)) :
    messageIdAt history event = some id := by
  obtain ⟨block, hemit⟩ := emit_of_chunk h (idsAfter history)
  simp [messageIdAt, emitted, hemit, SyntheticMessageIds.id]

/-- A chunk without `messageId` gets the number of its run. -/
theorem messageIdAt_synthetic (h : chunkOf event = some (role, none)) :
    messageIdAt history event =
      some (syntheticId (UInt32.ofNat (chunkRuns (history ++ [event])))) := by
  obtain ⟨block, hemit⟩ := emit_of_chunk h (idsAfter history)
  have hids : ((idsAfter history).id none role).2.ordinal =
      UInt32.ofNat (chunkRuns (history ++ [event])) := by
    have hstep := emit_ids event (openAfter none (history.map mark)) (chunkRuns history)
    rw [← idsAfter_eq, hemit, ← chunkRuns_append_singleton] at hstep
    exact congrArg SyntheticMessageIds.ordinal hstep
  have hid : ((idsAfter history).id none role).1 =
      syntheticId ((idsAfter history).id none role).2.ordinal := rfl
  simp only [messageIdAt, emitted, hemit, List.findSome?_cons, hid, hids]

end Ids

/-! ## Two chunks -/

section Pairs
variable {a b : List V1Event} {x y : V1Event} {role role' : Role}

theorem mark_of_bare (h : chunkOf x = some (role, none)) : mark x = .item role := by
  simp [mark, h]

theorem mark_eq_item : mark x = .item role ↔ chunkOf x = some (role, none) := by
  unfold mark
  split <;> simp_all

theorem mark_eq_pass : mark x = .pass ↔ chunkOf x = none := by
  unfold mark
  split <;> simp_all

/-- A response is no chunk. -/
theorem not_chunk_or_bare (h : chunkOf x = some (role, none) ∨ x.isResponse = true) :
    chunkOf x = none ∨ chunkOf x = some (role, none) := by
  rcases h with hchunk | hresponse
  · exact Or.inr hchunk
  · cases x with
    | response _ => exact Or.inl rfl
    | update _ | prompt => cases hresponse

/-- The runs that start after a chunk without an id. -/
theorem chunkRuns_split (hx : chunkOf x = some (role, none)) :
    chunkRuns (a ++ x :: b) = chunkRuns (a ++ [x]) + starts (some role) (b.map mark) := by
  rw [← List.singleton_append, ← List.append_assoc]
  simp only [chunkRuns, List.map_append, List.map_cons, List.map_nil, mark_of_bare hx]
  rw [starts_append, openAfter_append]
  rfl

/-- The numbers of two chunks without an id are equal when no run starts after the first. -/
theorem chunkRuns_eq_iff (hx : chunkOf x = some (role, none)) (hy : chunkOf y = some (role', none)) :
    chunkRuns (a ++ x :: b ++ [y]) = chunkRuns (a ++ [x]) ↔
      role' = role ∧ ∀ e ∈ b, chunkOf e = none ∨ chunkOf e = some (role, none) := by
  have hsplit : a ++ x :: b ++ [y] = a ++ x :: (b ++ [y]) := by simp
  rw [hsplit, chunkRuns_split hx, Nat.add_eq_left, List.map_append, List.map_singleton,
    mark_of_bare hy, starts_eq_zero_iff]
  simp only [List.forall_mem_map, mark_eq_pass, mark_eq_item]

theorem chunkRuns_pos (hx : chunkOf x = some (role, none)) : 1 ≤ chunkRuns (a ++ [x]) := by
  simp only [chunkRuns, List.map_append, List.map_singleton, mark_of_bare hx]
  exact starts_item_pos

theorem chunkRuns_le_append : chunkRuns a ≤ chunkRuns (a ++ b) := by
  simp only [chunkRuns, List.map_append, starts_append]
  omega

theorem syntheticId_injective {m n : UInt32} (h : syntheticId m = syntheticId n) : m = n := by
  have hchars := congrArg String.toList h
  simp only [syntheticId, String.toList_append] at hchars
  exact UInt32.toNat_inj.mp (toString_injective (List.append_cancel_left hchars))

/-- Numbers that stay below the range of the counter are told apart by their ids. -/
theorem syntheticId_eq_iff {m n : Nat} (hm : 1 ≤ m) (hmn : m ≤ n) (hn : n ≤ 2 ^ 32) :
    syntheticId (UInt32.ofNat m) = syntheticId (UInt32.ofNat n) ↔ n = m := by
  constructor
  · intro h
    have hmod := congrArg UInt32.toNat (syntheticId_injective h)
    simp only [UInt32.toNat_ofNat'] at hmod
    omega
  · rintro rfl
    rfl

end Pairs

/-! ## The condition is enough -/

section Enough
variable {history : List V1Event} {a b c : List V1Event} {x y : V1Event} {role : Role}

/-- In an unbroken history the events between two chunks of one run are chunks of the run or
responses. `front` holds what has been seen since the last chunk `x`. -/
theorem Unbroken.between (h : Unbroken history) (front : List V1Event)
    (heq : history = a ++ x :: (front ++ (b ++ y :: c))) (hx : chunkOf x = some (role, none))
    (hy : chunkOf y = some (role, none)) (hfront : ∀ e ∈ front, chunkOf e = none)
    (hb : ∀ e ∈ b, chunkOf e = none ∨ chunkOf e = some (role, none)) :
    ∀ e ∈ front ++ b, chunkOf e = some (role, none) ∨ e.isResponse = true := by
  induction b generalizing a x front with
  | nil =>
    intro e he
    rw [List.append_nil] at he
    exact Or.inr (h a x front y c heq role hx hy hfront e he)
  | cons d b ih =>
    have hrest : ∀ e ∈ b, chunkOf e = none ∨ chunkOf e = some (role, none) :=
      fun e he => hb e (List.mem_cons_of_mem d he)
    rcases hb d List.mem_cons_self with hd | hd
    · have hfront' : ∀ e ∈ front ++ [d], chunkOf e = none := by
        intro e he
        rcases List.mem_append.mp he with he | he
        · exact hfront e he
        · exact List.mem_singleton.mp he ▸ hd
      have := ih (front ++ [d]) (by simpa using heq) hx hfront' hrest
      simpa using this
    · have hseen := h a x front d (b ++ y :: c) (by simpa using heq) role hx hd hfront
      have hlater := ih (a := a ++ x :: front) [] (by simpa using heq) hd (by simp) hrest
      intro e he
      rcases List.mem_append.mp he with he | he
      · exact Or.inr (hseen e he)
      · rcases List.mem_cons.mp he with rfl | he
        · exact Or.inl hd
        · exact hlater e (by simpa using he)

/-- The id of a chunk without one is an id of the session. -/
theorem messageIdAt_ne_explicit (h : NoClash history) (hmem : y ∈ history) {role' : Role} {id : String}
    (hy : chunkOf y = some (role', some id)) (heq : history = a ++ x :: b)
    (hx : chunkOf x = some (role, none)) : messageIdAt a x ≠ some id := by
  rw [messageIdAt_synthetic hx]
  intro hid
  refine h y hmem role' id hy _ (chunkRuns_pos hx) ?_ (Option.some.inj hid).symm
  have hsplit : history = (a ++ [x]) ++ b := by simpa using heq
  exact hsplit ▸ chunkRuns_le_append

theorem same_id_iff_of_unbroken (hunbroken : Unbroken history) (hclash : NoClash history)
    (hruns : chunkRuns history ≤ 2 ^ 32) (heq : history = a ++ x :: (b ++ y :: c))
    {cx cy : Role × Option String} (hx : chunkOf x = some cx) (hy : chunkOf y = some cy) :
    messageIdAt a x = messageIdAt (a ++ x :: b) y ↔ SameMessage cx b cy := by
  have hmemx : x ∈ history := by simp [heq]
  have hmemy : y ∈ history := by simp [heq]
  have heqy : history = (a ++ x :: b) ++ y :: c := by simpa using heq
  obtain ⟨role, explicit⟩ := cx
  obtain ⟨role', explicit'⟩ := cy
  cases explicit with
  | some id =>
    rw [messageIdAt_explicit hx]
    cases explicit' with
    | some id' => simp [messageIdAt_explicit hy, SameMessage]
    | none =>
      have hne := messageIdAt_ne_explicit hclash hmemx hx heqy hy
      simpa [SameMessage] using hne.symm
  | none =>
    cases explicit' with
    | some id' =>
      rw [messageIdAt_explicit hy]
      have hne := messageIdAt_ne_explicit hclash hmemy hy heq hx
      simpa [SameMessage] using hne
    | none =>
      -- Both numbers are in the range of the counter, so equal ids are equal numbers.
      have hmn : chunkRuns (a ++ [x]) ≤ chunkRuns (a ++ x :: b ++ [y]) := by
        have hsplit : a ++ x :: b ++ [y] = (a ++ [x]) ++ (b ++ [y]) := by simp
        exact hsplit ▸ chunkRuns_le_append
      have hn : chunkRuns (a ++ x :: b ++ [y]) ≤ 2 ^ 32 := by
        have hsplit : history = (a ++ x :: b ++ [y]) ++ c := by simpa using heq
        exact le_trans (hsplit ▸ chunkRuns_le_append) hruns
      rw [messageIdAt_synthetic hx, messageIdAt_synthetic hy, Option.some.injEq,
        syntheticId_eq_iff (chunkRuns_pos hx) hmn hn, chunkRuns_eq_iff hx hy]
      constructor
      · rintro ⟨rfl, hb⟩
        exact ⟨rfl, hunbroken.between [] heq hx hy (by simp) hb⟩
      · rintro ⟨rfl, hb⟩
        exact ⟨rfl, fun e he => not_chunk_or_bare (hb e he)⟩

/-- A chunk changes no entry but that with its own id. -/
theorem findMut_applyEvents_of_ne {chunk : Role × Option String} (hy : chunkOf y = some chunk)
    {id : String} (hne : messageIdAt a y ≠ some id) (entries : List Entry) (replayed : Bool) :
    Thread.findMut (applyEvents entries (emitted a y) replayed) id = Thread.findMut entries id := by
  obtain ⟨block, hemit⟩ := emit_of_chunk hy (idsAfter a)
  simp only [messageIdAt, emitted, hemit, List.findSome?_cons] at hne
  simp only [applyEvents, emitted, hemit, List.foldl_cons, List.foldl_nil]
  cases replayed with
  | false =>
    rw [Thread.applyEvent_live]
    exact Reducer.lookup_live_of_ne (R := Thread.entryReducer) hne
  | true =>
    rw [Thread.applyEvent_replay]
    exact (Reducer.lookup_replay (R := Thread.entryReducer) entries _).trans (if_neg hne)

theorem apart_of_same_id_iff {cx cy : Role × Option String} (hy : chunkOf y = some cy)
    (hsame : messageIdAt a x = messageIdAt (a ++ x :: b) y ↔ SameMessage cx b cy)
    (hother : ¬ SameMessage cx b cy) {id : String} (hid : messageIdAt a x = some id)
    (entries : List Entry) (replayed : Bool) :
    Thread.findMut (applyEvents entries (emitted (a ++ x :: b) y) replayed) id =
      Thread.findMut entries id := by
  refine findMut_applyEvents_of_ne hy (fun hid' => hother (hsame.mp ?_)) entries replayed
  rw [hid, hid']

end Enough

/-! ## The condition is needed -/

section Needed
variable {history : List V1Event}

/-- Every number up to that of the last run is the number of a chunk. -/
theorem exists_chunk {n : Nat} (hpos : 1 ≤ n) (hn : n ≤ chunkRuns history) :
    ∃ a x role c, history = a ++ x :: c ∧ chunkOf x = some (role, none) ∧
      chunkRuns (a ++ [x]) = n := by
  have hlast : n - 1 < starts none (history.map mark) := by
    change n ≤ starts none (history.map mark) at hn
    omega
  obtain ⟨front, role, rest, hmarks, hnumber, hopens⟩ := exists_start hlast
  obtain ⟨a, c', rfl, rfl, hc⟩ := List.map_eq_append_iff.mp hmarks
  obtain ⟨x, c, rfl, hx, rfl⟩ := List.map_eq_cons_iff.mp hc
  refine ⟨a, x, role, c, rfl, mark_eq_item.mp hx, ?_⟩
  rw [chunkRuns_append_singleton, hx, chunkRuns, hnumber]
  simp only [Mark.opens, ne_eq, hopens, not_false_eq_true, decide_true, Bool.toNat_true]
  omega

theorem Delimits.unbroken (h : Delimits history) : Unbroken history := by
  intro a x b y c heq role hx hy hb e he
  have hsame : messageIdAt a x = messageIdAt (a ++ x :: b) y := by
    rw [messageIdAt_synthetic hx, messageIdAt_synthetic hy,
      (chunkRuns_eq_iff hx hy).mpr ⟨rfl, fun e he => Or.inl (hb e he)⟩]
  obtain ⟨-, hbetween⟩ := (h.same_id_iff a x b y c heq _ _ hx hy).mp hsame
  rcases hbetween e he with hchunk | hresponse
  · rw [hb e he] at hchunk
    cases hchunk
  · exact hresponse

/-- A chunk with an id and one without never have the same id. -/
theorem Delimits.noClash (h : Delimits history) : NoClash history := by
  intro e he role id hchunk n hpos hn hid
  obtain ⟨a, x, role', c, heq, hx, hnumber⟩ := exists_chunk hpos hn
  obtain ⟨a', c', heq'⟩ := List.append_of_mem he
  have hxid : messageIdAt a x = some id := by rw [messageIdAt_synthetic hx, hnumber, hid]
  have heid : messageIdAt a' e = some id := messageIdAt_explicit hchunk
  rcases place_cases (heq.symm.trans heq') with ⟨-, rfl⟩ | ⟨b, rfl, rfl⟩ | ⟨b, rfl, rfl⟩
  · rw [hx] at hchunk
    cases hchunk
  · exact (h.same_id_iff a x b e c' heq _ _ hx hchunk).mp (hxid.trans heid.symm)
  · exact (h.same_id_iff a' e b x c heq' _ _ hchunk hx).mp (heid.trans hxid.symm)

/-- With one run more than the counter has values, the first run and the last get one id. -/
theorem Delimits.chunkRuns_le (h : Delimits history) : chunkRuns history ≤ 2 ^ 32 := by
  by_contra hmany
  obtain ⟨a, x, role, c, heq, hx, hfirst⟩ :=
    exists_chunk le_rfl (show 1 ≤ chunkRuns history by omega)
  obtain ⟨a', y, role', c', heq', hy, hlast⟩ :=
    exists_chunk (by omega) (show 2 ^ 32 + 1 ≤ chunkRuns history by omega)
  rcases place_cases (heq.symm.trans heq') with ⟨rfl, rfl⟩ | ⟨b, rfl, rfl⟩ | ⟨b, rfl, rfl⟩
  · omega
  · have hwrap : UInt32.ofNat 1 = UInt32.ofNat (2 ^ 32 + 1) := by decide
    have hsame : messageIdAt a x = messageIdAt (a ++ x :: b) y := by
      rw [messageIdAt_synthetic hx, messageIdAt_synthetic hy, hfirst, hlast, hwrap]
    obtain ⟨hrole, hbetween⟩ := (h.same_id_iff a x b y c' heq _ _ hx hy).mp hsame
    have hnumbers := (chunkRuns_eq_iff (a := a) hx hy).mpr
      ⟨hrole.symm, fun e he => not_chunk_or_bare (hbetween e he)⟩
    omega
  · -- Later runs have greater numbers.
    have hle : chunkRuns (a' ++ [y]) ≤ chunkRuns (a' ++ [y] ++ (b ++ [x])) := chunkRuns_le_append
    have hsplit : a' ++ [y] ++ (b ++ [x]) = a' ++ y :: b ++ [x] := by simp
    rw [hsplit] at hle
    omega

end Needed

/-- The ids delimit the messages of a history exactly when no other update and no prompt
comes between two successive chunks of a role without `messageId`, no agent picks one of the
ids made up for the session, and the runs are no more than the values of the counter. -/
theorem ids_delimit_iff (history : List V1Event) :
    Delimits history ↔
      Unbroken history ∧ NoClash history ∧ chunkRuns history ≤ 2 ^ 32 := by
  constructor
  · exact fun h => ⟨h.unbroken, h.noClash, h.chunkRuns_le⟩
  · rintro ⟨hunbroken, hclash, hruns⟩
    constructor
    · intro a x b y c heq cx cy hx hy
      exact same_id_iff_of_unbroken hunbroken hclash hruns heq hx hy
    · intro a x b y c heq cx cy hx hy hother id hid entries replayed
      have hsame := same_id_iff_of_unbroken hunbroken hclash hruns heq hx hy
      exact apart_of_same_id_iff hy hsame hother hid entries replayed

/-- Text before and after a tool call is put in one message. -/
theorem tool_call_not_delimited :
    ¬ Delimits
      [.update (.agentMessageChunk ⟨none, .text "I will read it."⟩),
       .update (.toolCall ⟨"tool-1", "Read file", "\"read\"", .pending, [], [], none, none⟩),
       .update (.agentMessageChunk ⟨none, .text "It is empty."⟩)] := by
  intro h
  have hsame := h.same_id_iff [] _ [_] _ [] rfl (.agent, none) (.agent, none) rfl rfl
  have hmessage := hsame.mp (by decide)
  have htool := hmessage.2 _ List.mem_cons_self
  simp [chunkOf, V1Event.isResponse] at htool

end Tethys.Acp
