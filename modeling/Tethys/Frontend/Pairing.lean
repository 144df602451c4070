import Tethys.Frontend.Reducers
import Tethys.Thread.State

/-!
# Pairing the two transcripts

The back end's entries and the front end's list of live entries, entry by entry. Plans,
terminals and errors have no entry in the front end; a permission has one under another id.
-/

namespace Tethys.Frontend

open Schema Lib Thread

/-! ## What both sides show -/

/-- An entry as both sides show it. -/
inductive View where
  | message (id : String) (role : Option Role) (text : Option String)
  | toolCall (id : String) (title : Option String) (status : Option ToolCallStatus)
      (input output : Option String)
  | permission (reqId title : String) (description : Option String) (options : List PermOption)
      (outcome : Option PermOutcome)
  deriving DecidableEq

/-- A back-end entry; the front end shows a tool call without title or status under the
defaults used here. -/
def backView : Entry → Option View
  | .message id role blocks =>
    some (.message id (some role) (some (extractTextFromContentBlocks blocks)))
  | .toolCall id patch =>
    some (.toolCall id (some (patch.title.getD "tool_call")) (some (patch.status.getD .pending))
      patch.input patch.output)
  | .permission reqId request outcome =>
    some (.permission reqId request.title request.description request.options outcome)
  | .plan .. => none
  | .terminal .. => none
  | .error .. => none

def frontView (e : SessionEntry) : Option View :=
  match e.kind with
  | .turnMessage => some (.message e.id e.role e.content)
  | .toolCall => some (.toolCall e.id e.title e.status e.input e.output)
  | .permissionRequest => e.request.map fun request =>
      .permission request.reqId request.title request.description request.options
        (request.resolution.map (·.outcome))
  | .historyDivider => none
  | .other _ => none

/-! ## Pairing the two transcripts -/

/-- Messages and tool calls: the entries the front end finds under their own id. -/
def isText (e : Entry) : Prop := e.kind = .message ∨ e.kind = .toolCall

/-- The id the front end gives an entry. -/
def frontId : Entry → String
  | .permission reqId _ _ => "perm-" ++ reqId
  | e => e.entryId

theorem frontId_of_text {e : Entry} (h : isText e) : frontId e = e.entryId := by
  cases e <;> simp_all [isText, Entry.kind, frontId]

theorem shown_of_text {e : Entry} (h : isText e) : (backView e).isSome := by
  cases e <;> simp_all [isText, Entry.kind, backView]

/-- A back-end entry and the front-end entry that shows it. -/
structure Pair (e : Entry) (f : SessionEntry) : Prop where
  id : f.id = frontId e
  view : frontView f = backView e
  shown : (backView e).isSome

/-- The front-end list shows the back-end list, in order, without the hidden entries. -/
inductive Paired : List Entry → List SessionEntry → Prop
  | nil : Paired [] []
  | hidden {e es fs} : backView e = none → Paired es fs → Paired (e :: es) fs
  | shown {e f es fs} : Pair e f → Paired es fs → Paired (e :: es) (f :: fs)

theorem Paired.views {es : List Entry} {fs : List SessionEntry} (h : Paired es fs) :
    fs.filterMap frontView = es.filterMap backView := by
  induction h with
  | nil => rfl
  | hidden he _ ih => simp [he, ih]
  | shown hp _ ih => simp [List.filterMap_cons, hp.view, ih]

theorem Paired.append_hidden {es : List Entry} {fs : List SessionEntry} {e : Entry}
    (h : Paired es fs) (he : backView e = none) : Paired (es ++ [e]) fs := by
  induction h with
  | nil => exact .hidden he .nil
  | hidden he' _ ih => exact .hidden he' ih
  | shown hp _ ih => exact .shown hp ih

theorem Paired.append_shown {es : List Entry} {fs : List SessionEntry} {e : Entry}
    {f : SessionEntry} (h : Paired es fs) (hp : Pair e f) : Paired (es ++ [e]) (fs ++ [f]) := by
  induction h with
  | nil => exact .shown hp .nil
  | hidden he' _ ih => exact .hidden he' ih
  | shown hp' _ ih => exact .shown hp' ih

/-- A mutation of a hidden entry does not show. -/
theorem Paired.put_hidden {es : List Entry} {fs : List SessionEntry} {x : String} {e' : Entry}
    (h : Paired es fs) (hold : ∀ e, lookup Entry.entryId x es = some e → backView e = none)
    (hnew : backView e' = none) : Paired (put Entry.entryId x e' es) fs := by
  induction h with
  | nil => exact .nil
  | @hidden e es fs he hrest ih =>
    unfold put
    split_ifs with hk
    · exact .hidden hnew hrest
    · exact .hidden he (ih fun e₂ h₂ => hold e₂ (by rw [lookup_cons, if_neg hk, h₂]))
  | @shown e f es fs hp hrest ih =>
    unfold put
    split_ifs with hk
    · have hnone := hold e (by rw [lookup_cons, if_pos hk])
      have hshown := hp.shown
      simp [hnone] at hshown
    · exact .shown hp (ih fun e₂ h₂ => hold e₂ (by rw [lookup_cons, if_neg hk, h₂]))

/-- A change of a front-end entry that keeps its view and id does not show. -/
theorem Paired.put_same_view {es : List Entry} {fs : List SessionEntry} {x : String}
    {f f' : SessionEntry} (h : Paired es fs) (hf : lookup SessionEntry.id x fs = some f)
    (hid : f'.id = f.id) (hview : frontView f' = frontView f) :
    Paired es (put SessionEntry.id x f' fs) := by
  induction h with
  | nil => exact .nil
  | hidden he _ ih => exact .hidden he (ih hf)
  | @shown e g es fs hp hrest ih =>
    rw [lookup_cons] at hf
    unfold put
    split_ifs at hf ⊢ with hk
    · cases hf
      exact .shown ⟨hid.trans hp.id, hview.trans hp.view, hp.shown⟩ hrest
    · exact .shown hp (ih hf)

/-- No message or tool call carries an id that the front end gave a permission before it. -/
def Unshadowed (a b : String × EntryKind) : Prop :=
  a.2 = .permission → b.2 = .message ∨ b.2 = .toolCall → b.1 ≠ "perm-" ++ a.1

/-- Where the back end finds a message or a tool call, the front end finds its pair, and
both lists can change that entry together. -/
theorem Paired.find_text {es : List Entry} {fs : List SessionEntry} {x : String} {e : Entry}
    (h : Paired es fs) (ho : (es.map shape).Pairwise Unshadowed)
    (he : lookup Entry.entryId x es = some e) (ht : isText e) :
    ∃ f, lookup SessionEntry.id x fs = some f ∧ Pair e f ∧
      ∀ e' f', Pair e' f' → Paired (put Entry.entryId x e' es) (put SessionEntry.id x f' fs) := by
  induction h with
  | nil => simp at he
  | @hidden e₀ es fs he₀ hrest ih =>
    have hk : e₀.entryId ≠ x := by
      intro hk
      rw [lookup_cons, if_pos hk] at he
      cases he
      have hshown := shown_of_text ht
      simp [he₀] at hshown
    rw [lookup_cons, if_neg hk] at he
    rw [List.map_cons, List.pairwise_cons] at ho
    obtain ⟨f, hf, hp, hput⟩ := ih ho.2 he
    refine ⟨f, hf, hp, fun e' f' hp' => ?_⟩
    rw [put, if_neg hk]
    exact .hidden he₀ (hput e' f' hp')
  | @shown e₀ f₀ es fs hp₀ hrest ih =>
    rw [List.map_cons, List.pairwise_cons] at ho
    by_cases hk : e₀.entryId = x
    · rw [lookup_cons, if_pos hk] at he
      cases he
      have hid : f₀.id = x := hp₀.id.trans ((frontId_of_text ht).trans hk)
      refine ⟨f₀, by rw [lookup_cons, if_pos hid], hp₀, fun e' f' hp' => ?_⟩
      rw [put, if_pos hk, put, if_pos hid]
      exact .shown hp' hrest
    · rw [lookup_cons, if_neg hk] at he
      have hid : f₀.id ≠ x := by
        rw [hp₀.id]
        have hx : e.entryId = x := key_of_lookup he
        have hlater := ho.1 (shape e) (List.mem_map_of_mem (mem_of_lookup he))
        cases e₀ with
        | permission reqId request outcome => exact fun h => hlater rfl ht (hx.trans h.symm)
        | _ => exact hk
      obtain ⟨f, hf, hp, hput⟩ := ih ho.2 he
      refine ⟨f, by rw [lookup_cons, if_neg hid, hf], hp, fun e' f' hp' => ?_⟩
      rw [put, if_neg hk, put, if_neg hid]
      exact .shown hp₀ (hput e' f' hp')

/-- Every front-end entry is the pair of a back-end entry. -/
theorem Paired.exists_pair {es : List Entry} {fs : List SessionEntry} {f : SessionEntry}
    (h : Paired es fs) (hf : f ∈ fs) : ∃ e ∈ es, Pair e f := by
  induction h with
  | nil => simp at hf
  | hidden _ _ ih =>
    obtain ⟨e, he, hp⟩ := ih hf
    exact ⟨e, List.mem_cons_of_mem _ he, hp⟩
  | @shown e₀ f₀ es fs hp _ ih =>
    rcases List.mem_cons.mp hf with rfl | hf
    · exact ⟨e₀, List.mem_cons_self, hp⟩
    · obtain ⟨e, he, hp⟩ := ih hf
      exact ⟨e, List.mem_cons_of_mem _ he, hp⟩

/-- The other way round: every entry that is shown has its pair. -/
theorem Paired.exists_front {es : List Entry} {fs : List SessionEntry} {e : Entry}
    (h : Paired es fs) (he : e ∈ es) (hs : (backView e).isSome) : ∃ f ∈ fs, Pair e f := by
  induction h with
  | nil => simp at he
  | hidden hn _ ih =>
    rcases List.mem_cons.mp he with rfl | he
    · simp [hn] at hs
    · exact ih he
  | @shown e₀ f₀ es fs hp _ ih =>
    rcases List.mem_cons.mp he with rfl | he
    · exact ⟨f₀, List.mem_cons_self, hp⟩
    · obtain ⟨f, hf, hp⟩ := ih he
      exact ⟨f, List.mem_cons_of_mem _ hf, hp⟩

/-- Where the back end finds something else than a message or a tool call, whatever the
front end finds under the id is a permission. -/
theorem Paired.front_permission {es : List Entry} {fs : List SessionEntry} {x : String}
    {f : SessionEntry} (h : Paired es fs) (hd : (es.map Entry.entryId).Nodup)
    (hx : ∀ e, lookup Entry.entryId x es = some e → ¬ isText e)
    (hf : lookup SessionEntry.id x fs = some f) : f.kind = .permissionRequest := by
  obtain ⟨e, he, hp⟩ := h.exists_pair (mem_of_lookup hf)
  have hid : frontId e = x := hp.id.symm.trans (key_of_lookup hf)
  have hnt : ¬ isText e := by
    intro ht
    have hl := lookup_of_mem hd he
    rw [← frontId_of_text ht, hid] at hl
    exact hx e hl ht
  have hview := hp.view
  have hshown := hp.shown
  cases e with
  | permission reqId request outcome =>
    cases hk : f.kind <;> simp [frontView, backView, hk] at hview ⊢
  | message _ _ _ => exact absurd (.inl rfl) hnt
  | toolCall _ _ => exact absurd (.inr rfl) hnt
  | _ => simp [backView] at hshown

end Tethys.Frontend
