import Mathlib.Data.List.Basic
import Mathlib.Tactic.Common

/-!
# Numbered segments of a stream

A stream whose elements are items of a kind, cuts, or passed over. The items are put in
segments by a counter and the kind of the item before: an item opens a segment unless the
item before it, with no cut between, is of its own kind.

## Main definitions

* `starts` — how many segments a stream opens, that is the number of its last segment.

## Main results

* `starts_eq_zero_iff` — two items have one number when no cut and no item of another kind
  stands between them.
* `exists_start` — every number up to the last is that of an item of the stream.
-/

namespace Tethys.Lib

/-- What an element of the stream is to the numbering. -/
inductive Mark (κ : Type*) where
  | pass
  | cut
  | item (kind : κ)
  deriving DecidableEq

variable {κ : Type*} [DecidableEq κ] {current : Option κ} {m : Mark κ} {ms : List (Mark κ)}

/-- The kind of the segment that is open after an element. -/
def Mark.after (current : Option κ) : Mark κ → Option κ
  | .pass => current
  | .cut => none
  | .item kind => some kind

/-- An element opens a segment: an item of another kind than the open segment. -/
def Mark.opens (current : Option κ) : Mark κ → Bool
  | .item kind => current ≠ some kind
  | _ => false

/-- The kind of the segment that is open at the end of a stream. -/
def openAfter (current : Option κ) (ms : List (Mark κ)) : Option κ := ms.foldl Mark.after current

/-- The number of segments that a stream opens. -/
def starts (current : Option κ) : List (Mark κ) → Nat
  | [] => 0
  | m :: ms => (m.opens current).toNat + starts (m.after current) ms

omit [DecidableEq κ] in
@[simp] theorem openAfter_nil : openAfter current ([] : List (Mark κ)) = current := rfl

omit [DecidableEq κ] in
@[simp] theorem openAfter_cons : openAfter current (m :: ms) = openAfter (m.after current) ms := rfl

omit [DecidableEq κ] in
theorem openAfter_append {ms' : List (Mark κ)} :
    openAfter current (ms ++ ms') = openAfter (openAfter current ms) ms' := List.foldl_append

@[simp] theorem starts_nil : starts current ([] : List (Mark κ)) = 0 := rfl

@[simp] theorem starts_cons :
    starts current (m :: ms) = (m.opens current).toNat + starts (m.after current) ms := rfl

theorem starts_append {ms' : List (Mark κ)} :
    starts current (ms ++ ms') = starts current ms + starts (openAfter current ms) ms' := by
  induction ms generalizing current with
  | nil => simp
  | cons m ms ih =>
    simp only [List.cons_append, starts_cons, openAfter_cons, ih]
    omega

/-- A stream that opens no segment leaves the open one as it is, or closes it. -/
theorem openAfter_of_starts_eq_zero (h : starts current ms = 0) :
    openAfter current ms = current ∨ openAfter current ms = none := by
  induction ms generalizing current with
  | nil => exact Or.inl rfl
  | cons m ms ih =>
    simp only [starts_cons, Nat.add_eq_zero_iff, Bool.toNat_eq_zero] at h
    cases m with
    | pass => exact ih h.2
    | cut => exact Or.inr ((ih h.2).elim id id)
    | item kind =>
      have hkind : current = some kind := by simpa [Mark.opens] using h.1
      subst hkind
      exact ih h.2

/-- An item is in a segment, so its number is at least one. -/
theorem starts_item_pos {kind : κ} : 0 < starts none (ms ++ [.item kind]) := by
  rw [starts_append]
  by_contra hzero
  have hms : starts none ms = 0 := by omega
  have hnone : openAfter none ms = none := (openAfter_of_starts_eq_zero hms).elim id id
  simp [hnone, Mark.opens] at hzero

/-- Two items have one number when they are of one kind and there is no cut and no item of
another kind between them. -/
theorem starts_eq_zero_iff {kind kind' : κ} :
    starts (some kind) (ms ++ [.item kind']) = 0 ↔
      kind' = kind ∧ ∀ m ∈ ms, m = .pass ∨ m = .item kind := by
  induction ms with
  | nil => simpa [Mark.opens] using eq_comm
  | cons m ms ih =>
    cases m with
    | pass => simpa [Mark.opens, Mark.after] using ih
    | cut =>
      have hpos : 0 < starts none (ms ++ [.item kind']) := starts_item_pos
      simp only [List.cons_append, starts_cons, Mark.after]
      constructor
      · omega
      · exact fun h => absurd (h.2 .cut List.mem_cons_self) (by simp)
    | item kind'' =>
      by_cases hkind : kind'' = kind
      · subst hkind
        simpa [Mark.opens, Mark.after] using ih
      · simp [Mark.opens, hkind, Ne.symm hkind]

/-- Every number up to the last is that of an item which opens a segment. -/
theorem exists_start {n : Nat} (h : n < starts current ms) :
    ∃ a kind b, ms = a ++ .item kind :: b ∧ starts current a = n ∧ openAfter current a ≠ some kind := by
  induction ms generalizing current n with
  | nil => simp at h
  | cons m ms ih =>
    by_cases hlater : n < (m.opens current).toNat
    · cases m with
      | pass | cut => simp [Mark.opens] at hlater
      | item kind =>
        have hopens : current ≠ some kind := by
          intro hsame
          simp [Mark.opens, hsame] at hlater
        refine ⟨[], kind, ms, rfl, ?_, hopens⟩
        have := Bool.toNat_le (Mark.opens current (.item kind))
        simp only [starts_nil]
        omega
    · have hrest : n - (m.opens current).toNat < starts (m.after current) ms := by
        rw [starts_cons] at h
        omega
      obtain ⟨a, kind, b, rfl, hnumber, hopens⟩ := ih hrest
      refine ⟨m :: a, kind, b, rfl, ?_, hopens⟩
      rw [starts_cons]
      omega

/-- Two places of one list are the same, or one comes before the other. -/
theorem place_cases {α : Type*} {a c a' c' : List α} {x y : α} (h : a ++ x :: c = a' ++ y :: c') :
    (a = a' ∧ x = y) ∨ (∃ b, a' = a ++ x :: b ∧ c = b ++ y :: c') ∨
      ∃ b, a = a' ++ y :: b ∧ c' = b ++ x :: c := by
  rcases List.append_eq_append_iff.mp h with ⟨b, rfl, hb⟩ | ⟨b, rfl, hb⟩
  · cases b with
    | nil => exact Or.inl ⟨by simp, (List.cons.inj hb).1⟩
    | cons d b =>
      obtain ⟨rfl, hc⟩ := List.cons.inj hb
      exact Or.inr (Or.inl ⟨b, rfl, hc⟩)
  · cases b with
    | nil => exact Or.inl ⟨by simp, (List.cons.inj hb).1.symm⟩
    | cons d b =>
      obtain ⟨rfl, hc⟩ := List.cons.inj hb
      exact Or.inr (Or.inr ⟨b, rfl, hc⟩)

/-- A place of two lists that are joined is a place of the first or of the second. -/
theorem append_place {α : Type*} {a b c d : List α} {x : α} (h : a ++ b = c ++ x :: d) :
    (∃ e, a = c ++ x :: e) ∨ ∃ e, c = a ++ e ∧ b = e ++ x :: d := by
  rcases List.append_eq_append_iff.mp h with ⟨e, rfl, hb⟩ | ⟨e, rfl, he⟩
  · exact .inr ⟨e, rfl, hb⟩
  · cases e with
    | nil => exact .inr ⟨[], by simp, by simpa using he.symm⟩
    | cons y e =>
      obtain ⟨rfl, -⟩ := List.cons.inj he
      exact .inl ⟨e, rfl⟩

end Tethys.Lib
