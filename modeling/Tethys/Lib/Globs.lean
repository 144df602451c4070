import Mathlib.Data.List.Forall2
import Mathlib.Tactic.Common

/-!
# Patterns with stars

A star of a pattern stands for any word, and any other element for one letter that it takes. A
search that tries to take the next letter before it looks for a star does not find every match:
it finds those in which a star that could take the next letter stands for just that letter.

## Main definitions

* `Matches` — a word matches a pattern.
* `Eager` — it matches with such stars only.

## Main results

* `Eager.skip` — a match from a later place of the word on is still one after both have moved
  over a common part, which is why it is enough to go back to the last star.
-/

namespace Tethys.Lib

variable {π α : Type*} {isStar : π → Prop} {takes takes' : π → α → Prop} {q : π} {p mid : List π}
  {c : α} {t seen : List α}

/-- A word matches a pattern. -/
inductive Matches (isStar : π → Prop) (takes : π → α → Prop) : List π → List α → Prop
  | nil : Matches isStar takes [] []
  | star {q : π} {p : List π} {u v : List α} : isStar q → Matches isStar takes p v → Matches isStar takes (q :: p) (u ++ v)
  | one {q : π} {p : List π} {c : α} {t : List α} : ¬ isStar q → takes q c → Matches isStar takes p t →
      Matches isStar takes (q :: p) (c :: t)

/-- The same, where a star that takes the next letter stands for just that letter. -/
inductive Eager (isStar : π → Prop) (takes : π → α → Prop) : List π → List α → Prop
  | nil : Eager isStar takes [] []
  | star {q : π} {p : List π} {u v : List α} : isStar q → (∀ c ∈ (u ++ v).head?, ¬ takes q c) → Eager isStar takes p v →
      Eager isStar takes (q :: p) (u ++ v)
  | one {q : π} {p : List π} {c : α} {t : List α} : takes q c → Eager isStar takes p t → Eager isStar takes (q :: p) (c :: t)

namespace Matches

@[simp] theorem nil_iff : Matches isStar takes [] t ↔ t = [] := by
  constructor
  · rintro ⟨⟩
    rfl
  · rintro rfl
    exact .nil

theorem star_iff (h : isStar q) :
    Matches isStar takes (q :: p) t ↔ ∃ k ≤ t.length, Matches isStar takes p (t.drop k) := by
  constructor
  · rintro (_ | ⟨-, hrest⟩ | ⟨hstar, -, -⟩)
    · rename_i u v
      exact ⟨u.length, by simp, by simpa using hrest⟩
    · exact absurd h hstar
  · rintro ⟨k, -, hrest⟩
    rw [← List.take_append_drop k t]
    exact .star h hrest

@[simp] theorem not_one_nil (h : ¬ isStar q) : ¬ Matches isStar takes (q :: p) [] := by
  intro hmatches
  generalize hword : ([] : List α) = word at hmatches
  cases hmatches with
  | star hstar => exact h hstar
  | one => cases hword

theorem one_iff (h : ¬ isStar q) :
    Matches isStar takes (q :: p) (c :: t) ↔ takes q c ∧ Matches isStar takes p t := by
  constructor
  · intro hmatches
    generalize hword : c :: t = word at hmatches
    cases hmatches with
    | star hstar => exact absurd hstar h
    | one _ htakes hrest =>
      obtain ⟨rfl, rfl⟩ := List.cons.inj hword
      exact ⟨htakes, hrest⟩
  · exact fun ⟨htakes, hrest⟩ => .one h htakes hrest

theorem mono_mem (h : ∀ q ∈ p, ∀ c ∈ t, takes q c → takes' q c)
    (hmatches : Matches isStar takes p t) : Matches isStar takes' p t := by
  induction hmatches with
  | nil => exact .nil
  | star hstar _ ih =>
    exact .star hstar (ih fun q hq c hc =>
      h q (List.mem_cons_of_mem _ hq) c (List.mem_append_right _ hc))
  | one hstar htakes _ ih =>
    refine .one hstar (h _ List.mem_cons_self _ List.mem_cons_self htakes) (ih fun q hq c hc => ?_)
    exact h q (List.mem_cons_of_mem _ hq) c (List.mem_cons_of_mem _ hc)

theorem mono (h : ∀ q c, takes q c → takes' q c) (hmatches : Matches isStar takes p t) :
    Matches isStar takes' p t := hmatches.mono_mem fun q _ c _ => h q c

/-- A pattern without stars has as many elements as the word. -/
theorem length_eq (h : ∀ q ∈ p, ¬ isStar q) (hmatches : Matches isStar takes p t) :
    t.length = p.length := by
  induction hmatches with
  | nil => rfl
  | star hstar => exact absurd hstar (h _ List.mem_cons_self)
  | one _ _ _ ih =>
    rw [List.length_cons, List.length_cons, ih fun q hq => h q (List.mem_cons_of_mem _ hq)]

/-- When no star takes a letter of the word, all matches are found. -/
theorem eager (hmatches : Matches isStar takes p t)
    (h : ∀ q ∈ p, isStar q → ∀ c ∈ t, ¬ takes q c) : Eager isStar takes p t := by
  induction hmatches with
  | nil => exact .nil
  | star hstar _ ih =>
    refine .star hstar (fun c hc => h _ List.mem_cons_self hstar c (List.mem_of_mem_head? hc)) ?_
    exact ih fun q hq hs c hc => h q (List.mem_cons_of_mem _ hq) hs c (List.mem_append_right _ hc)
  | one _ htakes _ ih =>
    refine .one htakes (ih fun q hq hs c hc => ?_)
    exact h q (List.mem_cons_of_mem _ hq) hs c (List.mem_cons_of_mem _ hc)

end Matches

namespace Eager

theorem toMatches (h : Eager isStar takes p t) : Matches isStar takes p t := by
  induction h with
  | nil => exact .nil
  | star hstar _ _ ih => exact .star hstar ih
  | @one q p c t htakes _ ih =>
    by_cases hstar : isStar q
    · exact .star (u := [c]) hstar ih
    · exact .one hstar htakes ih

/-- A letter that is taken is taken. -/
theorem takes_iff (h : takes q c) :
    Eager isStar takes (q :: p) (c :: t) ↔ Eager isStar takes p t := by
  constructor
  · intro heager
    generalize hword : c :: t = word at heager
    cases heager with
    | star _ hfree =>
      rw [← hword] at hfree
      exact absurd h (hfree c rfl)
    | one _ hrest =>
      obtain ⟨-, rfl⟩ := List.cons.inj hword
      exact hrest
  · exact .one h

/-- A star that does not take the next letter stands for any word. -/
theorem star_iff (h : isStar q) (hfree : ∀ c ∈ t.head?, ¬ takes q c) :
    Eager isStar takes (q :: p) t ↔ ∃ k, Eager isStar takes p (t.drop k) := by
  constructor
  · intro heager
    cases heager with
    | @star _ _ u v _ _ hrest => exact ⟨u.length, by simpa using hrest⟩
    | one htakes => exact absurd htakes (hfree _ rfl)
  · rintro ⟨k, hrest⟩
    rw [← List.take_append_drop k t] at hfree ⊢
    exact .star h hfree hrest

/-- What is no star and does not take the next letter matches nothing. -/
theorem not_cons (h : ¬ isStar q) (hfree : ∀ c ∈ t.head?, ¬ takes q c) :
    ¬ Eager isStar takes (q :: p) t := by
  intro heager
  cases heager with
  | star hstar => exact h hstar
  | one htakes => exact hfree _ rfl htakes

theorem nil_iff : Eager isStar takes p [] ↔ ∀ q ∈ p, isStar q := by
  induction p with
  | nil => exact ⟨fun _ => by simp, fun _ => .nil⟩
  | cons q p ih =>
    rw [List.forall_mem_cons, ← ih]
    have hfree : ∀ c ∈ ([] : List α).head?, ¬ takes q c := by simp
    by_cases hstar : isStar q
    · simp [star_iff hstar hfree, hstar]
    · simp [not_cons hstar hfree, hstar]

/-- In any match of an element, the rest matches from some place on. -/
theorem tail (h : Eager isStar takes (q :: p) t) : ∃ k, Eager isStar takes p (t.drop k) := by
  cases h with
  | @star _ _ u v _ _ hrest => exact ⟨u.length, by simpa using hrest⟩
  | one _ hrest => exact ⟨1, hrest⟩

/-- Both move over a part in which each element takes its letter. A match from a later place on
cannot fall behind: where it meets the part, it takes the same letters. -/
theorem skip (hseen : List.Forall₂ takes mid seen) (k : Nat)
    (h : Eager isStar takes (mid ++ p) ((seen ++ t).drop k)) :
    ∃ k', Eager isStar takes p (t.drop k') := by
  induction hseen generalizing k with
  | nil => exact ⟨k, h⟩
  | cons htakes _ ih =>
    cases k with
    | zero => exact ih 0 ((takes_iff htakes).mp h)
    | succ k =>
      obtain ⟨k', hrest⟩ := tail h
      rw [List.cons_append, List.drop_succ_cons, List.drop_drop] at hrest
      exact ih (k + k') hrest

end Eager

end Tethys.Lib
