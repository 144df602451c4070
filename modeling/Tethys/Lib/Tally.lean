import Mathlib.Algebra.BigOperators.Group.List.Basic
import Mathlib.Tactic.Common
import Mathlib.Algebra.GroupWithZero.Nat

/-!
# A running total in a machine word

Sizes are added one by one to a total that wraps, and after each addition the total is compared
with a cap. The cap bounds the sum of the sizes unless one addition leads from within the cap past
the end of the word.
-/

namespace Tethys.Lib

section
variable (cap modulus : Nat)

/-- The additions that are made, each as the total and the size; a total above the cap is the last. -/
def tally : Nat → List Nat → List (Nat × Nat)
  | _, [] => []
  | total, size :: sizes =>
    (total, size) ::
      if cap < (total + size) % modulus then [] else tally ((total + size) % modulus) sizes

/-- No total is above the cap. -/
def Passes : Nat → List Nat → Prop
  | _, [] => True
  | total, size :: sizes =>
    (total + size) % modulus ≤ cap ∧ Passes ((total + size) % modulus) sizes

/-- No size leads from a sum within the cap past the end of the word. -/
def NoLeap (total : Nat) (sizes : List Nat) : Prop :=
  ∀ before size after, sizes = before ++ size :: after → total + before.sum ≤ cap →
    total + before.sum + size < modulus

end

variable {cap modulus total size : Nat} {sizes : List Nat}

theorem noLeap_nil : NoLeap cap modulus total [] := fun before size after h => by simp at h

theorem noLeap_cons (h : total ≤ cap) : NoLeap cap modulus total (size :: sizes) ↔
    total + size < modulus ∧ NoLeap cap modulus (total + size) sizes := by
  constructor
  · refine fun hleap => ⟨?_, ?_⟩
    · simpa using hleap [] size sizes rfl (by simpa using h)
    · intro before next after heq hsum
      have hnext := hleap (size :: before) next after (by rw [heq]; rfl)
      rw [List.sum_cons] at hnext
      omega
  · rintro ⟨hsize, hleap⟩ before next after heq hsum
    cases before with
    | nil =>
      obtain ⟨rfl, rfl⟩ := List.cons.inj heq
      simpa using hsize
    | cons first before =>
      obtain ⟨rfl, htail⟩ := List.cons.inj heq
      have hnext := hleap before next after htail
      rw [List.sum_cons] at hsum ⊢
      omega

/-- A sum above the cap needs no further care. -/
theorem noLeap_of_lt (h : cap < total) : NoLeap cap modulus total sizes :=
  fun before size after _ hsum => by omega

/-- No addition leaves the word if and only if no size leaps. -/
theorem tally_lt_iff (h : total ≤ cap) :
    (∀ a ∈ tally cap modulus total sizes, a.1 + a.2 < modulus) ↔ NoLeap cap modulus total sizes := by
  induction sizes generalizing total with
  | nil => simp [tally, noLeap_nil]
  | cons size sizes ih =>
    rw [noLeap_cons h, tally, List.forall_mem_cons]
    refine and_congr_right fun hsize => ?_
    rw [Nat.mod_eq_of_lt hsize]
    split_ifs with hcap
    · simp [noLeap_of_lt hcap]
    · exact ih (by omega)

/-- Totals within the cap then bound the sum. -/
theorem sum_le_of_passes (h : total ≤ cap) (hpasses : Passes cap modulus total sizes)
    (hleap : NoLeap cap modulus total sizes) : total + sizes.sum ≤ cap := by
  induction sizes generalizing total with
  | nil => simpa using h
  | cons size sizes ih =>
    obtain ⟨hsize, hrest⟩ := (noLeap_cons h).mp hleap
    rw [Passes, Nat.mod_eq_of_lt hsize] at hpasses
    have hsum := ih hpasses.1 hpasses.2 hrest
    rw [List.sum_cons]
    omega

end Tethys.Lib
