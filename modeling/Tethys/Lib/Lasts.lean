import Mathlib.Data.List.DropRight
import Mathlib.Data.List.Induction

/-!
# The last value of a stream

A stream that sometimes gives a value: the last one given, and what came after it. Also, the
elements of a list by their first occurrence, and its last elements.
-/

namespace Tethys.Lib

variable {α β : Type*} (p : α → Option β)

/-- The last value given. -/
def lastSome (as : List α) : Option β := as.reverse.findSome? p

/-- What comes after the last value, or everything if there is none. -/
def sinceLast (as : List α) : List α := (as.reverse.takeWhile fun a => (p a).isNone).reverse

variable {p} {a : α} {as : List α}

@[simp] theorem lastSome_nil : lastSome p [] = none := rfl

@[simp] theorem sinceLast_nil : sinceLast p [] = [] := rfl

theorem lastSome_append_singleton : lastSome p (as ++ [a]) = (p a).or (lastSome p as) := by
  simp only [lastSome, List.reverse_append, List.reverse_singleton, List.singleton_append,
    List.findSome?_cons]
  cases p a <;> rfl

theorem sinceLast_append_singleton :
    sinceLast p (as ++ [a]) = if (p a).isSome then [] else sinceLast p as ++ [a] := by
  simp only [sinceLast, List.reverse_append, List.reverse_singleton, List.singleton_append,
    List.takeWhile_cons]
  cases p a <;> simp

/-- A stream that gives no value. -/
theorem lastSome_eq_none : lastSome p as = none ↔ ∀ a ∈ as, p a = none := by
  simp [lastSome]

/-- One more element is kept if it is new. -/
theorem eraseDups_append_singleton [BEq α] [LawfulBEq α] [Decidable (a ∈ as)] :
    (as ++ [a]).eraseDups = as.eraseDups ++ if a ∈ as then [] else [a] := by
  rw [List.eraseDups_append]
  split_ifs with h
  · simp [List.removeAll, h]
  · simp [List.removeAll, h, List.eraseDups_cons]

/-! ## The last elements -/

section Tail
variable {n : Nat} {bs : List α}

theorem length_rtake : (as.rtake n).length = min n as.length := by
  rw [List.rtake, List.length_drop]
  omega

theorem rtake_of_length_le (h : as.length ≤ n) : as.rtake n = as := by
  rw [List.rtake, Nat.sub_eq_zero_of_le h, List.drop_zero]

/-- The last elements are all in the second list. -/
theorem rtake_append_of_le_length (h : n ≤ bs.length) : (as ++ bs).rtake n = bs.rtake n := by
  rw [List.rtake, List.rtake, List.drop_append, List.drop_eq_nil_of_le (by simp; omega), List.nil_append]
  congr 1
  simp
  omega

/-- The first list keeps what the second leaves room for. -/
theorem rtake_append_of_length_le (h : bs.length ≤ n) :
    (as ++ bs).rtake n = as.rtake (n - bs.length) ++ bs := by
  have hlength : (as ++ bs).length - n = as.length - (n - bs.length) := by
    rw [List.length_append]
    omega
  rw [List.rtake, List.rtake, hlength, List.drop_append_of_le_length (by omega)]

theorem rtake_rtake_of_le {m : Nat} (h : m ≤ n) : (as.rtake n).rtake m = as.rtake m := by
  rw [List.rtake, length_rtake, List.rtake, List.rtake, List.drop_drop]
  congr 1
  omega

/-- Only the last elements of a list are of use to the last elements of an extension. -/
theorem rtake_rtake_append : (as.rtake n ++ bs).rtake n = (as ++ bs).rtake n := by
  by_cases h : n ≤ bs.length
  · rw [rtake_append_of_le_length h, rtake_append_of_le_length h]
  · have h : bs.length ≤ n := by omega
    rw [rtake_append_of_length_le h, rtake_append_of_length_le h, rtake_rtake_of_le (Nat.sub_le _ _)]

theorem rtake_min_length : as.rtake (min n as.length) = as.rtake n := by
  rw [List.rtake, List.rtake]
  congr 1
  omega

end Tail

end Tethys.Lib
