import Mathlib.Data.List.Dedup
import Mathlib.Logic.Relation

/-!
# Histories

Commits with any number of parents. A commit is higher than its parents, so that its ancestors
can be collected: `ancestors` is the computed form of `Reaches`, and `revList` lists what one
commit has and another one does not.
-/

namespace Tethys.Lib

variable {C : Type*}

structure History (C : Type*) where
  parents : C → List C
  height : C → Nat
  height_lt : ∀ c, ∀ p ∈ parents c, height p < height c

namespace History

variable (h : History C)

/-- The second commit is the first one or lies behind it. -/
def Reaches : C → C → Prop := Relation.ReflTransGen fun c p => p ∈ h.parents c

def ancestorsWithin : Nat → C → List C
  | 0, c => [c]
  | n + 1, c => c :: (h.parents c).flatMap (ancestorsWithin n)

/-- The commit and everything behind it. -/
def ancestors (c : C) : List C := h.ancestorsWithin (h.height c) c

variable {h} {a b c : C}

theorem Reaches.refl (c : C) : h.Reaches c c := Relation.ReflTransGen.refl

theorem Reaches.trans (hab : h.Reaches a b) (hbc : h.Reaches b c) : h.Reaches a c :=
  Relation.ReflTransGen.trans hab hbc

theorem mem_ancestorsWithin {n : Nat} (hn : h.height c ≤ n) :
    a ∈ h.ancestorsWithin n c ↔ h.Reaches c a := by
  induction n generalizing c with
  | zero =>
    -- a commit at the bottom has no parents
    have hparents : h.parents c = [] := List.eq_nil_iff_forall_not_mem.mpr fun p hp => by
      have := h.height_lt c p hp
      omega
    rw [ancestorsWithin, List.mem_singleton]
    constructor
    · rintro rfl
      exact .refl a
    · intro hreach
      rcases Relation.ReflTransGen.cases_head hreach with heq | ⟨p, hp, -⟩
      · exact heq.symm
      · simp [hparents] at hp
  | succ n ih =>
    rw [ancestorsWithin, List.mem_cons, List.mem_flatMap]
    constructor
    · rintro (rfl | ⟨p, hp, ha⟩)
      · exact .refl a
      · have hlt := h.height_lt c p hp
        exact Relation.ReflTransGen.head hp ((ih (by omega)).mp ha)
    · intro hreach
      rcases Relation.ReflTransGen.cases_head hreach with heq | ⟨p, hp, hreach⟩
      · exact .inl heq.symm
      · have hlt := h.height_lt c p hp
        exact .inr ⟨p, hp, (ih (by omega)).mpr hreach⟩

@[simp] theorem mem_ancestors : a ∈ h.ancestors c ↔ h.Reaches c a :=
  mem_ancestorsWithin (Nat.le_refl _)

variable [DecidableEq C]

/-- The commits of `rev-list exclude..tip`, in no particular order. -/
def revList (h : History C) (exclude tip : C) : List C :=
  ((h.ancestors tip).filter (· ∉ h.ancestors exclude)).dedup

/-- Nothing is listed exactly when the tip itself is excluded. -/
theorem revList_eq_nil : h.revList a c = [] ↔ h.Reaches a c := by
  simp only [revList, List.dedup_eq_nil, List.filter_eq_nil_iff, mem_ancestors, decide_eq_true_eq,
    not_not]
  exact ⟨fun hall => hall c (.refl c), fun hac b hcb => hac.trans hcb⟩

end History

end Tethys.Lib
