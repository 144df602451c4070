import Tethys.Lib.Lasts
import Mathlib.Data.List.Nodup
import Mathlib.Data.List.Perm.Basic

/-!
# Groups in order of first appearance

A list is grouped by a key: the groups stand in the order in which their keys first appear, and
each has its elements in the order of the list. No element is lost or doubled, and what is appended
to the list neither moves a group nor an element of one.
-/

namespace Tethys.Lib

variable {α κ : Type*} [DecidableEq κ] (key : α → κ)

/-- The keys, each where it first appears. -/
def firsts (l : List α) : List κ := (l.map key).eraseDups

/-- The elements with this key. -/
def members (k : κ) (l : List α) : List α := l.filter fun a => key a = k

def groups (l : List α) : List (κ × List α) := (firsts key l).map fun k => (k, members key k l)

variable {key} {l l' : List α} {k : κ}

@[simp] theorem firsts_nil : firsts key [] = [] := rfl

theorem mem_firsts : k ∈ firsts key l ↔ ∃ a ∈ l, key a = k := by
  rw [firsts, List.mem_eraseDups, List.mem_map]

theorem firsts_concat (l : List α) (a : α) :
    firsts key (l ++ [a]) = firsts key l ++ if key a ∈ firsts key l then [] else [key a] := by
  rw [firsts, List.map_append, List.map_singleton, eraseDups_append_singleton]
  simp only [firsts, List.mem_eraseDups]

theorem members_append (k : κ) (l l' : List α) :
    members key k (l ++ l') = members key k l ++ members key k l' := List.filter_append _ _

theorem members_concat (k : κ) (l : List α) (a : α) :
    members key k (l ++ [a]) = members key k l ++ if key a = k then [a] else [] := by
  rw [members_append]
  by_cases hk : key a = k
  · simp [members, hk]
  · simp [members, hk]

/-- Without a first appearance there are no elements. -/
theorem members_eq_nil (h : k ∉ firsts key l) : members key k l = [] := by
  rw [members, List.filter_eq_nil_iff]
  intro a ha hk
  exact h (mem_firsts.mpr ⟨a, ha, of_decide_eq_true hk⟩)

section
variable (key)

/-- The keys of an extension begin with the keys of the list. -/
theorem firsts_append (l l' : List α) : firsts key l <+: firsts key (l ++ l') := by
  induction l' using List.reverseRecOn with
  | nil => exact (List.append_nil l).symm ▸ List.prefix_rfl
  | append_singleton l' a ih =>
    rw [← List.append_assoc, firsts_concat]
    exact ih.trans (List.prefix_append _ _)

/-- The keys are in the order of their first positions. -/
theorem pairwise_firsts (l : List α) :
    (firsts key l).Pairwise fun k k' => (l.map key).idxOf k < (l.map key).idxOf k' := by
  induction l using List.reverseRecOn with
  | nil => exact .nil
  | append_singleton l a ih =>
    have hold : ∀ k ∈ firsts key l, ((l ++ [a]).map key).idxOf k = (l.map key).idxOf k := by
      intro k hk
      rw [List.map_append, List.idxOf_append_of_mem (List.mem_eraseDups.mp hk)]
    rw [firsts_concat, List.pairwise_append]
    refine ⟨ih.imp_of_mem fun hk hk' hlt => ?_, ?_, ?_⟩
    · rw [hold _ hk, hold _ hk']
      exact hlt
    · split_ifs
      · exact .nil
      · exact List.pairwise_singleton _ _
    · intro k hk k' hk'
      split_ifs at hk' with hmem
      · cases hk'
      · obtain rfl := List.mem_singleton.mp hk'
        have hnew : key a ∉ l.map key := fun h => hmem (List.mem_eraseDups.mpr h)
        have hlt : (l.map key).idxOf k < (l.map key).length :=
          List.idxOf_lt_length_of_mem (List.mem_eraseDups.mp hk)
        rw [hold k hk, List.map_append, List.idxOf_append_of_notMem hnew]
        omega

/-- The keys of the list, each once and in the order of their first positions. -/
structure InFirstOrder (l : List α) (ks : List κ) : Prop where
  mem : ∀ k, k ∈ ks ↔ ∃ a ∈ l, key a = k
  ordered : ks.Pairwise fun k k' => (l.map key).idxOf k < (l.map key).idxOf k'

theorem inFirstOrder_groups (l : List α) : InFirstOrder key l ((groups key l).map Prod.fst) := by
  have hkeys : (groups key l).map Prod.fst = firsts key l := by
    rw [groups, List.map_map]
    exact List.map_id _
  rw [hkeys]
  exact ⟨fun _ => mem_firsts, pairwise_firsts key l⟩

theorem nodup_firsts (l : List α) : (firsts key l).Nodup :=
  (pairwise_firsts key l).imp fun hlt heq => by
    rw [heq] at hlt
    omega

/-- The elements of some keys, key by key. -/
theorem perm_flatMap_members {ks : List κ} (h : ks.Nodup) (l : List α) :
    (ks.flatMap fun k => members key k l).Perm (l.filter fun a => key a ∈ ks) := by
  induction ks with
  | nil => simp
  | cons k ks ih =>
    obtain ⟨hk, hks⟩ := List.nodup_cons.mp h
    have hhead : (l.filter fun a => key a ∈ k :: ks).filter (fun a => key a = k) =
        members key k l := by
      rw [List.filter_filter, members]
      exact List.filter_congr fun a _ => by grind
    have htail : (l.filter fun a => key a ∈ k :: ks).filter (fun a => !decide (key a = k)) =
        l.filter fun a => key a ∈ ks := by
      rw [List.filter_filter]
      exact List.filter_congr fun a _ => by grind
    have hsplit := List.filter_append_perm (fun a => decide (key a = k))
      (l.filter fun a => key a ∈ k :: ks)
    rw [hhead, htail] at hsplit
    rw [List.flatMap_cons]
    exact ((ih hks).append_left _).trans hsplit

/-- Every element is in the groups as often as in the list. -/
theorem perm_groups (l : List α) : ((groups key l).flatMap Prod.snd).Perm l := by
  have hall : (l.filter fun a => key a ∈ firsts key l) = l :=
    List.filter_eq_self.mpr fun a ha => decide_eq_true (mem_firsts.mpr ⟨a, ha, rfl⟩)
  have hperm := perm_flatMap_members key (nodup_firsts key l) l
  rw [hall] at hperm
  rw [groups, List.flatMap_map]
  exact hperm

end

theorem mem_groups {as : List α} (h : (k, as) ∈ groups key l) : as = members key k l := by
  obtain ⟨k', -, heq⟩ := List.mem_map.mp h
  obtain ⟨rfl, rfl⟩ := Prod.mk.inj heq
  rfl

/-- A group stays where it is, and new elements come after its own. -/
theorem getElem?_groups_append {i : Nat} {as : List α} (h : (groups key l)[i]? = some (k, as)) :
    (groups key (l ++ l'))[i]? = some (k, as ++ members key k l') := by
  obtain rfl := mem_groups (List.mem_of_getElem? h)
  rw [groups, List.getElem?_map, Option.map_eq_some_iff] at h
  obtain ⟨k', hk', heq⟩ := h
  obtain ⟨rfl, -⟩ := Prod.mk.inj heq
  obtain ⟨rest, hrest⟩ := firsts_append key l l'
  have hlt := (List.getElem?_eq_some_iff.mp hk').1
  rw [groups, List.getElem?_map, ← hrest, List.getElem?_append_left hlt, hk', Option.map_some,
    members_append]

end Tethys.Lib
