import Mathlib.Data.List.Basic
import Mathlib.Data.List.Nodup

/-!
# Bounded queues of entries

Entries under keys, the oldest first. A key that is there keeps its value, and a new entry drives
out the oldest one when the queue is full.
-/

namespace Tethys.Lib

variable {κ α : Type*} {capacity : Nat} {queue : List (κ × α)}

/-- What stays before a new entry. -/
def makeRoom (capacity : Nat) (queue : List (κ × α)) : List (κ × α) :=
  if queue.length ≥ capacity then queue.tail else queue

theorem makeRoom_sublist : (makeRoom capacity queue).Sublist queue := by
  unfold makeRoom
  split_ifs
  · exact List.tail_sublist queue
  · exact .refl queue

variable [DecidableEq κ] {k x : κ} {v w : α}

def enqueue (capacity : Nat) (queue : List (κ × α)) (k : κ) (v : α) : List (κ × α) :=
  if (queue.lookup k).isSome then queue else makeRoom capacity queue ++ [(k, v)]

theorem lookup_concat (k x : κ) (v : α) (l : List (κ × α)) :
    (l ++ [(k, v)]).lookup x = (l.lookup x).or (if x = k then some v else none) := by
  rw [List.lookup_append, List.lookup_cons, List.lookup_nil]
  by_cases hk : x = k
  · simp [hk]
  · simp [hk, beq_false_of_ne hk]

/-- A key stands for the value of its entry. -/
theorem mem_of_lookup_eq_some (h : queue.lookup k = some v) : (k, v) ∈ queue := by
  obtain ⟨l, l', rfl, -⟩ := List.lookup_eq_some_iff.mp h
  simp

theorem mem_keys_iff : k ∈ queue.map Prod.fst ↔ (queue.lookup k).isSome := by
  rw [← not_iff_not, Bool.not_eq_true, Option.isSome_eq_false_iff, Option.isNone_iff_eq_none,
    List.lookup_eq_none_iff, List.mem_map]
  grind

/-- Without its first entry the queue has the other keys. -/
theorem lookup_of_nodup_cons (h : ((k, v) :: queue).map Prod.fst |>.Nodup) (x : κ) :
    queue.lookup x = if x = k then none else ((k, v) :: queue).lookup x := by
  rw [List.map_cons, List.nodup_cons, mem_keys_iff] at h
  split_ifs with hx
  · obtain rfl := hx
    exact Option.not_isSome_iff_eq_none.mp h.1
  · rw [List.lookup_cons, beq_false_of_ne hx]

/-- A key that is not in the queue is not in what stays of it. -/
theorem lookup_makeRoom (h : ¬ (queue.lookup k).isSome) : (makeRoom capacity queue).lookup k = none := by
  rw [← Option.not_isSome_iff_eq_none, ← mem_keys_iff]
  exact fun hmem => h (mem_keys_iff.mp ((makeRoom_sublist.map Prod.fst).subset hmem))

/-- An entry of the new queue is new or was there. -/
theorem mem_enqueue (h : (x, w) ∈ enqueue capacity queue k v) : (x, w) ∈ queue ∨ (x, w) = (k, v) := by
  unfold enqueue at h
  split_ifs at h
  · exact .inl h
  · rcases List.mem_append.mp h with h | h
    · exact .inl (makeRoom_sublist.subset h)
    · exact .inr (List.mem_singleton.mp h)

theorem nodup_enqueue (h : (queue.map Prod.fst).Nodup) :
    ((enqueue capacity queue k v).map Prod.fst).Nodup := by
  unfold enqueue
  split_ifs with hget
  · exact h
  · have hsub : ((makeRoom capacity queue).map Prod.fst).Sublist (queue.map Prod.fst) :=
      makeRoom_sublist.map _
    rw [List.map_append, List.map_singleton, List.nodup_append]
    refine ⟨hsub.nodup h, List.nodup_singleton k, ?_⟩
    rintro x hx _ hk rfl
    obtain rfl := List.mem_singleton.mp hk
    exact hget (mem_keys_iff.mp (hsub.subset hx))

theorem length_enqueue_le (hpos : 0 < capacity) (h : queue.length ≤ capacity) :
    (enqueue capacity queue k v).length ≤ capacity := by
  unfold enqueue makeRoom
  split_ifs
  · exact h
  · rw [List.length_append, List.length_tail, List.length_singleton]
    omega
  · rw [List.length_append, List.length_singleton]
    omega

end Tethys.Lib
