import Mathlib.Data.List.Basic
import Mathlib.Order.Defs.LinearOrder
import Mathlib.Tactic.Common
import Mathlib.Order.Lattice

/-!
# Ordered maps

A finite map with keys in a linear order, kept as the list of its entries in ascending order
of the keys, so that two maps with the same entries are equal.
-/

namespace Tethys.Lib

variable {κ α : Type*} [LinearOrder κ]

/-- Insert or replace an entry in a list in ascending order of the keys. -/
def insertSorted (k : κ) (v : α) : List (κ × α) → List (κ × α)
  | [] => [(k, v)]
  | (k', v') :: l =>
    if k < k' then (k, v) :: (k', v') :: l
    else if k = k' then (k, v) :: l
    else (k', v') :: insertSorted k v l

@[simp] theorem lookup_insertSorted (k x : κ) (v : α) (l : List (κ × α)) :
    (insertSorted k v l).lookup x = if x = k then some v else l.lookup x := by
  induction l with
  | nil =>
    by_cases h : x = k
    · simp [insertSorted, h]
    · simp [insertSorted, List.lookup_cons, beq_false_of_ne h, h]
  | cons e l ih =>
    obtain ⟨k', v'⟩ := e
    unfold insertSorted
    split_ifs with hlt heq <;> simp only [List.lookup_cons, ih] <;> grind

theorem key_mem_insertSorted {k : κ} {v : α} {l : List (κ × α)} {e : κ × α}
    (h : e ∈ insertSorted k v l) : e = (k, v) ∨ e ∈ l := by
  induction l with
  | nil => exact .inl (List.mem_singleton.mp h)
  | cons e' l ih =>
    unfold insertSorted at h
    split_ifs at h <;> grind

theorem pairwise_insertSorted (k : κ) (v : α) {l : List (κ × α)}
    (h : l.Pairwise fun a b => a.1 < b.1) :
    (insertSorted k v l).Pairwise fun a b => a.1 < b.1 := by
  induction l with
  | nil => exact List.pairwise_singleton _ _
  | cons e l ih =>
    obtain ⟨hhead, htail⟩ := List.pairwise_cons.mp h
    unfold insertSorted
    split_ifs with hlt heq
    · refine List.pairwise_cons.mpr ⟨fun e' he' => ?_, h⟩
      rcases List.mem_cons.mp he' with rfl | he'
      · exact hlt
      · exact lt_trans hlt (hhead e' he')
    · exact List.pairwise_cons.mpr ⟨fun e' he' => heq ▸ hhead e' he', htail⟩
    · refine List.pairwise_cons.mpr ⟨fun e' he' => ?_, ih htail⟩
      rcases key_mem_insertSorted he' with rfl | he'
      · exact lt_of_le_of_ne (not_lt.mp hlt) (Ne.symm heq)
      · exact hhead e' he'

/-- A new key goes between the entries. -/
theorem insertSorted_eq_append {k : κ} {v : α} {l : List (κ × α)} (h : l.lookup k = none) :
    ∃ l₁ l₂, l = l₁ ++ l₂ ∧ insertSorted k v l = l₁ ++ (k, v) :: l₂ := by
  induction l with
  | nil => exact ⟨[], [], rfl, rfl⟩
  | cons e l ih =>
    obtain ⟨k', v'⟩ := e
    unfold insertSorted
    split_ifs with hlt heq
    · exact ⟨[], (k', v') :: l, rfl, rfl⟩
    · simp [heq] at h
    · rw [List.lookup_cons, beq_false_of_ne heq] at h
      obtain ⟨l₁, l₂, rfl, hins⟩ := ih h
      exact ⟨(k', v') :: l₁, l₂, rfl, by rw [hins]; rfl⟩

theorem getLast?_insertSorted (k : κ) (v : α) {l : List (κ × α)}
    (h : l.Pairwise fun a b => a.1 < b.1) :
    (insertSorted k v l).getLast? =
      match l.getLast? with
      | none => some (k, v)
      | some e => if k < e.1 then some e else some (k, v) := by
  induction l with
  | nil => rfl
  | cons e l ih =>
    obtain ⟨k', v'⟩ := e
    obtain ⟨hhead, htail⟩ := List.pairwise_cons.mp h
    have ih := ih htail
    unfold insertSorted
    cases hl : l.getLast? with
    | none =>
      obtain rfl := List.getLast?_eq_none_iff.mp hl
      split_ifs with hlt heq <;> simp [insertSorted, hlt]
    | some e =>
      have hlast : ∀ a, (a :: l).getLast? = some e := by simp [List.getLast?_cons, hl]
      have hlt' : k' < e.1 := hhead e (List.mem_of_getLast? hl)
      rw [hl] at ih
      split_ifs with hlt heq
      · simp [hlast, lt_trans hlt hlt']
      · simp [hlast, heq, hlt']
      · rw [hlast, List.getLast?_cons, ih]
        simp only
        split_ifs <;> rfl

/-- A finite map, as its entries in ascending order of the keys. -/
structure OrdMap (κ α : Type*) [LinearOrder κ] where
  entries : List (κ × α)
  sorted : entries.Pairwise fun a b => a.1 < b.1
  deriving DecidableEq

namespace OrdMap

def empty : OrdMap κ α := ⟨[], .nil⟩

instance : Inhabited (OrdMap κ α) := ⟨empty⟩

def get (m : OrdMap κ α) (k : κ) : Option α := m.entries.lookup k

def insert (m : OrdMap κ α) (k : κ) (v : α) : OrdMap κ α :=
  ⟨insertSorted k v m.entries, pairwise_insertSorted k v m.sorted⟩

def erase (m : OrdMap κ α) (k : κ) : OrdMap κ α :=
  ⟨m.entries.filter (·.1 ≠ k), m.sorted.filter _⟩

/-- Insert the entries one by one, so that the last one of a key stays. -/
def extend (m : OrdMap κ α) (l : List (κ × α)) : OrdMap κ α :=
  l.foldl (fun m e => m.insert e.1 e.2) m

def ofList (l : List (κ × α)) : OrdMap κ α := empty.extend l

/-- A key that is not before the last one becomes the last one. -/
theorem getLast?_insert_of_not_lt {m : OrdMap κ α} {k : κ} {v : α}
    (h : ∀ e, m.entries.getLast? = some e → ¬ k < e.1) :
    (m.insert k v).entries.getLast? = some (k, v) := by
  rw [insert, getLast?_insertSorted k v m.sorted]
  cases hl : m.entries.getLast? with
  | none => rfl
  | some e => exact if_neg (h e hl)

theorem getLast?_insert_of_lt {m : OrdMap κ α} {k : κ} {v : α} {e : κ × α}
    (hl : m.entries.getLast? = some e) (h : k < e.1) :
    (m.insert k v).entries.getLast? = some e := by
  rw [insert, getLast?_insertSorted k v m.sorted, hl]
  exact if_pos h

@[simp] theorem get_empty (k : κ) : (empty : OrdMap κ α).get k = none := rfl

@[simp] theorem get_insert (m : OrdMap κ α) (k x : κ) (v : α) :
    (m.insert k v).get x = if x = k then some v else m.get x :=
  lookup_insertSorted k x v m.entries

@[simp] theorem get_erase (m : OrdMap κ α) (k x : κ) :
    (m.erase k).get x = if x = k then none else m.get x := by
  change (m.entries.filter (·.1 ≠ k)).lookup x = if x = k then none else m.entries.lookup x
  induction m.entries with
  | nil => simp
  | cons e l ih => grind

/-- A map holds the pairs of its list. -/
theorem get_eq_some {m : OrdMap κ α} {k : κ} {v : α} :
    m.get k = some v ↔ (k, v) ∈ m.entries := by
  obtain ⟨l, hl⟩ := m
  change l.lookup k = some v ↔ (k, v) ∈ l
  induction l with
  | nil => simp
  | cons e l ih =>
    obtain ⟨k', v'⟩ := e
    obtain ⟨hhead, htail⟩ := List.pairwise_cons.mp hl
    have hne : (k, v) ∈ l → k ≠ k' := fun h => (ne_of_lt (hhead _ h)).symm
    have ih := ih htail
    grind

theorem get_eq_none {m : OrdMap κ α} {k : κ} : m.get k = none ↔ k ∉ m.entries.map Prod.fst := by
  constructor
  · intro h hk
    obtain ⟨e, he, rfl⟩ := List.mem_map.mp hk
    rw [get_eq_some.mpr he] at h
    cases h
  · intro h
    cases hg : m.get k with
    | none => rfl
    | some v => exact absurd (List.mem_map.mpr ⟨_, get_eq_some.mp hg, rfl⟩) h

/-- A map is determined by what it gives for each key. -/
theorem ext_get {m m' : OrdMap κ α} (h : ∀ k, m.get k = m'.get k) : m = m' := by
  have hmem : ∀ e, e ∈ m.entries ↔ e ∈ m'.entries := fun e => by
    rw [← get_eq_some, ← get_eq_some, h]
  have hperm : m.entries.Perm m'.entries :=
    (List.perm_ext_iff_of_nodup (m.sorted.imp fun h => ne_of_apply_ne Prod.fst (ne_of_lt h))
      (m'.sorted.imp fun h => ne_of_apply_ne Prod.fst (ne_of_lt h))).mpr hmem
  have heq : m.entries = m'.entries :=
    hperm.eq_of_pairwise (fun a b _ _ hab hba => absurd (lt_trans hab hba) (lt_irrefl _))
      m.sorted m'.sorted
  obtain ⟨l, hl⟩ := m
  obtain ⟨l', hl'⟩ := m'
  obtain rfl : l = l' := heq
  rfl

theorem insert_eq_self {m : OrdMap κ α} {k : κ} {v : α} (h : m.get k = some v) :
    m.insert k v = m := by
  refine ext_get fun x => ?_
  rw [get_insert]
  split_ifs with hx
  · rw [hx, h]
  · rfl

theorem insert_insert (m : OrdMap κ α) (k : κ) (v w : α) :
    (m.insert k v).insert k w = m.insert k w :=
  ext_get fun x => by
    simp only [get_insert]
    split_ifs <;> rfl

theorem erase_erase (m : OrdMap κ α) (k : κ) : (m.erase k).erase k = m.erase k :=
  ext_get fun x => by
    simp only [get_erase]
    split_ifs <;> rfl

theorem erase_insert (m : OrdMap κ α) (k : κ) (v : α) : (m.insert k v).erase k = m.erase k :=
  ext_get fun x => by
    simp only [get_erase, get_insert]
    split_ifs <;> rfl

theorem get_extend (m : OrdMap κ α) (l : List (κ × α)) (k : κ) :
    (m.extend l).get k = (l.reverse.lookup k).or (m.get k) := by
  induction l generalizing m with
  | nil => rfl
  | cons e l ih =>
    have hstep : m.extend (e :: l) = (m.insert e.1 e.2).extend l := rfl
    rw [hstep, ih, List.reverse_cons, List.lookup_append, get_insert]
    grind

/-- The value of a key in a list with distinct keys does not depend on the order. -/
theorem lookup_reverse_entries (m : OrdMap κ α) (k : κ) :
    m.entries.reverse.lookup k = m.get k := by
  obtain ⟨l, hl⟩ := m
  change l.reverse.lookup k = l.lookup k
  induction l with
  | nil => rfl
  | cons e l ih =>
    obtain ⟨hhead, htail⟩ := List.pairwise_cons.mp hl
    rw [List.reverse_cons, List.lookup_append, ih htail]
    by_cases hk : k = e.1
    · have hnone : (⟨l, htail⟩ : OrdMap κ α).get k = none := by
        rw [get_eq_none]
        rintro hmem
        obtain ⟨e', he', heq⟩ := List.mem_map.mp hmem
        exact absurd (heq.trans hk) (ne_of_lt (hhead e' he')).symm
      change l.lookup k = none at hnone
      grind
    · grind

/-- Extending by the entries of a map lets that map win. -/
@[simp] theorem get_extend_entries (m m' : OrdMap κ α) (k : κ) :
    (m.extend m'.entries).get k = (m'.get k).or (m.get k) := by
  rw [get_extend, lookup_reverse_entries]

theorem mem_of_get_ofList {l : List (κ × α)} {k : κ} {v : α} (h : (ofList l).get k = some v) :
    (k, v) ∈ l := by
  rw [ofList, get_extend, get_empty, Option.or_none] at h
  obtain ⟨before, after, heq, _⟩ := List.lookup_eq_some_iff.mp h
  rw [← List.mem_reverse, heq]
  simp

/-- In a list of distinct keys each key has its own value. -/
theorem get_ofList_of_mem {l : List (κ × α)} {k : κ} {v : α} (hd : (l.map Prod.fst).Nodup)
    (h : (k, v) ∈ l) : (ofList l).get k = some v := by
  rw [ofList, get_extend, get_empty, Option.or_none]
  obtain ⟨before, after, rfl⟩ := List.append_of_mem h
  have hafter : k ∉ after.map Prod.fst := by
    intro hmem
    rw [List.map_append, List.map_cons, List.nodup_append, List.nodup_cons] at hd
    exact hd.2.1.1 hmem
  rw [List.reverse_append, List.reverse_cons, List.append_assoc, List.lookup_append]
  have hnone : after.reverse.lookup k = none := by
    rw [List.lookup_eq_none_iff]
    intro e he
    have hne : e.1 ≠ k := fun heq => hafter (heq ▸ List.mem_map_of_mem (List.mem_reverse.mp he))
    simpa [bne_iff_ne] using hne.symm
  simp [hnone]

/-- A list that pairs each of some keys with its value of a partial function. -/
theorem get_ofList_keyed (g : κ → Option α) (ks : List κ) (k : κ) :
    (ofList (ks.filterMap fun k => (g k).map fun v => (k, v))).get k =
      if k ∈ ks then g k else none := by
  have hlookup : ∀ ks : List κ, (ks.filterMap fun k => (g k).map fun v => (k, v)).lookup k =
      if k ∈ ks then g k else none := by
    intro ks
    induction ks with
    | nil => rfl
    | cons k' ks ih => cases hg : g k' <;> grind
  rw [ofList, get_extend, get_empty, Option.or_none, ← List.filterMap_reverse, hlookup]
  simp

theorem ofList_entries (m : OrdMap κ α) : ofList m.entries = m :=
  ext_get fun k => by simp [ofList]

/-- Change every value. -/
def map {β : Type*} (f : α → β) (m : OrdMap κ α) : OrdMap κ β where
  entries := m.entries.map fun e => (e.1, f e.2)
  sorted := List.pairwise_map.mpr m.sorted

/-- Change every value, looking at its key. -/
def mapKeyed {β : Type*} (f : κ → α → β) (m : OrdMap κ α) : OrdMap κ β where
  entries := m.entries.map fun e => (e.1, f e.1 e.2)
  sorted := List.pairwise_map.mpr m.sorted

@[simp] theorem get_map {β : Type*} (f : α → β) (m : OrdMap κ α) (k : κ) :
    (m.map f).get k = (m.get k).map f := by
  obtain ⟨l, hl⟩ := m
  change (l.map fun e => (e.1, f e.2)).lookup k = (l.lookup k).map f
  clear hl
  induction l with
  | nil => rfl
  | cons e l ih => grind

@[simp] theorem get_mapKeyed {β : Type*} (f : κ → α → β) (m : OrdMap κ α) (k : κ) :
    (m.mapKeyed f).get k = (m.get k).map (f k) := by
  obtain ⟨l, hl⟩ := m
  change (l.map fun e => (e.1, f e.1 e.2)).lookup k = (l.lookup k).map (f k)
  clear hl
  induction l with
  | nil => rfl
  | cons e l ih => grind

end OrdMap

end Tethys.Lib
