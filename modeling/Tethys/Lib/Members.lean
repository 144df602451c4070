import Tethys.Lib.OrdMap

/-!
# Editing nested members in place

A document is a tree whose inner nodes hold a list of named members, where a name may occur
more than once. An edit goes down a path of names, at each level to the first member of that
name, and changes one member at its end; what is missing on the way is appended. An entry is
found by its index on each level, which no edit moves. A reader that goes by names takes the
last readable member of a name, so a later member can hide the one that an edit changes.
-/

namespace Tethys.Lib

section Flat
variable {κ ν : Type*} [DecidableEq κ]

/-- Change the first member called `k`, or append one. -/
def edit (k : κ) (f : Option ν → ν) : List (κ × ν) → List (κ × ν)
  | [] => [(k, f none)]
  | e :: l => if e.1 = k then (k, f (some e.2)) :: l else e :: edit k f l

/-- The index of the first member called `k`. -/
def slot (k : κ) : List (κ × ν) → Option Nat
  | [] => none
  | e :: l => if e.1 = k then some 0 else (slot k l).map (· + 1)

variable {k x : κ} {f : Option ν → ν} {l : List (κ × ν)} {e : κ × ν} {i : Nat}

theorem getElem?_edit (h : l[i]? = some e) :
    (edit k f l)[i]? = some (if slot k l = some i then (k, f (some e.2)) else e) := by
  induction l generalizing i with
  | nil => simp at h
  | cons e' l ih =>
    cases i with
    | zero =>
      obtain rfl : e' = e := by simpa using h
      by_cases hk : e'.1 = k <;> simp [edit, slot, hk]
    | succ i =>
      have hi : l[i]? = some e := by simpa using h
      by_cases hk : e'.1 = k
      · simp [edit, slot, hk, hi]
      · simp [edit, slot, hk, ih hi]

theorem getElem?_slot (h : slot k l = some i) : ∃ v, l[i]? = some (k, v) := by
  induction l generalizing i with
  | nil => simp [slot] at h
  | cons e l ih =>
    unfold slot at h
    split_ifs at h with hk
    · obtain rfl := Option.some.inj h
      exact ⟨e.2, by simp [← hk]⟩
    · obtain ⟨j, hj, rfl⟩ := Option.map_eq_some_iff.mp h
      simpa using ih hj

theorem slot_edit (h : slot x l = some i) : slot x (edit k f l) = some i := by
  induction l generalizing i with
  | nil => simp [slot] at h
  | cons e l ih =>
    unfold slot at h
    split_ifs at h with hx
    · obtain rfl := Option.some.inj h
      by_cases hk : e.1 = k <;> simp_all [edit, slot]
    · obtain ⟨j, hj, rfl⟩ := Option.map_eq_some_iff.mp h
      by_cases hk : e.1 = k
      · have hne : k ≠ x := fun hkx => hx (hk.trans hkx)
        simp [edit, slot, hk, hne, hj]
      · simp [edit, slot, hk, hx, ih hj]

/-- An edit makes no other old member the first one of its name. -/
theorem slot_of_edit (h : slot x (edit k f l) = some i) (hi : l[i]? = some e) :
    slot x l = some i := by
  induction l generalizing i with
  | nil => simp at hi
  | cons e' l ih =>
    by_cases hk : e'.1 = k
    · simpa [edit, slot, hk] using h
    · rw [edit, if_neg hk] at h
      by_cases hx : e'.1 = x
      · simpa [slot, hx] using h
      · obtain ⟨j, hj, rfl⟩ : ∃ j, slot x (edit k f l) = some j ∧ j + 1 = i := by
          simpa [slot, hx] using h
        simpa [slot, hx] using ih hj (by simpa using hi)

theorem lookup_edit :
    (edit k f l).lookup x = if x = k then some (f (l.lookup k)) else l.lookup x := by
  fun_induction edit k f l <;> grind

/-- Members of another name are not touched. -/
theorem filter_edit_of_ne : (edit k f l).filter (·.1 ≠ k) = l.filter (·.1 ≠ k) := by
  fun_induction edit k f l <;> grind

end Flat

section Reading
variable {κ ν ρ : Type*} [DecidableEq κ] (read : ν → Option ρ)

/-- What is read under a name: the last readable member counts. -/
def lastRead (k : κ) (l : List (κ × ν)) : Option ρ :=
  (l.filterMap fun e => (read e.2).map fun r => (e.1, r)).reverse.lookup k

/-- A later readable member hides the first one called `k`. -/
def hidden (k : κ) : List (κ × ν) → Bool
  | [] => false
  | e :: l => if e.1 = k then (lastRead read k l).isSome else hidden k l

variable {read} {k x : κ} {l : List (κ × ν)} {e : κ × ν} {v : ν}

theorem lastRead_nil : lastRead read k ([] : List (κ × ν)) = none := rfl

theorem lastRead_cons : lastRead read k (e :: l) =
    (lastRead read k l).or (if e.1 = k then read e.2 else none) := by
  unfold lastRead
  rw [List.filterMap_cons]
  cases hr : read e.2 with
  | none => simp
  | some r =>
    rw [Option.map_some, List.reverse_cons, List.lookup_append]
    by_cases hk : e.1 = k
    · simp [hk]
    · simp [hk, List.lookup_cons, beq_false_of_ne (Ne.symm hk)]

theorem lastRead_of_not_mem (h : k ∉ l.map Prod.fst) : lastRead read k l = none := by
  induction l with
  | nil => rfl
  | cons e l ih => grind [lastRead_cons]

/-- With distinct names nothing is hidden. -/
theorem hidden_of_nodup (h : (l.map Prod.fst).Nodup) : hidden read k l = false := by
  induction l with
  | nil => rfl
  | cons e l ih =>
    rw [List.map_cons, List.nodup_cons] at h
    unfold hidden
    split_ifs with hk
    · simp [lastRead_of_not_mem (hk ▸ h.1)]
    · exact ih h.2

theorem lastRead_edit_of_ne (h : x ≠ k) :
    lastRead read x (edit k (fun _ => v) l) = lastRead read x l := by
  induction l with
  | nil => simp [edit, lastRead_cons, lastRead_nil, Ne.symm h]
  | cons e l ih => grind [edit, lastRead_cons]

/-- A changed member is read, unless a later one hides it. -/
theorem lastRead_edit : lastRead read k (edit k (fun _ => v) l) =
    if hidden read k l then lastRead read k l else read v := by
  induction l with
  | nil => simp [edit, lastRead_cons, lastRead_nil, hidden]
  | cons e l ih =>
    by_cases hk : e.1 = k
    · cases hl : lastRead read k l <;> simp [edit, hidden, lastRead_cons, hk, hl]
    · cases hl : hidden read k l with
      | true =>
        rw [hl, if_pos rfl] at ih
        simp [edit, hidden, lastRead_cons, hk, hl, ih]
      | false =>
        rw [hl, if_neg Bool.false_ne_true] at ih
        simp [edit, hidden, lastRead_cons, hk, hl, ih]

theorem hidden_edit_of_ne (h : x ≠ k) :
    hidden read x (edit k (fun _ => v) l) = hidden read x l := by
  induction l with
  | nil => simp [edit, hidden, Ne.symm h]
  | cons e l ih =>
    have hkept : lastRead read x (edit k (fun _ => v) l) = lastRead read x l :=
      lastRead_edit_of_ne h
    grind [edit, hidden]

end Reading

section Sorted
variable {κ ν ρ : Type*} [LinearOrder κ] {read : ν → Option ρ} {k x : κ} {l : List (κ × ν)} {v : ν}

/-- With distinct names, what is read under a name is the member of that name. -/
theorem lastRead_of_sorted (h : l.Pairwise fun a b => a.1 < b.1) :
    lastRead read k l = (l.lookup k).bind read := by
  induction l with
  | nil => rfl
  | cons e l ih =>
    obtain ⟨k', v'⟩ := e
    obtain ⟨hhead, htail⟩ := List.pairwise_cons.mp h
    have hnone : k' = k → l.lookup k = none := fun hk =>
      List.lookup_eq_none_iff.mpr fun e' he' => by simpa [← hk] using ne_of_lt (hhead e' he')
    rw [lastRead_cons, ih htail]
    grind

theorem hidden_of_sorted (h : l.Pairwise fun a b => a.1 < b.1) : hidden read k l = false :=
  hidden_of_nodup (List.pairwise_map.mpr (h.imp fun hlt => ne_of_lt hlt))

theorem lastRead_insertSorted (h : l.Pairwise fun a b => a.1 < b.1) :
    lastRead read x (insertSorted k v l) = if x = k then read v else lastRead read x l := by
  rw [lastRead_of_sorted (pairwise_insertSorted k v h), lastRead_of_sorted h, lookup_insertSorted]
  split_ifs <;> rfl

end Sorted

section Nested
variable {κ ν : Type*} [DecidableEq κ] (members : ν → Option (List (κ × ν)))
  (node : List (κ × ν) → ν)

/-- Change the first member called `k` below a path of names. -/
def editAt (k : κ) (f : Option ν → ν) : List κ → List (κ × ν) → List (κ × ν)
  | [], l => edit k f l
  | key :: path, l => edit key (fun v => node (editAt k f path ((v.bind members).getD []))) l

/-- The member with the given index on each level, below a path of names. -/
def entryAt : List κ → List (κ × ν) → List Nat → Option (κ × ν)
  | [], l, [i] => l[i]?
  | key :: path, l, i :: is =>
    match l[i]? with
    | some e => if e.1 = key then (members e.2).bind fun inner => entryAt path inner is else none
    | none => none
  | _, _, _ => none

/-- Where `editAt` finds the member it changes. -/
def slotAt (k : κ) : List κ → List (κ × ν) → Option (List Nat)
  | [], l => (slot k l).map ([·])
  | key :: path, l =>
    match slot key l with
    | some i =>
      (l[i]?.bind fun e => members e.2).bind fun inner => (slotAt k path inner).map (i :: ·)
    | none => none

variable {members node} {k x : κ} {f : Option ν → ν} {path : List κ} {l : List (κ × ν)}
  {e : κ × ν} {is : List Nat}

theorem entryAt_slotAt (h : slotAt members k path l = some is) :
    ∃ v, entryAt members path l is = some (k, v) := by
  induction path generalizing l is with
  | nil =>
    obtain ⟨i, hi, rfl⟩ := Option.map_eq_some_iff.mp h
    exact getElem?_slot hi
  | cons key path ih =>
    unfold slotAt at h
    split at h
    case h_1 i hi =>
      obtain ⟨v, hv⟩ := getElem?_slot hi
      obtain ⟨inner, hinner, hrest⟩ := Option.bind_eq_some_iff.mp h
      obtain ⟨is, his, rfl⟩ := Option.map_eq_some_iff.mp hrest
      simp only [hv, Option.bind_some] at hinner
      simpa [entryAt, hv, hinner] using ih his
    case h_2 => exact nomatch h

/-- An edit changes the member it finds and no other. -/
theorem entryAt_editAt (hnode : ∀ l, members (node l) = some l)
    (h : entryAt members path l is = some e) :
    entryAt members path (editAt members node k f path l) is =
      some (if slotAt members k path l = some is then (k, f (some e.2)) else e) := by
  induction path generalizing l is with
  | nil =>
    match is, h with
    | [i], h => simpa [entryAt, editAt, slotAt] using getElem?_edit (i := i) h
  | cons key path ih =>
    match is, h with
    | i :: is, h =>
      unfold entryAt at h
      split at h
      case h_2 => exact nomatch h
      case h_1 e' he' =>
        split_ifs at h with hkey
        obtain ⟨inner, hinner, hentry⟩ := Option.bind_eq_some_iff.mp h
        have hi := getElem?_edit (k := key)
          (f := fun v => node (editAt members node k f path ((v.bind members).getD []))) he'
        by_cases hslot : slot key l = some i
        · simp [entryAt, editAt, slotAt, hi, hslot, he', hinner, hnode, ih hentry]
        · have hother : slotAt members k (key :: path) l ≠ some (i :: is) := by
            unfold slotAt
            split
            case h_1 j hj =>
              intro heq
              obtain ⟨inner', -, hrest⟩ := Option.bind_eq_some_iff.mp heq
              obtain ⟨js, -, hjs⟩ := Option.map_eq_some_iff.mp hrest
              exact hslot (by rw [hj, (List.cons.inj hjs).1])
            case h_2 => exact nofun
          simp [entryAt, editAt, hi, hslot, hkey, hinner, hentry, hother]

/-- An edit leaves every first member where it is. -/
theorem slotAt_editAt (hnode : ∀ l, members (node l) = some l)
    (h : slotAt members x path l = some is) :
    slotAt members x path (editAt members node k f path l) = some is := by
  induction path generalizing l is with
  | nil =>
    obtain ⟨i, hi, rfl⟩ := Option.map_eq_some_iff.mp h
    simp [slotAt, editAt, slot_edit hi]
  | cons key path ih =>
    unfold slotAt at h
    split at h
    case h_2 => exact nomatch h
    case h_1 i hi =>
      obtain ⟨inner, hinner, hrest⟩ := Option.bind_eq_some_iff.mp h
      obtain ⟨is, his, rfl⟩ := Option.map_eq_some_iff.mp hrest
      obtain ⟨e, he, hmembers⟩ := Option.bind_eq_some_iff.mp hinner
      have hedit := getElem?_edit (k := key)
        (f := fun v => node (editAt members node k f path ((v.bind members).getD []))) he
      simp [slotAt, editAt, slot_edit hi, hedit, hi, hmembers, hnode, ih his]

theorem slotAt_of_editAt (hnode : ∀ l, members (node l) = some l)
    (h : slotAt members x path (editAt members node k f path l) = some is)
    (he : entryAt members path l is = some e) : slotAt members x path l = some is := by
  induction path generalizing l is with
  | nil =>
    obtain ⟨i, hi, rfl⟩ := Option.map_eq_some_iff.mp h
    simpa [slotAt] using slot_of_edit hi he
  | cons key path ih =>
    unfold slotAt at h
    split at h
    case h_2 => exact nomatch h
    case h_1 i hi =>
      obtain ⟨inner, hinner, hrest⟩ := Option.bind_eq_some_iff.mp h
      obtain ⟨is, his, rfl⟩ := Option.map_eq_some_iff.mp hrest
      unfold entryAt at he
      split at he
      case h_2 => exact nomatch he
      case h_1 e' he' =>
        split_ifs at he with hkey
        obtain ⟨old, hold, hentry⟩ := Option.bind_eq_some_iff.mp he
        have hslot := slot_of_edit hi he'
        have hedit := getElem?_edit (k := key)
          (f := fun v => node (editAt members node k f path ((v.bind members).getD []))) he'
        obtain rfl : editAt members node k f path old = inner := by
          simpa [editAt, hedit, hslot, hold, hnode] using hinner
        simp [slotAt, hslot, he', hold, ih his hentry]

end Nested

end Tethys.Lib
