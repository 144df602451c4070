import Mathlib.Data.List.Basic
import Mathlib.Order.Nat
import Mathlib.Tactic.Common
import Mathlib.Algebra.GroupWithZero.Nat

/-!
# Changes between two lists

A list of changes turns one list into another: each change says which part of the first becomes
which part of the second, and between two changes the lists agree. Any of the changes can then be
made in the first list, or taken back in the second.
-/

namespace Tethys.Lib

variable {α : Type*}

/-- Positions from a first one up to the one after the last. -/
structure Span where
  start : Nat
  stop : Nat
  deriving DecidableEq

/-- The entries at these positions. -/
def slice (l : List α) (i j : Nat) : List α := (l.drop i).take (j - i)

/-- Part of one list that becomes part of another. -/
structure Change where
  before : Span
  after : Span
  deriving DecidableEq

section Slices
variable {l : List α} {i j k : Nat}

theorem length_slice (h : j ≤ l.length) : (slice l i j).length = j - i := by
  rw [slice, List.length_take, List.length_drop]
  omega

@[simp]
theorem slice_self : slice l i i = [] := by simp [slice]

theorem slice_append (hij : i ≤ j) (hjk : j ≤ k) : slice l i j ++ slice l j k = slice l i k := by
  have hdrop : l.drop j = (l.drop i).drop (j - i) := by
    rw [List.drop_drop, Nat.add_sub_cancel' hij]
  have hsplit : k - i = (j - i) + (k - j) := by omega
  rw [slice, slice, slice, hdrop, hsplit, ← List.take_add]

theorem slice_append_drop (hij : i ≤ j) : slice l i j ++ l.drop j = l.drop i := by
  have hdrop : l.drop j = (l.drop i).drop (j - i) := by
    rw [List.drop_drop, Nat.add_sub_cancel' hij]
  rw [slice, hdrop, List.take_append_drop]

theorem slice_eq_drop (h : l.length ≤ j) : slice l i j = l.drop i := by
  rw [slice, List.take_of_length_le]
  rw [List.length_drop]
  omega

theorem getElem?_slice {m : Nat} (h : i + m < j) : (slice l i j)[m]? = l[i + m]? := by
  rw [slice, List.getElem?_take_of_lt (by omega), List.getElem?_drop]

theorem slice_slice {m : Nat} (h : i + k ≤ j) (hmk : m ≤ k) :
    slice (slice l i j) m k = slice l (i + m) (i + k) := by
  have hlength : i + k - (i + m) = k - m := by omega
  have hinside : m + (k - m) ≤ j - i := by omega
  rw [slice, slice, slice, hlength, List.drop_take, List.take_take, List.drop_drop]
  congr 1
  omega

theorem range'_sub_append (hij : i ≤ j) (hjk : j ≤ k) :
    List.range' i (j - i) ++ List.range' j (k - j) = List.range' i (k - i) := by
  obtain ⟨a, rfl⟩ := Nat.exists_eq_add_of_le hij
  obtain ⟨b, rfl⟩ := Nat.exists_eq_add_of_le hjk
  rw [Nat.add_sub_cancel_left, Nat.add_sub_cancel_left, List.range'_append_1, Nat.add_assoc,
    Nat.add_sub_cancel_left]

/-- The entries of a slice, one position after the other. -/
theorem filterMap_range'_eq_slice (hij : i ≤ j) (hj : j ≤ l.length) :
    (List.range' i (j - i)).filterMap (fun m => l[m]?) = slice l i j := by
  obtain ⟨k, rfl⟩ := Nat.exists_eq_add_of_le hij
  rw [slice, Nat.add_sub_cancel_left]
  induction k generalizing i with
  | zero => simp
  | succ k ih =>
    have hi : i < l.length := by omega
    have hrest := ih (i := i + 1) (by omega) (by omega)
    rw [List.range'_succ, List.filterMap_cons, List.getElem?_eq_getElem hi, hrest,
      List.drop_eq_getElem_cons hi, List.take_succ_cons]

end Slices

/-! ## Lists that agree but for the changes -/

section Agreement
variable {old new : List α} {o n o' n' : Nat}

/-- From one pair of positions to another, the lists have the same entries. -/
structure Agree (old new : List α) (o n o' n' : Nat) : Prop where
  before : o ≤ o'
  after : n ≤ n'
  inBefore : o' ≤ old.length
  inAfter : n' ≤ new.length
  same : slice old o o' = slice new n n'

/-- Between two pairs of positions, the lists agree but for the changes. -/
def Changed (old new : List α) (o n : Nat) : List Change → Nat → Nat → Prop
  | [], o', n' => Agree old new o n o' n'
  | c :: cs, o', n' =>
    Agree old new o n c.before.start c.after.start ∧ c.before.start ≤ c.before.stop ∧
      c.after.start ≤ c.after.stop ∧ Changed old new c.before.stop c.after.stop cs o' n'

namespace Agree

theorem steps (h : Agree old new o n o' n') : o' - o = n' - n := by
  have hlength := congrArg List.length h.same
  rwa [length_slice h.inBefore, length_slice h.inAfter] at hlength

theorem trans {o'' n'' : Nat} (h : Agree old new o n o' n') (h' : Agree old new o' n' o'' n'') :
    Agree old new o n o'' n'' := by
  refine ⟨h.before.trans h'.before, h.after.trans h'.after, h'.inBefore, h'.inAfter, ?_⟩
  rw [← slice_append h.before h'.before, ← slice_append h.after h'.after, h.same, h'.same]

/-- Lists that agree between two pairs of positions agree on every part in between. -/
theorem part {i j : Nat} (h : Agree old new o n o' n') (hij : i ≤ j) (hj : o + j ≤ o') :
    Agree old new (o + i) (n + i) (o + j) (n + j) := by
  have hsteps := h.steps
  have hafter := h.after
  have hj' : n + j ≤ n' := by omega
  refine ⟨by omega, by omega, hj.trans h.inBefore, hj'.trans h.inAfter, ?_⟩
  rw [← slice_slice hj hij, ← slice_slice hj' hij, h.same]

end Agree

namespace Changed
variable {c : Change} {cs ds : List Change}

theorem le (h : Changed old new o n cs o' n') : o ≤ o' ∧ n ≤ n' := by
  induction cs generalizing o n with
  | nil => exact ⟨h.before, h.after⟩
  | cons c cs ih =>
    obtain ⟨hgap, hbefore, hafter, hrest⟩ := h
    obtain ⟨ho, hn⟩ := ih hrest
    exact ⟨hgap.before.trans (hbefore.trans ho), hgap.after.trans (hafter.trans hn)⟩

theorem inside (h : Changed old new o n cs o' n') : o' ≤ old.length ∧ n' ≤ new.length := by
  induction cs generalizing o n with
  | nil => exact ⟨h.inBefore, h.inAfter⟩
  | cons c cs ih => exact ih h.2.2.2

/-- The lists go on agreeing after the last change. -/
theorem extend {x y : Nat} (h : Changed old new o n cs o' n') (hagree : Agree old new o' n' x y) :
    Changed old new o n cs x y := by
  induction cs generalizing o n with
  | nil => exact h.trans hagree
  | cons c cs ih => exact ⟨h.1, h.2.1, h.2.2.1, ih h.2.2.2⟩

/-- Between the changes of two lists of them, there is where the last of the first one stops. -/
theorem split (h : Changed old new o n (cs ++ ds) o' n') (hcs : cs ≠ []) :
    Changed old new o n cs (cs.getLast hcs).before.stop (cs.getLast hcs).after.stop ∧
      Changed old new (cs.getLast hcs).before.stop (cs.getLast hcs).after.stop ds o' n' := by
  induction cs generalizing o n with
  | nil => exact absurd rfl hcs
  | cons c cs ih =>
    obtain ⟨hgap, hbefore, hafter, hrest⟩ := h
    by_cases hnil : cs = []
    · subst hnil
      have hle := hrest.le
      have hin := hrest.inside
      exact ⟨⟨hgap, hbefore, hafter, le_rfl, le_rfl, by simp; omega, by simp; omega, by simp⟩, hrest⟩
    · rw [List.getLast_cons hnil]
      obtain ⟨hfirst, hsecond⟩ := ih hrest hnil
      exact ⟨⟨hgap, hbefore, hafter, hfirst⟩, hsecond⟩

/-- After the last change the lists agree. -/
theorem rest (h : Changed old new o n cs o' n') (hlast : cs.getLast? = some c) :
    Agree old new c.before.stop c.after.stop o' n' := by
  obtain ⟨front, rfl⟩ := List.getLast?_eq_some_iff.mp hlast
  rw [← List.append_nil (front ++ [c])] at h
  have hsplit := (h.split (by simp)).2
  rwa [List.getLast_concat] at hsplit

end Changed

/-! ## Counting -/

/-- How many entries the changes take from the first list, -/
def removed (cs : List Change) : Nat := (cs.map fun c => c.before.stop - c.before.start).sum

/-- and how many they put in the second. -/
def added (cs : List Change) : Nat := (cs.map fun c => c.after.stop - c.after.start).sum

/-- The entries that are not removed are those that are not added. -/
theorem Changed.balanced {cs : List Change} (h : Changed old new o n cs o' n') :
    removed cs + (n' - n) = added cs + (o' - o) := by
  induction cs generalizing o n with
  | nil =>
    have hsteps := Agree.steps h
    simp only [removed, added, List.map_nil, List.sum_nil]
    omega
  | cons c cs ih =>
    obtain ⟨hgap, hbefore, hafter, hrest⟩ := h
    have hsteps := hgap.steps
    have hstart := hgap.before
    have hstart' := hgap.after
    have hle := hrest.le
    have hih := ih hrest
    simp only [removed, added, List.map_cons, List.sum_cons] at hih ⊢
    omega

theorem Changed.removed_le {cs : List Change} (h : Changed old new o n cs o' n') :
    removed cs ≤ o' - o := by
  induction cs generalizing o n with
  | nil => exact Nat.zero_le _
  | cons c cs ih =>
    obtain ⟨hgap, hbefore, -, hrest⟩ := h
    have hstart := hgap.before
    have hle := hrest.le
    have hih := ih hrest
    simp only [removed, List.map_cons, List.sum_cons] at hih ⊢
    omega

/-! ## Making changes and taking them back -/

/-- The list from a position on, with other entries in these spans. -/
def replaceFrom (l : List α) : Nat → List (Span × List α) → List α
  | i, [] => l.drop i
  | i, (s, entries) :: rest => slice l i s.start ++ entries ++ replaceFrom l s.stop rest

variable (old new) in
/-- The changes, made in the list before. -/
def makeAll (i : Nat) (cs : List Change) : List α :=
  replaceFrom old i (cs.map fun c => (c.before, slice new c.after.start c.after.stop))

variable (old new) in
/-- The changes, taken back in the list after. -/
def takeBack (i : Nat) (cs : List Change) : List α :=
  replaceFrom new i (cs.map fun c => (c.after, slice old c.before.start c.before.stop))

theorem replaceFrom_skip {l : List α} {i j : Nat} {edits : List (Span × List α)} (hij : i ≤ j)
    (hedits : ∀ e ∈ edits, j ≤ e.1.start) :
    replaceFrom l i edits = slice l i j ++ replaceFrom l j edits := by
  cases edits with
  | nil => exact (slice_append_drop hij).symm
  | cons e rest =>
    rw [replaceFrom, replaceFrom, ← slice_append hij (hedits e List.mem_cons_self)]
    simp only [List.append_assoc]

namespace Changed
variable {c : Change} {cs : List Change}

/-- The changes stand after the position at which they begin. -/
theorem starts (h : Changed old new o n cs o' n') (hc : c ∈ cs) :
    o ≤ c.before.start ∧ n ≤ c.after.start := by
  induction cs generalizing o n with
  | nil => cases hc
  | cons d cs ih =>
    obtain ⟨hgap, hbefore, hafter, hrest⟩ := h
    cases hc with
    | head => exact ⟨hgap.before, hgap.after⟩
    | tail _ hc =>
      obtain ⟨ho, hn⟩ := ih hrest hc
      exact ⟨hgap.before.trans (hbefore.trans ho), hgap.after.trans (hafter.trans hn)⟩

/-- The changes ascend, and no two of them meet. -/
theorem pairwise (h : Changed old new o n cs o' n') :
    cs.Pairwise fun c d => c.before.stop ≤ d.before.start ∧ c.after.stop ≤ d.after.start := by
  induction cs generalizing o n with
  | nil => exact .nil
  | cons c cs ih =>
    obtain ⟨-, -, -, hrest⟩ := h
    exact .cons (fun d hd => hrest.starts hd) (ih hrest)

theorem stops (h : Changed old new o n cs o' n') (hc : c ∈ cs) :
    c.before.start ≤ c.before.stop ∧ c.after.start ≤ c.after.stop ∧
      c.before.stop ≤ old.length ∧ c.after.stop ≤ new.length := by
  induction cs generalizing o n with
  | nil => cases hc
  | cons d cs ih =>
    obtain ⟨-, hbefore, hafter, hrest⟩ := h
    cases hc with
    | head => exact ⟨hbefore, hafter, hrest.le.1.trans hrest.inside.1, hrest.le.2.trans hrest.inside.2⟩
    | tail _ hc => exact ih hrest hc

theorem makeAll_eq (h : Changed old new o n cs old.length new.length) :
    makeAll old new o cs = new.drop n := by
  induction cs generalizing o n with
  | nil =>
    have hsame := h.same
    rwa [slice_eq_drop le_rfl, slice_eq_drop le_rfl] at hsame
  | cons c cs ih =>
    obtain ⟨hgap, hbefore, hafter, hrest⟩ := h
    have hmake : makeAll old new o (c :: cs) = slice old o c.before.start ++
        slice new c.after.start c.after.stop ++ makeAll old new c.before.stop cs := rfl
    rw [hmake, ih hrest, hgap.same, slice_append hgap.after hafter,
      slice_append_drop (hgap.after.trans hafter)]

/-- Taking back some of the changes leaves the others made. -/
theorem takeBack_filter {ι : Type*} {f : ι → Change} {l : List ι} (chosen : ι → Bool)
    (h : Changed old new o n (l.map f) old.length new.length) :
    takeBack old new n ((l.filter chosen).map f) =
      makeAll old new o ((l.filter fun x => !chosen x).map f) := by
  induction l generalizing o n with
  | nil =>
    have hsame := h.same
    rw [slice_eq_drop le_rfl, slice_eq_drop le_rfl] at hsame
    exact hsame.symm
  | cons x l ih =>
    obtain ⟨hgap, hbefore, hafter, hrest⟩ := h
    have hstarts : ∀ p : ι → Bool, ∀ y ∈ l.filter p,
        (f x).before.stop ≤ (f y).before.start ∧ (f x).after.stop ≤ (f y).after.start :=
      fun p y hy => hrest.starts (List.mem_map_of_mem (List.mem_of_mem_filter hy))
    cases hx : chosen x with
    | true =>
      have hlater : ∀ e ∈ ((l.filter fun x => !chosen x).map f).map
          (fun c => (c.before, slice new c.after.start c.after.stop)), (f x).before.stop ≤ e.1.start := by
        simp only [List.map_map, List.mem_map, Function.comp_apply]
        rintro e ⟨y, hy, rfl⟩
        exact (hstarts _ y hy).1
      rw [List.filter_cons_of_pos hx, List.filter_cons_of_neg (by simp [hx])]
      have hback : takeBack old new n ((x :: l.filter chosen).map f) = slice new n (f x).after.start ++
          slice old (f x).before.start (f x).before.stop ++
            takeBack old new (f x).after.stop ((l.filter chosen).map f) := rfl
      rw [hback, ih hrest, ← hgap.same, slice_append hgap.before hbefore]
      exact (replaceFrom_skip (hgap.before.trans hbefore) hlater).symm
    | false =>
      have hlater : ∀ e ∈ ((l.filter chosen).map f).map
          (fun c => (c.after, slice old c.before.start c.before.stop)), (f x).after.stop ≤ e.1.start := by
        simp only [List.map_map, List.mem_map, Function.comp_apply]
        rintro e ⟨y, hy, rfl⟩
        exact (hstarts _ y hy).2
      rw [List.filter_cons_of_neg (by simp [hx]), List.filter_cons_of_pos (by simp [hx])]
      have hmake : makeAll old new o ((x :: l.filter fun x => !chosen x).map f) =
          slice old o (f x).before.start ++ slice new (f x).after.start (f x).after.stop ++
            makeAll old new (f x).before.stop ((l.filter fun x => !chosen x).map f) := rfl
      rw [hmake, ← ih hrest, hgap.same, slice_append hgap.after hafter]
      exact replaceFrom_skip (hgap.after.trans hafter) hlater

end Changed

end Agreement

/-! ## Blocks of a list -/

/-- The block stands in the list at this position. -/
def StandsAt (block l : List α) (i : Nat) : Prop := i ≤ l.length ∧ block <+: l.drop i

/-- Each block has a place in the list, and no two of them share an entry. -/
def Fits (blocks : List (List α)) (l : List α) : Prop :=
  ∃ places : List (List α × Nat), places.map Prod.fst = blocks ∧
    (∀ e ∈ places, StandsAt e.1 l e.2) ∧
    places.Pairwise fun e e' => e.2 + e.1.length ≤ e'.2 ∨ e'.2 + e'.1.length ≤ e.2

/-- A block that stands there once does not fit twice. -/
theorem not_fits_of_twice {block l : List α} {blocks : List (List α)} {i : Nat} (hne : block ≠ [])
    (honce : ∀ j, StandsAt block l j → j = i) (htwice : List.Sublist [block, block] blocks) :
    ¬ Fits blocks l := by
  rintro ⟨places, rfl, hstands, hapart⟩
  obtain ⟨two, htwo, hmap⟩ := List.sublist_map_iff.mp htwice
  obtain ⟨e, rest, rfl, he, hrest⟩ := List.map_eq_cons_iff.mp hmap.symm
  obtain ⟨e', rest', rfl, he', -⟩ := List.map_eq_cons_iff.mp hrest
  have hplace := honce e.2 (he ▸ hstands e (htwo.subset (by simp)))
  have hplace' := honce e'.2 (he' ▸ hstands e' (htwo.subset (by simp)))
  have hpos := List.length_pos_of_ne_nil hne
  have htwoApart := (List.pairwise_cons.mp (hapart.sublist htwo)).1 e' (by simp)
  rw [he, he', hplace, hplace'] at htwoApart
  omega

end Tethys.Lib
