import Mathlib.Data.List.Basic
import Mathlib.Data.List.Nodup
import Mathlib.Data.List.Pairwise
import Mathlib.Order.Defs.LinearOrder
import Mathlib.Tactic.Common
import Mathlib.Order.Lattice

/-!
# Keyset pages

A list in strictly ascending order of a rank, read from its end in pages. The next page is
asked for with the rank of the first element of the last one, so that the rest of the list is
what lies below that rank.
-/

namespace Tethys.Lib

variable {α κ : Type*} [LinearOrder κ] {rank : α → κ} {l : List α}

/-- The last `n` elements of a list. -/
def lastPage (n : Nat) (l : List α) : List α := l.drop (l.length - n)

@[simp] theorem lastPage_map {β : Type*} (f : α → β) (n : Nat) (l : List α) :
    lastPage n (l.map f) = (lastPage n l).map f := by
  simp [lastPage]

theorem rank_injOn (h : l.Pairwise fun a b => rank a < rank b) {a b : α} (ha : a ∈ l) (hb : b ∈ l)
    (hab : rank a = rank b) : a = b := by
  refine List.inj_on_of_nodup_map ?_ ha hb hab
  exact List.pairwise_map.mpr (h.imp fun hlt => ne_of_lt hlt)

/-- Lists with the same images are equal where the images tell their elements apart. -/
theorem eq_of_map_eq {β : Type*} {f : α → β} {l m : List α} (h : l.map f = m.map f)
    (hinj : ∀ a ∈ l, ∀ b ∈ m, f a = f b → a = b) : l = m := by
  induction l generalizing m with
  | nil => exact (List.map_eq_nil_iff.mp h.symm).symm
  | cons a l ih =>
    cases m with
    | nil => exact nomatch h
    | cons b m =>
      rw [List.map_cons, List.map_cons, List.cons.injEq] at h
      obtain rfl := hinj a List.mem_cons_self b List.mem_cons_self h.1
      rw [ih h.2 fun x hx y hy => hinj x (List.mem_cons_of_mem _ hx) y (List.mem_cons_of_mem _ hy)]

/-- A non-empty page reaches at least as far as any element. -/
theorem exists_page_ge (rank : α → κ) {n : Nat} {a : α}
    (h : l.Pairwise fun a b => rank a < rank b) (ha : a ∈ l) (hn : 0 < n) :
    ∃ e ∈ lastPage n l, rank a ≤ rank e := by
  have hsplit : l.take (l.length - n) ++ lastPage n l = l := List.take_append_drop _ _
  have hacross := (List.pairwise_append.mp (hsplit.symm ▸ h)).2.2
  have hpos : 0 < (lastPage n l).length := by
    have := List.length_pos_of_mem ha
    rw [lastPage, List.length_drop]
    omega
  rcases List.mem_append.mp (hsplit.symm ▸ ha) with ha | ha
  · obtain ⟨e, he⟩ := List.exists_mem_of_length_pos hpos
    exact ⟨e, he, le_of_lt (hacross a ha e he)⟩
  · exact ⟨a, ha, le_refl _⟩

/-- Sorting by descending rank reverses the list. -/
theorem mergeSort_desc (rank : α → κ) {r : α → α → Bool} (hr : ∀ a b, r a b ↔ rank b ≤ rank a)
    (h : l.Pairwise fun a b => rank a < rank b) : l.mergeSort r = l.reverse := by
  have hperm : (l.mergeSort r).Perm l.reverse :=
    (List.mergeSort_perm _ _).trans (List.reverse_perm _).symm
  have hdesc : (l.mergeSort r).Pairwise fun a b => r a b := by
    refine List.pairwise_mergeSort (fun a b c hab hbc => ?_) (fun a b => ?_) l
    · exact (hr a c).mpr (le_trans ((hr b c).mp hbc) ((hr a b).mp hab))
    · rw [Bool.or_eq_true, hr, hr]
      exact le_total (rank b) (rank a)
  have hrev : l.reverse.Pairwise fun a b => r a b := by
    rw [List.pairwise_reverse]
    exact h.imp fun hlt => (hr _ _).mpr (le_of_lt hlt)
  refine List.Perm.eq_of_pairwise ?_ hdesc hrev hperm
  intro a b ha hb hab hba
  exact rank_injOn h (List.mem_reverse.mp (hperm.mem_iff.mp ha)) (List.mem_reverse.mp hb)
    (le_antisymm ((hr b a).mp hba) ((hr a b).mp hab))

/-- A page cut from a query for one element more, put back in order: the probe tells whether
the list is longer than the page. -/
theorem page_of_probe (n : Nat) (l : List α) :
    (if n < (l.reverse.take (n + 1)).length then (l.reverse.take (n + 1)).take n
      else l.reverse.take (n + 1)).reverse = lastPage n l := by
  have hlen : (l.reverse.take (n + 1)).length = min (n + 1) l.length := by simp
  split_ifs with hmore
  · rw [List.take_take, Nat.min_eq_left (Nat.le_succ n), List.take_reverse, List.reverse_reverse,
      lastPage]
  · have hle : l.length ≤ n := by omega
    have hall : l.reverse.take (n + 1) = l.reverse :=
      List.take_of_length_le (by rw [List.length_reverse]; omega)
    rw [hall, List.reverse_reverse, lastPage, Nat.sub_eq_zero_of_le hle, List.drop_zero]

/-- The elements below the first one of the page are the rest of the list. -/
theorem filter_below_page (rank : α → κ) {p : α → Bool} {n : Nat} {e : α}
    (hp : ∀ a ∈ l, p a ↔ rank a < rank e)
    (h : l.Pairwise fun a b => rank a < rank b) (he : (lastPage n l).head? = some e) :
    l.filter p = l.take (l.length - n) := by
  have hsplit : l.take (l.length - n) ++ lastPage n l = l := List.take_append_drop _ _
  obtain ⟨rest, hrest⟩ : ∃ rest, lastPage n l = e :: rest := List.head?_eq_some_iff.mp he
  obtain ⟨-, hlast, hacross⟩ := List.pairwise_append.mp (hsplit.symm ▸ h)
  rw [hrest] at hlast hacross
  have hall : (l.take (l.length - n)).filter p = l.take (l.length - n) := by
    refine List.filter_eq_self.mpr fun a ha => ?_
    exact (hp a (List.mem_of_mem_take ha)).mpr (hacross a ha e List.mem_cons_self)
  have hnone : (lastPage n l).filter p = [] := by
    refine List.filter_eq_nil_iff.mpr fun a ha => ?_
    rw [hp a (List.mem_of_mem_drop ha), not_lt]
    rcases List.mem_cons.mp (hrest ▸ ha) with rfl | ha
    · exact le_refl _
    · exact le_of_lt ((List.pairwise_cons.mp hlast).1 a ha)
  conv_lhs => rw [← hsplit]
  rw [List.filter_append, hall, hnone, List.append_nil]

/-- A page leaves something out exactly when the list has an element before all of it. -/
theorem longer_iff_older (rank : α → κ) {p : α → Bool} {n : Nat}
    (h : l.Pairwise fun a b => rank a < rank b) (hp : ∀ a b, rank a < rank b → p b → p a)
    (hnil : l.filter p = [] → l = []) (hn : 0 < n) :
    n < (l.filter p).length ↔ ∃ a ∈ l, ∀ e ∈ lastPage n (l.filter p), rank a < rank e := by
  have hsplit : (l.filter p).take ((l.filter p).length - n) ++ lastPage n (l.filter p) =
    l.filter p := List.take_append_drop _ _
  have hacross := (List.pairwise_append.mp (hsplit.symm ▸ h.filter p)).2.2
  constructor
  · intro hlong
    have hpos : 0 < ((l.filter p).take ((l.filter p).length - n)).length := by
      rw [List.length_take]
      omega
    obtain ⟨a, ha⟩ := List.exists_mem_of_length_pos hpos
    exact ⟨a, (List.mem_filter.mp (List.mem_of_mem_take ha)).1, hacross a ha⟩
  · rintro ⟨a, ha, hlt⟩
    by_contra hshort
    have hall : lastPage n (l.filter p) = l.filter p := by
      rw [lastPage, Nat.sub_eq_zero_of_le (Nat.le_of_not_lt hshort), List.drop_zero]
    rw [hall] at hlt
    -- `a` lies below the first element of the window, so it would be in the window itself
    cases hw : l.filter p with
    | nil => exact absurd (hnil hw ▸ ha) List.not_mem_nil
    | cons e rest =>
      have he : e ∈ l.filter p := hw ▸ List.mem_cons_self
      have hpa : p a := hp a e (hlt e he) (List.mem_filter.mp he).2
      exact absurd (hlt a (List.mem_filter.mpr ⟨ha, hpa⟩)) (lt_irrefl _)

end Tethys.Lib
