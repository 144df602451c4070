import Tethys.Lib.OrdMap

/-!
# Trees of files

A finite map from paths to files in which no path lies inside another one: a path that names
a file is no directory. Laying one tree over another keeps this, because a file that comes to
lie on the place of a directory, or the other way round, removes what was there.
-/

namespace Tethys.Lib

/-- Paths, some of which lie inside others. -/
class Nested (κ : Type*) where
  inside : κ → κ → Bool
  irrefl : ∀ p, inside p p = false

section Paths
variable {κ : Type*} [Nested κ]

/-- The two paths cannot both be files: one of them lies inside the other. -/
def clash (p q : κ) : Bool := Nested.inside p q || Nested.inside q p

theorem clash_comm (p q : κ) : clash p q = clash q p := Bool.or_comm _ _

end Paths

/-- A finite map from paths to files, no two of which clash. -/
structure FileTree (κ α : Type*) [LinearOrder κ] [Nested κ] where
  files : OrdMap κ α
  apart : ∀ p q, files.get p ≠ none → files.get q ≠ none → clash p q = false

namespace FileTree

variable {κ α : Type*} [LinearOrder κ] [Nested κ]

instance [DecidableEq α] : DecidableEq (FileTree κ α) := fun t t' =>
  decidable_of_iff (t.files = t'.files) <| by
    cases t
    cases t'
    simp

def get (t : FileTree κ α) (p : κ) : Option α := t.files.get p

def paths (t : FileTree κ α) : List κ := t.files.entries.map Prod.fst

def empty : FileTree κ α := ⟨.empty, fun _ _ h => absurd rfl h⟩

@[simp] theorem get_empty (p : κ) : (empty : FileTree κ α).get p = none := rfl

def single (p : κ) (v : α) : FileTree κ α where
  files := .ofList [(p, v)]
  apart := by
    intro q q' hq hq'
    have hp : ∀ x, (OrdMap.ofList [(p, v)]).get x ≠ none → x = p := by
      intro x hx
      by_contra hne
      simp [OrdMap.ofList, OrdMap.extend, hne] at hx
    rw [hp q hq, hp q' hq', clash, Nested.irrefl]
    rfl

theorem mem_paths {t : FileTree κ α} {p : κ} : p ∈ t.paths ↔ t.get p ≠ none :=
  (not_iff_comm.mp OrdMap.get_eq_none.symm).symm

/-- A tree is determined by the file at each path. -/
theorem ext_get {t t' : FileTree κ α} (h : ∀ p, t.get p = t'.get p) : t = t' := by
  obtain ⟨files, apart⟩ := t
  obtain ⟨files', apart'⟩ := t'
  obtain rfl : files = files' := OrdMap.ext_get h
  rfl

/-- A file of a tree is in the way of no path that clashes with it. -/
theorem get_eq_none_of_clash {t : FileTree κ α} {p q : κ} (hq : t.get q ≠ none)
    (hclash : clash q p = true) : t.get p = none := by
  by_contra hp
  rw [t.apart q p hq hp] at hclash
  cases hclash

/-- Other files on some of the paths of a tree. -/
def refit (t : FileTree κ α) (l : List (κ × α)) (h : (l.map Prod.fst).Sublist t.paths) :
    FileTree κ α where
  files := ⟨l, List.pairwise_map.mp ((List.pairwise_map.mpr t.files.sorted).sublist h)⟩
  apart := by
    intro p q hp hq
    have hmem : ∀ x, List.lookup x l ≠ none → t.get x ≠ none := by
      intro x hx
      obtain ⟨v, hv⟩ := Option.ne_none_iff_exists'.mp hx
      obtain ⟨_, _, heq, _⟩ := List.lookup_eq_some_iff.mp hv
      exact mem_paths.mp (h.subset (by simp [heq]))
    exact t.apart p q (hmem p hp) (hmem q hq)

/-- Two files whose paths do not clash. -/
def pair (p q : κ) (v w : α) (hlt : p < q) (hclash : clash p q = false) : FileTree κ α where
  files := ⟨[(p, v), (q, w)], by simpa using hlt⟩
  apart := by
    have hmem : ∀ x, List.lookup x [(p, v), (q, w)] ≠ none → x = p ∨ x = q := by
      intro x hx
      by_contra hne
      simp only [not_or] at hne
      simp [List.lookup_cons, beq_false_of_ne hne.1, beq_false_of_ne hne.2] at hx
    have hself : ∀ x : κ, clash x x = false := fun x => by simp [clash, Nested.irrefl]
    intro x y hx hy
    rcases hmem x hx with rfl | rfl <;> rcases hmem y hy with rfl | rfl
    · exact hself _
    · exact hclash
    · rwa [clash_comm]
    · exact hself _

/-- The tree with the given file at each path, for paths of the list. -/
def tabulate (ps : List κ) (g : κ → Option α)
    (happart : ∀ p q, g p ≠ none → g q ≠ none → clash p q = false) : FileTree κ α where
  files := .ofList (ps.filterMap fun p => (g p).map fun v => (p, v))
  apart := by
    intro p q hp hq
    rw [OrdMap.get_ofList_keyed] at hp hq
    refine happart p q ?_ ?_ <;> grind

theorem get_tabulate {ps : List κ} {g : κ → Option α}
    {happart : ∀ p q, g p ≠ none → g q ≠ none → clash p q = false}
    (hps : ∀ p, g p ≠ none → p ∈ ps) (p : κ) : (tabulate ps g happart).get p = g p := by
  have hget := OrdMap.get_ofList_keyed g ps p
  change (tabulate ps g happart).get p = _ at hget
  rw [hget]
  by_cases hg : g p = none
  · simp [hg]
  · rw [if_pos (hps p hg)]

/-- Drop the files at paths that are not kept. -/
def filter (keep : κ → Bool) (t : FileTree κ α) : FileTree κ α :=
  tabulate t.paths (fun p => if keep p then t.get p else none) fun p q hp hq =>
    t.apart p q (by grind [FileTree.get]) (by grind [FileTree.get])

@[simp] theorem get_filter (keep : κ → Bool) (t : FileTree κ α) (p : κ) :
    (t.filter keep).get p = if keep p then t.get p else none :=
  get_tabulate (fun p hp => mem_paths.mpr (by grind)) p

/-! ## Laying a tree over another -/

/-- The path clashes with a file of the upper tree that is laid over. -/
def covered (dom : κ → Bool) (top : FileTree κ α) (p : κ) : Bool :=
  top.paths.any fun q => dom q && clash q p

theorem covered_eq_true {dom : κ → Bool} {top : FileTree κ α} {p : κ} :
    covered dom top p = true ↔ ∃ q, top.get q ≠ none ∧ dom q = true ∧ clash q p = true := by
  simp [covered, mem_paths]

/-- What a path holds once the upper tree is laid over the lower one: on the domain the upper
tree decides, and elsewhere the file stays unless it is in the way. -/
def layered (dom : κ → Bool) (top base : FileTree κ α) (p : κ) : Option α :=
  if dom p then top.get p else if covered dom top p then none else base.get p

theorem clash_of_laid {dom : κ → Bool} {top base : FileTree κ α} {p q : κ} (hp : top.get p ≠ none)
    (hdp : dom p = true) (hdq : dom q = false) (hq : layered dom top base q ≠ none) :
    clash p q = false := by
  by_contra hclash
  have hcovered : covered dom top q = true :=
    covered_eq_true.mpr ⟨p, hp, hdp, by simpa using hclash⟩
  simp [layered, hdq, hcovered] at hq

theorem layered_apart (dom : κ → Bool) (top base : FileTree κ α) (p q : κ)
    (hp : layered dom top base p ≠ none) (hq : layered dom top base q ≠ none) : clash p q = false := by
  cases hdp : dom p <;> cases hdq : dom q
  case true.true => exact top.apart p q (by grind [layered, get]) (by grind [layered, get])
  case true.false => exact clash_of_laid (by grind [layered]) hdp hdq hq
  case false.true => exact clash_comm p q ▸ clash_of_laid (by grind [layered]) hdq hdp hp
  case false.false => exact base.apart p q (by grind [layered, get]) (by grind [layered, get])

def overlay (dom : κ → Bool) (top base : FileTree κ α) : FileTree κ α :=
  tabulate (top.paths ++ base.paths) (layered dom top base) (layered_apart dom top base)

@[simp] theorem get_overlay (dom : κ → Bool) (top base : FileTree κ α) (p : κ) :
    (overlay dom top base).get p = layered dom top base p := by
  refine get_tabulate (fun p hp => ?_) p
  rw [List.mem_append, mem_paths, mem_paths]
  unfold layered at hp
  grind

/-! ## One path -/

/-- A path may get another file if nothing is in its way. -/
theorem exists_set (t : FileTree κ α) (p : κ) (v : Option α)
    (h : v ≠ none → ∀ q, t.get q ≠ none → clash p q = false) :
    ∃ t' : FileTree κ α, t'.get p = v ∧ ∀ q, q ≠ p → t'.get q = t.get q := by
  cases v with
  | none => exact ⟨t.filter (· ≠ p), by simp, fun q hq => by simp [hq]⟩
  | some v =>
    have hsingle : ∀ q, (single p v).get q = if q = p then some v else none := fun q => by
      by_cases hq : q = p <;> simp [single, get, OrdMap.ofList, OrdMap.extend, hq]
    refine ⟨overlay (· = p) (single p v) t, by simp [layered, hsingle], fun q hq => ?_⟩
    rw [get_overlay, layered, if_neg (by simpa using hq)]
    split_ifs with hcovered
    · obtain ⟨q', -, hdom, hclash⟩ := covered_eq_true.mp hcovered
      obtain rfl : q' = p := of_decide_eq_true hdom
      by_contra hnone
      rw [h (by simp) q (Ne.symm hnone)] at hclash
      cases hclash
    · rfl

end FileTree

end Tethys.Lib
