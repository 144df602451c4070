import Mathlib.Data.List.Infix
import Mathlib.Tactic.Common

/-!
# Trees that change

What stands at each place of a disk, with the contents of the files, and what making, writing,
moving and removing do to it. A link is a leaf here: nobody follows one. Whatever is there stands
in a directory, and the operations keep this wherever the system carries them out.
-/

namespace Tethys.Lib

/-- What is below one name is not below another. -/
theorem not_below_of_ne {place q : List String} {name other : String} (h : name ≠ other) :
    ¬ place ++ [name] <+: place ++ other :: q := by
  simpa [List.prefix_append_right_inj, List.cons_prefix_cons] using h

inductive FileNode (β : Type) where
  | dir
  | file (data : β)
  /-- a link, a socket, a device -/
  | other
  deriving DecidableEq

/-- What stands at each place. -/
abbrev NodeMap (β : Type) := List String → Option (FileNode β)

namespace NodeMap

variable {β : Type} (m : NodeMap β)

/-- Whatever is there stands in a directory. -/
def Rooted : Prop := ∀ place name, m (place ++ [name]) ≠ none → m place = some .dir

/-- A directory at every one of the places that is free. -/
def make (places : List (List String)) : NodeMap β := fun q =>
  if q ∈ places then (m q).or (some .dir) else m q

def put (place : List String) (data : β) : NodeMap β := fun q =>
  if q = place then some (.file data) else m q

/-- What stood at the source stands at the target, with all that is below it. -/
def move (source target : List String) : NodeMap β := fun q =>
  if target <+: q then m (source ++ q.drop target.length)
  else if source <+: q then none
  else m q

def remove (place : List String) : NodeMap β := fun q => if place <+: q then none else m q

/-- The file at a place. -/
def fileAt (place : List String) : Option β :=
  match m place with
  | some (.file data) => some data
  | _ => none

/-- The files below a place. -/
def files (place : List String) : List String → Option β := fun q => m.fileAt (place ++ q)

/-- The system moves what is there, not into itself, and puts it in a directory: on a free place,
on a directory without entries if it is one, on something else if it is none. -/
structure Movable (source target : List String) : Prop where
  there : m source ≠ none
  outside : source <+: target → source = target
  parent : ∀ place name, target = place ++ [name] → m place = some .dir
  free : m target = none ∨ source = target ∨
    (m source = some .dir ∧ m target = some .dir ∧ ∀ name, m (target ++ [name]) = none) ∨
    (m source ≠ some .dir ∧ m target ≠ some .dir)

variable {m} {place source target q : List String}

theorem make_of_mem {places : List (List String)} (h : q ∈ places) :
    m.make places q = (m q).or (some .dir) := if_pos h

theorem make_of_notMem {places : List (List String)} (h : q ∉ places) : m.make places q = m q :=
  if_neg h

theorem move_target (q : List String) : m.move source target (target ++ q) = m (source ++ q) := by
  simp [move]

theorem move_there : m.move source target target = m source := by
  have hmoved : m.move source target (target ++ []) = m (source ++ []) := move_target []
  simpa using hmoved

theorem move_source (h : ¬ target <+: source ++ q) : m.move source target (source ++ q) = none := by
  simp [move, h]

theorem move_elsewhere (htarget : ¬ target <+: q) (hsource : ¬ source <+: q) :
    m.move source target q = m q := by
  rw [move, if_neg htarget, if_neg hsource]

/-- What is below a name of a directory, after something was moved to that name. -/
theorem move_child (name : String) (q : List String) :
    m.move source (place ++ [name]) (place ++ name :: q) = m (source ++ q) := by
  have hmoved : m.move source (place ++ [name]) ((place ++ [name]) ++ q) = m (source ++ q) :=
    move_target q
  simpa using hmoved

/-- Nothing is left where something was moved away from. -/
theorem move_child_gone {name : String} (h : ¬ target <+: place ++ name :: q) :
    m.move (place ++ [name]) target (place ++ name :: q) = none := by
  have hbelow : place ++ name :: q = (place ++ [name]) ++ q := by simp
  rw [hbelow] at h ⊢
  exact move_source h

/-- What was moved to another name and back is where it was, and nothing is left at the other name. -/
theorem move_back {name other : String} (hne : name ≠ other) (x : String) (q : List String) :
    (m.move (place ++ [name]) (place ++ [other])).move (place ++ [other]) (place ++ [name])
      (place ++ x :: q) = if x = other then none else m (place ++ x :: q) := by
  have hother : ¬ place ++ [name] <+: place ++ other :: q := not_below_of_ne hne
  split_ifs with hx
  · rw [hx, move_child_gone hother]
  by_cases hname : x = name
  · rw [hname, move_child, move_target, List.append_assoc]
    rfl
  · have haway : ∀ y, y ≠ x → ¬ place ++ [y] <+: place ++ x :: q := fun y hy => not_below_of_ne hy
    rw [move_elsewhere (haway _ (Ne.symm hname)) (haway _ (Ne.symm hx)),
      move_elsewhere (haway _ (Ne.symm hx)) (haway _ (Ne.symm hname))]

theorem remove_below (h : place <+: q) : m.remove place q = none := if_pos h

theorem remove_elsewhere (h : ¬ place <+: q) : m.remove place q = m q := if_neg h

theorem fileAt_congr {m' : NodeMap β} (h : m q = m' place) : m.fileAt q = m'.fileAt place := by
  rw [fileAt, fileAt, h]

theorem fileAt_eq_none (h : ∀ data, m q ≠ some (.file data)) : m.fileAt q = none := by
  rw [fileAt]
  split
  · exact absurd ‹_› (h _)
  · rfl

/-- Making directories where no file is leaves the files alone. -/
theorem fileAt_make {places : List (List String)} (h : ∀ p ∈ places, ∀ data, m p ≠ some (.file data)) :
    (m.make places).fileAt q = m.fileAt q := by
  by_cases hq : q ∈ places
  · rw [fileAt_eq_none (h q hq), fileAt_eq_none]
    intro data
    rw [make_of_mem hq]
    have hfile := h q hq data
    cases hnode : m q with
    | none => simp
    | some node => simpa [hnode] using hfile
  · exact fileAt_congr (make_of_notMem hq)

theorem fileAt_put {data : β} :
    (m.put place data).fileAt q = if q = place then some data else m.fileAt q := by
  by_cases hq : q = place
  · simp [fileAt, put, hq]
  · simp only [fileAt, put, if_neg hq]

theorem fileAt_ne_none : m.fileAt q ≠ none ↔ ∃ data, m q = some (.file data) := by
  rw [fileAt]
  split <;> simp_all

/-! ## Operations keep a disk a disk -/

theorem Rooted.make (h : m.Rooted) {places : List (List String)}
    (hclosed : ∀ place name, place ++ [name] ∈ places → place ∈ places)
    (hfree : ∀ p ∈ places, m p = none ∨ m p = some .dir) : (m.make places).Rooted := by
  intro place name hne
  have hdir : place ∈ places → m.make places place = some .dir := by
    intro hmem
    rw [make_of_mem hmem]
    rcases hfree place hmem with hnone | hdir
    · rw [hnone]
      rfl
    · rw [hdir]
      rfl
  by_cases hmem : place ++ [name] ∈ places
  · exact hdir (hclosed place name hmem)
  · rw [make_of_notMem hmem] at hne
    by_cases hplace : place ∈ places
    · exact hdir hplace
    · rw [make_of_notMem hplace, h place name hne]

theorem Rooted.put (h : m.Rooted) {name : String} {data : β} (hdir : m place = some .dir)
    (hfree : m (place ++ [name]) ≠ some .dir) : (m.put (place ++ [name]) data).Rooted := by
  have hold : ∀ q, m q = some .dir → m.put (place ++ [name]) data q = some .dir := by
    intro q hq
    rw [NodeMap.put, if_neg, hq]
    rintro rfl
    exact hfree hq
  intro q other hne
  by_cases heq : q ++ [other] = place ++ [name]
  · obtain ⟨rfl, -⟩ := List.append_inj' heq rfl
    exact hold q hdir
  · rw [NodeMap.put, if_neg heq] at hne
    exact hold q (h q other hne)

theorem Rooted.move (h : m.Rooted) (hmove : m.Movable source target) : (m.move source target).Rooted := by
  intro q name hne
  by_cases htarget : target <+: q
  · obtain ⟨rest, rfl⟩ := htarget
    rw [List.append_assoc, move_target] at hne
    rw [move_target]
    exact h _ name (by rwa [List.append_assoc])
  · by_cases hhere : target = q ++ [name]
    · -- what is moved comes to stand in a directory, which is not moved itself
      have hsource : ¬ source <+: q := by
        intro hp
        have heq := hmove.outside (hp.trans (hhere ▸ List.prefix_append _ _))
        exact htarget (heq ▸ hp)
      rw [move_elsewhere htarget hsource]
      exact hmove.parent q name hhere
    · have hbeside : ¬ target <+: q ++ [name] := fun hp =>
        (List.prefix_concat_iff.mp hp).elim hhere htarget
      by_cases hsource : source <+: q ++ [name]
      · obtain ⟨rest, hrest⟩ := hsource
        rw [← hrest] at hne hbeside
        exact absurd (move_source hbeside) hne
      · rw [move_elsewhere hbeside hsource] at hne
        rw [move_elsewhere htarget fun hp => hsource (hp.trans (List.prefix_append _ _))]
        exact h q name hne

theorem Rooted.remove (h : m.Rooted) : (m.remove place).Rooted := by
  intro q name hne
  by_cases hbelow : place <+: q ++ [name]
  · exact absurd (remove_below hbelow) hne
  · rw [remove_elsewhere hbelow] at hne
    rw [remove_elsewhere fun hp => hbelow (hp.trans (List.prefix_append _ _)), h q name hne]

end NodeMap

/-- A disk. -/
structure Volume (β : Type) where
  nodes : NodeMap β
  rooted : nodes.Rooted

namespace Volume

variable {β : Type} {vol : Volume β} {place rest : List String}

/-- What has something below it is a directory. -/
theorem dir_of_below (h : vol.nodes (place ++ rest) ≠ none) (hrest : rest ≠ []) :
    vol.nodes place = some .dir := by
  induction rest using List.reverseRecOn with
  | nil => exact absurd rfl hrest
  | append_singleton rest name ih =>
    rw [← List.append_assoc] at h
    have hdir := vol.rooted _ _ h
    by_cases hnil : rest = []
    · simpa [hnil] using hdir
    · exact ih (by simp [hdir]) hnil

/-- On the way to a directory there are directories. -/
theorem dir_of_initial {q : List String} (h : vol.nodes place = some .dir) (hq : q <+: place) :
    vol.nodes q = some .dir := by
  obtain ⟨rest, rfl⟩ := hq
  by_cases hrest : rest = []
  · simpa [hrest] using h
  · exact dir_of_below (by simp [h]) hrest

/-- Where nothing stands, nothing stands below. -/
theorem none_below (h : vol.nodes place = none) (rest : List String) :
    vol.nodes (place ++ rest) = none := by
  by_contra hne
  by_cases hrest : rest = []
  · exact hne (by simpa [hrest] using h)
  · rw [dir_of_below hne hrest] at h
    cases h

end Volume

end Tethys.Lib
