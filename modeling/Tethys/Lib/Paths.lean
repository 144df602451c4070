import Mathlib.Data.List.Infix
import Mathlib.Tactic.Common

/-!
# Paths

A path as its text is read: absolute or not, and its components, where empty ones and dots count
for nothing. `follow` walks components from a place without looking at links; a place is the list
of the names that lead to it from the root.
-/

namespace Tethys.Lib

inductive Component where
  | parent
  | name (n : String)
  deriving DecidableEq

/-- What stands between two separators. -/
def Component.ofChars : List Char → Option Component
  | [] | ['.'] => none
  | ['.', '.'] => some .parent
  | chars => some (.name (String.ofList chars))

structure Path where
  absolute : Bool
  components : List Component
  deriving DecidableEq

namespace Path

def parse (text : String) : Path where
  absolute := text.toList.head? = some '/'
  components := (text.toList.splitOn '/').filterMap Component.ofChars

/-- The absolute path to a place. -/
def ofPlace (place : List String) : Path := ⟨true, place.map .name⟩

/-- An absolute path replaces what it is joined to. -/
def join (p q : Path) : Path :=
  if q.absolute then q else ⟨p.absolute, p.components ++ q.components⟩

/-- The path of an entry of the directory. -/
def child (p : Path) (name : String) : Path := ⟨p.absolute, p.components ++ [.name name]⟩

def parent (p : Path) : Option Path :=
  if p.components = [] then none else some ⟨p.absolute, p.components.dropLast⟩

/-- The last component, unless the path ends in dots. -/
def fileName (p : Path) : Option String :=
  match p.components.getLast? with
  | some (.name n) => some n
  | _ => none

/-- Whether one path starts with the components of the other. -/
def startsWith (p base : Path) : Bool :=
  p.absolute == base.absolute && base.components.isPrefixOf p.components

end Path

/-- Join two texts to the text of a path. -/
def joinText (dir rest : String) : String :=
  if rest.toList.head? = some '/' then rest
  else if dir = "" ∨ dir.toList.getLast? = some '/' then dir ++ rest
  else dir ++ "/" ++ rest

/-! ## Reading texts -/

theorem Component.ofChars_of_ne {chars : List Char} (h : chars ≠ [] ∧ chars ≠ ['.'] ∧ chars ≠ ['.', '.']) :
    ofChars chars = some (.name (String.ofList chars)) := by
  unfold ofChars
  split <;> simp_all

/-- A text without a separator is one name, unless it is empty or dots. -/
theorem Path.parse_of_notMem {text : String} (hslash : '/' ∉ text.toList)
    (h : text ≠ "" ∧ text ≠ "." ∧ text ≠ "..") : parse text = ⟨false, [.name text]⟩ := by
  have hchars : text.toList ≠ [] ∧ text.toList ≠ ['.'] ∧ text.toList ≠ ['.', '.'] := by
    refine ⟨fun heq => h.1 ?_, fun heq => h.2.1 ?_, fun heq => h.2.2 ?_⟩ <;>
      exact String.toList_inj.mp heq
  have hhead : text.toList.head? ≠ some '/' := fun heq => hslash (List.mem_of_mem_head? heq)
  rw [parse, List.splitOn_eq_singleton hslash]
  simp [Component.ofChars_of_ne hchars, hhead]

/-- The components of a text with a separator in it. -/
theorem filterMap_splitOn (a b : List Char) :
    ((a ++ '/' :: b).splitOn '/').filterMap Component.ofChars =
      (a.splitOn '/').filterMap Component.ofChars ++ (b.splitOn '/').filterMap Component.ofChars := by
  rw [List.splitOn_append_cons_self, List.filterMap_append]

theorem Path.parse_joinText (dir rest : String) :
    parse (joinText dir rest) = (parse dir).join (parse rest) := by
  unfold joinText
  split_ifs with habsolute hdir
  · simp [join, parse, habsolute]
  · have hrelative : (parse rest).absolute = false := by simp [parse, habsolute]
    rw [join, if_neg (by simp [hrelative])]
    rcases hdir with rfl | hlast
    · simp [parse, habsolute, Component.ofChars]
    · obtain ⟨front, hfront⟩ := List.getLast?_eq_some_iff.mp hlast
      have hempty : ([].splitOn '/').filterMap Component.ofChars = [] := by simp [Component.ofChars]
      have hcomponents := filterMap_splitOn front rest.toList
      have hdirComponents := filterMap_splitOn front []
      rw [hempty, List.append_nil] at hdirComponents
      simp only [parse, String.toList_append, hfront, List.append_assoc, List.singleton_append,
        Path.mk.injEq, hcomponents, hdirComponents, and_true]
      cases front <;> rfl
  · have hrelative : (parse rest).absolute = false := by simp [parse, habsolute]
    have hcomponents := filterMap_splitOn dir.toList rest.toList
    obtain ⟨c, chars, hchars⟩ := List.exists_cons_of_ne_nil
      (fun h => hdir (.inl (String.toList_inj.mp h)) : dir.toList ≠ [])
    rw [join, if_neg (by simp [hrelative])]
    simp only [parse, String.toList_append, List.append_assoc]
    have hslash : "/".toList ++ rest.toList = '/' :: rest.toList := rfl
    rw [hslash, hcomponents, hchars]
    rfl

/-- The last component of a text that ends with these characters is a name that ends so. -/
theorem Path.exists_last_component (text : List Char) {suffix : List Char} (hslash : '/' ∉ suffix)
    (hne : ∀ chars : List Char, chars ++ suffix ≠ [] ∧ chars ++ suffix ≠ ['.'] ∧ chars ++ suffix ≠ ['.', '.']) :
    ∃ init chars, ((text ++ suffix).splitOn '/').filterMap Component.ofChars =
      init ++ [.name (String.ofList (chars ++ suffix))] := by
  obtain ⟨init, chars, hsplit⟩ : ∃ init chars, (text ++ suffix).splitOn '/' = init ++ [chars ++ suffix] := by
    induction text with
    | nil => exact ⟨[], [], by rw [List.nil_append, List.splitOn_eq_singleton hslash]; rfl⟩
    | cons c text ih =>
      obtain ⟨init, chars, ih⟩ := ih
      rw [List.cons_append, List.splitOn_cons_eq_if_modifyHead, ih]
      split_ifs
      · exact ⟨[] :: init, chars, rfl⟩
      · cases init with
        | nil => exact ⟨[], c :: chars, rfl⟩
        | cons part init => exact ⟨(c :: part) :: init, chars, rfl⟩
  refine ⟨init.filterMap Component.ofChars, chars, ?_⟩
  rw [hsplit, List.filterMap_append]
  simp [Component.ofChars_of_ne (hne chars)]

/-- The digits of a number hold no other characters. -/
theorem notMem_toString {c : Char} (hc : c.isDigit = false) (n : Nat) : c ∉ (toString n).toList := by
  intro hmem
  have hdigit := Nat.isDigit_of_mem_toDigits (b := 10) (by decide) (by decide)
    (by simpa [Nat.repr_eq_ofList_toDigits] using hmem)
  rw [hc] at hdigit
  cases hdigit

/-! ## Following components -/

/-- The place that the components lead to, links aside. Nothing lies above the root. -/
def follow (place : List String) : List Component → List String
  | [] => place
  | .parent :: rest => follow place.dropLast rest
  | .name n :: rest => follow (place ++ [n]) rest

@[simp] theorem follow_nil (place : List String) : follow place [] = place := rfl

@[simp] theorem follow_parent (place : List String) (rest : List Component) :
    follow place (.parent :: rest) = follow place.dropLast rest := rfl

@[simp] theorem follow_name (place : List String) (n : String) (rest : List Component) :
    follow place (.name n :: rest) = follow (place ++ [n]) rest := rfl

theorem follow_append (place : List String) (a b : List Component) :
    follow place (a ++ b) = follow (follow place a) b := by
  induction a generalizing place with
  | nil => rfl
  | cons c a ih => cases c <;> exact ih _

/-- Names lead further down. -/
theorem follow_names (place names : List String) :
    follow place (names.map .name) = place ++ names := by
  induction names generalizing place with
  | nil => simp
  | cons n names ih => simp [ih]

/-- Without dots, components lead further down. -/
theorem prefix_follow {place : List String} {components : List Component}
    (h : .parent ∉ components) : place <+: follow place components := by
  induction components generalizing place with
  | nil => exact List.prefix_refl place
  | cons c components ih =>
    cases c with
    | parent => exact absurd List.mem_cons_self h
    | name n => exact (List.prefix_append place [n]).trans (ih fun hmem => h (List.mem_cons_of_mem _ hmem))

/-- The place of an absolute path. -/
def Path.place (p : Path) : List String := follow [] p.components

@[simp] theorem Path.place_ofPlace (place : List String) : (ofPlace place).place = place := by
  rw [Path.place, ofPlace, follow_names, List.nil_append]

@[simp] theorem Path.place_child (p : Path) (name : String) :
    (p.child name).place = p.place ++ [name] := by
  simp [Path.place, child, follow_append]

@[simp] theorem Path.parent_mem_child (p : Path) (name : String) :
    .parent ∈ (p.child name).components ↔ .parent ∈ p.components := by
  simp [child]

@[simp] theorem Path.parent_child (p : Path) (name : String) : (p.child name).parent = some p := by
  simp [parent, child]

theorem Path.child_ofPlace (place : List String) (name : String) :
    (ofPlace place).child name = ofPlace (place ++ [name]) := by
  simp [child, ofPlace]

theorem Path.parent_notMem_ofPlace (place : List String) : .parent ∉ (ofPlace place).components := by
  simp [ofPlace]

theorem Path.absolute_join {p q : Path} (h : p.absolute = true) : (p.join q).absolute = true := by
  unfold join
  split_ifs with hq
  · exact hq
  · exact h

theorem Path.place_join {p q : Path} (h : q.absolute = false) :
    (p.join q).place = follow p.place q.components := by
  simp [Path.place, join, h, follow_append]

end Tethys.Lib
