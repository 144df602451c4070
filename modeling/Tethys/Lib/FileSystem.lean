import Tethys.Lib.Paths

/-!
# File systems with links

What stands at each place. `resolve` goes through a path as the system does: every name has to be
there, and links are followed up to a bound. `Leads` says where a path ends once the names that
are missing have been made: it asks for links only, so that making a directory changes nothing.
The two agree on every path that is there.
-/

namespace Tethys.Lib

inductive Node where
  | dir
  | file
  | link (target : Path)
  deriving DecidableEq

/-- What stands at each place. Whatever is there stands in a directory. -/
structure FileSystem where
  nodes : List String → Option Node
  root : nodes [] = some .dir
  parent : ∀ place name, nodes (place ++ [name]) ≠ none → nodes place = some .dir

namespace FileSystem

variable (fs : FileSystem)

/-- Where a path begins. -/
def start (cwd : List String) (path : Path) : List String := if path.absolute then [] else cwd

/-- Go through the components; `jump` takes over at a link. -/
def walk (jump : List String → List Component → Option (List String)) :
    List String → List Component → Option (List String)
  | place, [] => some place
  | place, .parent :: rest => walk jump place.dropLast rest
  | place, .name n :: rest =>
    match fs.nodes (place ++ [n]) with
    | none => none
    | some .dir => walk jump (place ++ [n]) rest
    | some .file => if rest = [] then some (place ++ [n]) else none
    | some (.link target) => jump (start place target) (target.components ++ rest)

/-- The place that the components lead to, with so many links at most. -/
def resolve : Nat → List String → List Component → Option (List String)
  | 0 => fs.walk fun _ _ => none
  | links + 1 => fs.walk (resolve links)

/-- Where the components lead, once the names that are missing have been made. -/
inductive Leads : List String → List Component → List String → Prop
  | nil (place : List String) : Leads place [] place
  | parent {place target : List String} {rest : List Component} (h : Leads place.dropLast rest target) :
      Leads place (.parent :: rest) target
  | name {place target : List String} {n : String} {rest : List Component}
      (hnode : ∀ dest, fs.nodes (place ++ [n]) ≠ some (.link dest)) (h : Leads (place ++ [n]) rest target) :
      Leads place (.name n :: rest) target
  | link {place target : List String} {n : String} {rest : List Component} {dest : Path}
      (hnode : fs.nodes (place ++ [n]) = some (.link dest))
      (h : Leads (start place dest) (dest.components ++ rest) target) : Leads place (.name n :: rest) target

/-- The place that a path means. -/
def Means (cwd : List String) (path : Path) (place : List String) : Prop :=
  fs.Leads (start cwd path) path.components place

variable {fs} {place target target' mid : List String} {a b : List Component}

/-! ## Where paths lead -/

theorem Leads.unique (h : fs.Leads place a target) (h' : fs.Leads place a target') :
    target = target' := by
  induction h with
  | nil => cases h'; rfl
  | parent _ ih =>
    cases h' with
    | parent h' => exact ih h'
  | name hnode _ ih =>
    cases h' with
    | name _ h' => exact ih h'
    | link hlink _ => exact absurd hlink (hnode _)
  | link hnode _ ih =>
    cases h' with
    | name hno _ => exact absurd hnode (hno _)
    | link hlink h' =>
      obtain rfl := Node.link.inj (Option.some.inj (hnode.symm.trans hlink))
      exact ih h'

theorem Leads.append (h : fs.Leads place a mid) (h' : fs.Leads mid b target) :
    fs.Leads place (a ++ b) target := by
  induction h with
  | nil => exact h'
  | parent _ ih => exact .parent (ih h')
  | name hnode _ ih => exact .name hnode (ih h')
  | link hnode _ ih =>
    refine .link hnode ?_
    rw [List.append_eq, ← List.append_assoc]
    exact ih h'

/-- What is on the way. -/
theorem Leads.split (h : fs.Leads place (a ++ b) target) :
    ∃ mid, fs.Leads place a mid ∧ fs.Leads mid b target := by
  generalize hcomponents : a ++ b = components at h
  induction h generalizing a with
  | nil place =>
    obtain ⟨rfl, rfl⟩ := List.append_eq_nil_iff.mp hcomponents
    exact ⟨place, .nil place, .nil place⟩
  | @parent place target rest h ih =>
    cases a with
    | nil =>
      obtain rfl : b = _ := hcomponents
      exact ⟨place, .nil place, .parent h⟩
    | cons c a =>
      obtain ⟨rfl, rfl⟩ := List.cons.inj hcomponents
      obtain ⟨mid, ha, hb⟩ := ih rfl
      exact ⟨mid, .parent ha, hb⟩
  | @name place target n rest hnode h ih =>
    cases a with
    | nil =>
      obtain rfl : b = _ := hcomponents
      exact ⟨place, .nil place, .name hnode h⟩
    | cons c a =>
      obtain ⟨rfl, rfl⟩ := List.cons.inj hcomponents
      obtain ⟨mid, ha, hb⟩ := ih rfl
      exact ⟨mid, .name hnode ha, hb⟩
  | @link place target n rest dest hnode h ih =>
    cases a with
    | nil =>
      obtain rfl : b = _ := hcomponents
      exact ⟨place, .nil place, .link hnode h⟩
    | cons c a =>
      obtain ⟨rfl, rfl⟩ := List.cons.inj hcomponents
      obtain ⟨mid, ha, hb⟩ := ih (List.append_assoc dest.components a b)
      exact ⟨mid, .link hnode ha, hb⟩

/-- The second half of a path, from where the first one leads. -/
theorem Leads.of_append (h : fs.Leads place (a ++ b) target) (hmid : fs.Leads place a mid) :
    fs.Leads mid b target := by
  obtain ⟨mid', ha, hb⟩ := h.split
  rwa [hmid.unique ha]

/-- Nothing on the way to the place is a link. -/
def Clear (fs : FileSystem) (place : List String) : Prop :=
  ∀ q, q <+: place → ∀ dest, fs.nodes q ≠ some (.link dest)

theorem Clear.of_initial (h : fs.Clear target) (hplace : place <+: target) : fs.Clear place :=
  fun q hq => h q (hq.trans hplace)

/-- Where no link is met, a path leads where its names say. -/
theorem leads_follow (h : ∀ n dest, fs.nodes (follow place (a.take (n + 1))) ≠ some (.link dest)) :
    fs.Leads place a (follow place a) := by
  induction a generalizing place with
  | nil => exact .nil place
  | cons c a ih =>
    cases c with
    | parent => exact .parent (ih fun n => by simpa using h (n + 1))
    | name n => exact .name (by simpa using h 0) (ih fun n => by simpa using h (n + 1))

theorem leads_names {names : List String} (h : fs.Clear (place ++ names)) :
    fs.Leads place (names.map .name) (place ++ names) := by
  rw [← follow_names]
  refine leads_follow fun n => ?_
  rw [← List.map_take, follow_names]
  exact h _ ((List.prefix_append_right_inj place).mpr (List.take_prefix _ names))

/-! ## Paths that are there -/

/-- What holds something is a directory. -/
theorem dir_of_initial (hplace : place <+: target) (hne : place ≠ target) (h : fs.nodes target ≠ none) :
    fs.nodes place = some .dir := by
  induction target using List.reverseRecOn with
  | nil => exact absurd (List.prefix_nil.mp hplace) hne
  | append_singleton target name ih =>
    have hdir := fs.parent target name h
    rcases List.prefix_concat_iff.mp hplace with rfl | hplace
    · exact absurd rfl hne
    · by_cases heq : place = target
      · rwa [heq]
      · exact ih hplace heq (by simp [hdir])

theorem none_of_initial (hplace : place <+: target) (h : fs.nodes place = none) :
    fs.nodes target = none := by
  by_contra hsome
  by_cases heq : place = target
  · exact hsome (heq ▸ h)
  · rw [dir_of_initial hplace heq hsome] at h
    cases h

/-- A directory or a file stands there. -/
def There (fs : FileSystem) (place : List String) : Prop :=
  fs.nodes place = some .dir ∨ fs.nodes place = some .file

theorem There.ne_none (h : fs.There place) : fs.nodes place ≠ none := by
  rcases h with h | h <;> simp [h]

theorem There.clear (h : fs.There place) : fs.Clear place := by
  intro q hq dest
  by_cases heq : q = place
  · rcases h with h | h <;> simp [heq, h]
  · simp [dir_of_initial hq heq h.ne_none]

/-- A place is clear if what is there is no link and what comes after it is missing. -/
theorem There.clear_append {names : List String} (hthere : fs.There place)
    (hnames : ∀ n ∈ names.head?, fs.nodes (place ++ [n]) = none) : fs.Clear (place ++ names) := by
  intro q hq dest
  rcases List.prefix_or_prefix_of_prefix hq (List.prefix_append place names) with hq' | hq'
  · exact hthere.clear q hq' dest
  · obtain ⟨rest, rfl⟩ := hq'
    have hrest : rest <+: names := (List.prefix_append_right_inj place).mp hq
    cases rest with
    | nil => exact hthere.clear _ (by simp) dest
    | cons n rest =>
      obtain ⟨names', rfl⟩ := hrest
      have hmissing : fs.nodes (place ++ [n]) = none := hnames n rfl
      have hbelow : place ++ [n] <+: place ++ n :: rest := by simp
      simp [none_of_initial hbelow hmissing]

section Walk
variable {jump : List String → List Component → Option (List String)} {links : Nat} {n : String}

theorem leads_of_walk (hjump : ∀ p c t, jump p c = some t → fs.Leads p c t)
    (h : fs.walk jump place a = some target) : fs.Leads place a target := by
  induction a generalizing place with
  | nil => exact Option.some.inj h ▸ .nil place
  | cons c a ih =>
    cases c with
    | parent => exact .parent (ih h)
    | name n =>
      simp only [walk] at h
      split at h
      · cases h
      · rename_i hnode
        exact .name (by simp [hnode]) (ih h)
      · rename_i hnode
        split_ifs at h with hrest
        subst hrest
        exact .name (by simp [hnode]) (Option.some.inj h ▸ .nil _)
      · rename_i hnode
        exact .link hnode (hjump _ _ _ h)

@[simp] theorem resolve_nil (links : Nat) (place : List String) :
    fs.resolve links place [] = some place := by
  cases links <;> rfl

/-- A path that is there leads where the system finds it. -/
theorem leads_of_resolve (h : fs.resolve links place a = some target) : fs.Leads place a target := by
  induction links generalizing place a target with
  | zero => exact leads_of_walk (fun _ _ _ h => by cases h) h
  | succ links ih => exact leads_of_walk (fun _ _ _ h => ih h) h

theorem there_of_walk (hjump : ∀ p c t, fs.nodes p = some .dir → jump p c = some t → fs.There t)
    (hplace : fs.nodes place = some .dir) (h : fs.walk jump place a = some target) :
    fs.There target := by
  induction a generalizing place with
  | nil => exact Option.some.inj h ▸ .inl hplace
  | cons c a ih =>
    cases c with
    | parent =>
      refine ih ?_ h
      by_cases heq : place.dropLast = place
      · rwa [heq]
      · exact dir_of_initial (List.dropLast_prefix place) heq (by simp [hplace])
    | name n =>
      simp only [walk] at h
      split at h
      · cases h
      · rename_i hnode
        exact ih hnode h
      · rename_i hnode
        split_ifs at h
        exact Option.some.inj h ▸ .inr hnode
      · rename_i target _
        refine hjump _ _ _ ?_ h
        unfold start
        split_ifs
        · exact fs.root
        · exact hplace

theorem there_of_resolve (hplace : fs.nodes place = some .dir)
    (h : fs.resolve links place a = some target) : fs.There target := by
  induction links generalizing place a target with
  | zero => exact there_of_walk (fun _ _ _ _ h => by cases h) hplace h
  | succ links ih => exact there_of_walk (fun _ _ _ hp h => ih hp h) hplace h

theorem walk_append_missing
    (hjump : ∀ p c, jump p c = some target → jump p (c ++ .name n :: b) = none)
    (hmissing : fs.nodes (target ++ [n]) = none) (h : fs.walk jump place a = some target) :
    fs.walk jump place (a ++ .name n :: b) = none := by
  induction a generalizing place with
  | nil =>
    obtain rfl := Option.some.inj h
    simp [walk, hmissing]
  | cons c a ih =>
    cases c with
    | parent => exact ih h
    | name m =>
      simp only [walk, List.cons_append] at h ⊢
      split at h
      · cases h
      · exact ih h
      · simp
      · rw [← List.append_assoc]
        exact hjump _ _ h

/-- What comes after a missing name is not found. -/
theorem resolve_append_missing (hmissing : fs.nodes (target ++ [n]) = none)
    (h : fs.resolve links place a = some target) :
    fs.resolve links place (a ++ .name n :: b) = none := by
  induction links generalizing place a with
  | zero => exact walk_append_missing (fun _ _ h => by cases h) hmissing h
  | succ links ih => exact walk_append_missing (fun _ _ h => ih h) hmissing h

end Walk

/-! ## Removing a directory -/

/-- Nothing is left at a place and below it. -/
def remove (fs : FileSystem) (place : List String) (hplace : place ≠ []) : FileSystem where
  nodes q := if place <+: q then none else fs.nodes q
  root := by rw [if_neg (by simpa using hplace), fs.root]
  parent q name h := by
    split_ifs at h with hname
    · exact absurd rfl h
    · rw [if_neg fun hq => hname (hq.trans (List.prefix_append q [name])), fs.parent q name h]

theorem remove_below {hplace : place ≠ []} {q : List String} (hq : place <+: q) :
    (fs.remove place hplace).nodes q = none := if_pos hq

theorem remove_elsewhere {hplace : place ≠ []} {q : List String} (hq : ¬ place <+: q) :
    (fs.remove place hplace).nodes q = fs.nodes q := if_neg hq

theorem walk_remove {jump jump' : List String → List Component → Option (List String)}
    {htarget : target ≠ []}
    (hjump : ∀ p c, ¬ target <+: p → jump p c = some target → jump' p c = none)
    (hplace : ¬ target <+: place) (h : fs.walk jump place a = some target) :
    (fs.remove target htarget).walk jump' place a = none := by
  induction a generalizing place with
  | nil => exact absurd (Option.some.inj h ▸ List.prefix_rfl) hplace
  | cons c a ih =>
    cases c with
    | parent => exact ih (fun hup => hplace (hup.trans (List.dropLast_prefix place))) h
    | name n =>
      by_cases hbelow : target <+: place ++ [n]
      · simp [walk, remove_below hbelow]
      · simp only [walk, remove_elsewhere hbelow] at h ⊢
        split at h
        · cases h
        · exact ih hbelow h
        · split_ifs at h
          exact absurd (Option.some.inj h ▸ List.prefix_rfl) hbelow
        · refine hjump _ _ ?_ h
          unfold start
          split_ifs
          · simpa using htarget
          · exact hplace

/-- A path that led to a directory that is removed leads nowhere. -/
theorem resolve_remove {links : Nat} {htarget : target ≠ []} (hplace : ¬ target <+: place)
    (h : fs.resolve links place a = some target) :
    (fs.remove target htarget).resolve links place a = none := by
  induction links generalizing place a with
  | zero => exact walk_remove (fun _ _ _ h => by cases h) hplace h
  | succ links ih => exact walk_remove (fun _ _ hp h => ih hp h) hplace h

end FileSystem

end Tethys.Lib
