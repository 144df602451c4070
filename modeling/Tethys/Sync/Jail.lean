import Tethys.Sync.Import
import Tethys.Sync.Review

/-!
# The jail of the imports

Which imports create, move and delete below the skills directory only, whatever the file system
answers. The names of archive entries are checked before they become paths, and the name of the
skill before it becomes one; the explicit name reaches the path of the staging directory before
that check, and the subdirectory of a spec is joined to a path without any. `jailed_iff` says for
which strings this does no harm.
-/

namespace Tethys.Sync

open Lib Schema

/-! ## Places in the jail -/

/-- One of the places lies on the way to the other. -/
def Along (place place' : List String) : Prop := place <+: place' ∨ place' <+: place

/-- The path ends in the jail, at the latest, and passes no place beside it. -/
structure Inside (jail : List String) (path : Path) : Prop where
  absolute : path.absolute = true
  place : jail <+: path.place
  along : ∀ n, Along (follow [] (path.components.take n)) jail

/-- The path ends below the jail. -/
structure Below (jail : List String) (path : Path) : Prop where
  absolute : path.absolute = true
  place : jail <+: path.place
  strict : path.place ≠ jail

/-- What an operation makes, moves or deletes is below the jail. Making a directory makes those
on the way to it. -/
def confinedOp {Hash : Type} (jail : List String) : ImportOp Hash → Prop
  | .createDirAll path => Inside jail path
  | .createFile path | .removeDirAll path | .unpackIn _ path => Below jail path
  | .copy _ target => Below jail target
  | .rename source target => Below jail source ∧ Below jail target
  | .nowMs | .exists _ | .isDir _ | .isFile _ | .entryIsDir _ | .readDir _ | .readToString _
  | .inspect _ | .diffDirs _ _ | .fetch _ | .record _ => True

/-- What an operation makes, moves or deletes is in a child of the jail, or on the way to it. -/
def stagingOp {Hash : Type} (jail : List String) (name : String) : ImportOp Hash → Prop
  | .createDirAll path => path = .ofPlace jail ∨ Inside (jail ++ [name]) path
  | .createFile path | .removeDirAll path | .unpackIn _ path =>
    path.absolute = true ∧ jail ++ [name] <+: path.place
  | .copy _ target => target.absolute = true ∧ jail ++ [name] <+: target.place
  | .rename source target =>
    (source.absolute = true ∧ jail ++ [name] <+: source.place) ∧
      (target.absolute = true ∧ jail ++ [name] <+: target.place)
  | .nowMs | .exists _ | .isDir _ | .isFile _ | .entryIsDir _ | .readDir _ | .readToString _
  | .inspect _ | .diffDirs _ _ | .fetch _ | .record _ => True

section Places
variable {jail : List String} {path : Path} {name : String}

/-- What comes after the jail is inside. -/
theorem Below.of_append (rest : List String) (habsolute : path.absolute = true)
    (hplace : path.place = jail ++ rest) (hne : rest ≠ []) : Below jail path := by
  refine ⟨habsolute, hplace ▸ List.prefix_append _ _, ?_⟩
  intro heq
  rw [hplace] at heq
  exact hne (by simpa using heq)

theorem Below.child_of_place (habsolute : path.absolute = true) (h : jail <+: path.place) :
    Below jail (path.child name) := by
  obtain ⟨rest, hrest⟩ := h
  refine .of_append (rest ++ [name]) habsolute ?_ (by simp)
  rw [Path.place_child, ← hrest, List.append_assoc]

theorem Below.child (h : Below jail path) : Below jail (path.child name) :=
  .child_of_place h.absolute h.place

/-- What is in a child of the jail is below the jail. -/
theorem Below.of_child (h : path.absolute = true ∧ jail ++ [name] <+: path.place) : Below jail path := by
  obtain ⟨habsolute, rest, hrest⟩ := h
  exact .of_append (name :: rest) habsolute (by simp [← hrest]) (by simp)

theorem Inside.extend {rest : List Component} (h : Inside jail path)
    (hrest : ∀ n, path.place <+: follow path.place (rest.take n)) :
    Inside jail ⟨path.absolute, path.components ++ rest⟩ := by
  have hfollow : ∀ n, jail <+: follow [] (path.components ++ rest.take n) := by
    intro n
    rw [follow_append]
    exact h.place.trans (hrest n)
  refine ⟨h.absolute, by simpa [Path.place] using hfollow rest.length, fun n => ?_⟩
  rw [List.take_append]
  by_cases hn : n ≤ path.components.length
  · simpa [Nat.sub_eq_zero_of_le hn] using h.along n
  · rw [List.take_of_length_le (by omega)]
    exact .inr (hfollow _)

theorem Inside.child (h : Inside jail path) : Inside jail (path.child name) := by
  refine h.extend fun n => ?_
  cases n <;> simp

theorem inside_jail : Inside jail (.ofPlace jail) := by
  refine ⟨rfl, by simp, fun n => .inl ?_⟩
  rw [Path.ofPlace, ← List.map_take, follow_names, List.nil_append]
  exact List.take_prefix n jail

theorem Inside.of_child (h : Inside (jail ++ [name]) path) : Inside jail path := by
  refine ⟨h.absolute, (List.prefix_append _ _).trans h.place, fun n => ?_⟩
  rcases h.along n with halong | halong
  · exact List.prefix_or_prefix_of_prefix halong (List.prefix_append _ _)
  · exact .inr ((List.prefix_append _ _).trans halong)

theorem confinedOp_of_stagingOp {Hash : Type} {op : ImportOp Hash} (h : stagingOp jail name op) :
    confinedOp jail op := by
  cases op with
  | createDirAll path =>
    rcases h with rfl | h
    · exact inside_jail
    · exact h.of_child
  | createFile path | removeDirAll path | unpackIn entry path | copy source target => exact .of_child h
  | rename source target => exact ⟨.of_child h.1, .of_child h.2⟩
  | _ => trivial

/-- A name that is joined to the path of the jail. -/
theorem join_parse_name {text : String} (hslash : '/' ∉ text.toList)
    (h : text ≠ "" ∧ text ≠ "." ∧ text ≠ "..") :
    (Path.ofPlace jail).join (.parse text) = (Path.ofPlace jail).child text := by
  rw [Path.parse_of_notMem hslash h]
  rfl

end Places

/-! ## Names -/

theorem validateName_eq_ok {name : String} :
    validateName name = .ok () ↔
      (name ≠ "" ∧ name ≠ "." ∧ name ≠ "..") ∧ '/' ∉ name.toList ∧ '\\' ∉ name.toList := by
  unfold validateName
  split_ifs with h
  · simp only [false_iff]
    tauto
  · simp only [true_iff]
    tauto

theorem slash_notMem_stagingName {hint : String} (h : '/' ∉ hint.toList) (ms : Nat) :
    '/' ∉ (stagingName hint ms).toList := by
  have hms : '/' ∉ (toString ms).toList := notMem_toString (by decide) ms
  simp only [stagingName, String.toList_append, List.mem_append, not_or]
  exact ⟨⟨⟨by decide, h⟩, by decide⟩, hms⟩

/-- A text that starts with a dot and goes on with a letter is not dots. -/
theorem ne_dots {text : String} {a b : Char} {rest : List Char} (h : text.toList = a :: b :: rest)
    (hb : b ≠ '.') : text ≠ "" ∧ text ≠ "." ∧ text ≠ ".." := by
  refine ⟨?_, ?_, ?_⟩ <;> rintro rfl
  · simp at h
  · simp at h
  · obtain ⟨-, rfl, -⟩ : '.' = a ∧ '.' = b ∧ [] = rest := by simpa using h
    exact hb rfl

theorem join_stagingName {jail : List String} {hint : String} (hslash : '/' ∉ hint.toList) (ms : Nat) :
    (Path.ofPlace jail).join (.parse (stagingName hint ms)) =
      (Path.ofPlace jail).child (stagingName hint ms) := by
  refine join_parse_name (slash_notMem_stagingName hslash ms) ?_
  exact ne_dots (a := '.') (b := 's') (by simp only [stagingName, String.toList_append]; rfl) (by decide)

theorem fileName_child (p : Path) (name : String) : (p.child name).fileName = some name := by
  simp [Path.fileName, Path.child]

/-- What is moved aside stays beside the skill. -/
theorem trash_eq {jail : List String} {name : String} (hname : validateName name = .ok ())
    (ms : Nat) :
    withFileName ((Path.ofPlace jail).child name)
      (".trash-" ++ ((Path.ofPlace jail).child name).fileName.getD "skill" ++ "-" ++ toString ms) =
      (Path.ofPlace jail).child (".trash-" ++ name ++ "-" ++ toString ms) := by
  obtain ⟨-, hslash, -⟩ := validateName_eq_ok.mp hname
  have hms : '/' ∉ (toString ms).toList := notMem_toString (by decide) ms
  have hwith : ∀ trash, withFileName ((Path.ofPlace jail).child name) trash =
      (Path.ofPlace jail).join (.parse trash) := by
    intro trash
    rw [withFileName, fileName_child]
    simp [Path.child, Path.ofPlace]
  rw [hwith, fileName_child, Option.getD_some, join_parse_name]
  · simp only [String.toList_append, List.mem_append, not_or]
    exact ⟨⟨⟨by decide, hslash⟩, by decide⟩, hms⟩
  · exact ne_dots (a := '.') (b := 't') (by simp only [String.toList_append]; rfl) (by decide)

theorem below_trash {jail : List String} {name : String} (hname : validateName name = .ok ())
    (ms : Nat) :
    Below jail (withFileName ((Path.ofPlace jail).child name)
      (".trash-" ++ ((Path.ofPlace jail).child name).fileName.getD "skill" ++ "-" ++ toString ms)) := by
  rw [trash_eq hname]
  exact .child_of_place rfl (by simp)

/-! ## The steps of an import -/

/-- The checks of `extract_tar` on the entries. -/
def tarAccepted : Nat → Nat → List (Except String TarEntry) → Bool
  | _, _, [] => true
  | _, _, .error _ :: _ => false
  | count, total, .ok entry :: entries =>
    decide (entry.kind ≠ .other ∧ (Path.parse entry.path).absolute = false ∧
      .parent ∉ (Path.parse entry.path).components ∧
      count + 1 ≤ maxArchiveEntries ∧ (total + entry.size) % 2 ^ 64 ≤ maxArchiveBytes) &&
    tarAccepted (count + 1) ((total + entry.size) % 2 ^ 64) entries

def archiveAccepted : Archive TarEntry → Bool
  | .error _ => false
  | .ok entries => tarAccepted 0 0 entries

section Steps
variable {Hash : Type} {jail : List String}
  {post : Except SkillError (SkillInfo (List String) Hash) → Prop}

/-- A program has the property where it begins with an allowed call and has it after every answer. -/
def Closed (allowed : ImportOp Hash → Prop) (C : ImportProgram Hash → Prop) : Prop :=
  ∀ op next, allowed op → (∀ r, C (next r)) → C (.call op next)

variable (jail post) in
/-- The program keeps to the jail, whatever the file system answers. -/
abbrev Confined (p : ImportProgram Hash) : Prop :=
  p.Within (confinedOp jail) (fun _ _ => True) post

theorem closed_confined : Closed (confinedOp jail) (Confined jail post) :=
  fun _ _ hop hnext => ⟨hop, fun r _ => hnext r⟩

theorem closed_confined_staging {name : String} : Closed (stagingOp jail name) (Confined jail post) :=
  fun op next hop => closed_confined op next (confinedOp_of_stagingOp hop)

variable {error : SkillError → ImportProgram Hash} {next : ImportProgram Hash} {path : Path}

section Closed
variable {allowed : ImportOp Hash → Prop} {C : ImportProgram Hash → Prop} {destination : Path}

theorem Closed.createDirAll (hC : Closed allowed C) (hop : allowed (.createDirAll path))
    (herror : ∀ e, C (error e)) (hnext : C next) : C (createDirAll path error next) := by
  refine hC _ _ hop fun ok => ?_
  split_ifs
  · exact hnext
  · exact herror .io

theorem Closed.rename {source target : Path} (hC : Closed allowed C)
    (hop : allowed (.rename source target)) (herror : ∀ e, C (error e)) (hnext : C next) :
    C (rename source target error next) := by
  refine hC _ _ hop fun ok => ?_
  split_ifs
  · exact hnext
  · exact herror .io

/-- Unpacking a tar archive is left to the library, below the destination. -/
theorem Closed.extractTarEntries {entries : List (Except String TarEntry)} {count total : Nat}
    (hC : Closed allowed C) (hop : ∀ entry, allowed (.unpackIn entry path))
    (herror : ∀ e, C (error e)) (hnext : tarAccepted count total entries = true → C next) :
    C (extractTarEntries path error next count total entries) := by
  induction entries generalizing count total with
  | nil => exact hnext rfl
  | cons entry entries ih =>
    cases entry with
    | error message => exact herror _
    | ok entry =>
      unfold Sync.extractTarEntries
      split_ifs with hkind hunsafe hcaps
      · exact herror _
      · exact herror _
      · exact herror _
      · refine hC _ _ (hop entry) fun unpacked => ?_
        cases unpacked with
        | error message => exact herror _
        | ok =>
          simp only [not_or, Bool.not_eq_true, not_lt] at hunsafe hcaps
          refine ih fun hrest => hnext ?_
          simp only [tarAccepted, hrest, Bool.and_true, decide_eq_true_eq]
          exact ⟨hkind, hunsafe.1, hunsafe.2, hcaps.1, hcaps.2⟩

theorem Closed.extractTar {archive : Archive TarEntry} (hC : Closed allowed C)
    (hop : ∀ entry, allowed (.unpackIn entry path)) (herror : ∀ e, C (error e))
    (hnext : archiveAccepted archive = true → C next) : C (extractTar archive path error next) := by
  cases archive with
  | error message => exact herror _
  | ok entries => exact hC.extractTarEntries hop herror hnext

theorem Closed.moveContents {source : Path} (hC : Closed allowed C)
    (hread : ∀ path, allowed (.readDir path))
    (hmove : ∀ name, allowed (.rename (source.child name) (destination.child name)))
    (herror : ∀ e, C (error e)) (hnext : C next) : C (moveContents source destination error next) := by
  refine hC _ _ (hread _) fun names => ?_
  cases names with
  | none => exact herror _
  | some names =>
    change C (moveAll source destination error next names)
    induction names with
    | nil => exact hnext
    | cons name names ih => exact hC.rename (hmove name) herror ih

theorem Closed.filterDirs {names dirs : List String} {after : List String → ImportProgram Hash}
    (hC : Closed allowed C) (hlook : ∀ path, allowed (.isDir path)) (hafter : ∀ dirs, C (after dirs)) :
    C (filterDirs path names dirs after) := by
  induction names generalizing dirs with
  | nil => exact hafter dirs
  | cons name names ih => exact hC _ _ (hlook _) fun isDir => ih

/-- The subdirectory is followed from a wrapper directory in the staging directory. -/
theorem Closed.stripWrapper {subdir : String} (hC : Closed allowed C)
    (hread : ∀ path, allowed (.readDir path)) (hlook : ∀ path, allowed (.isDir path))
    (hmove : ∀ wrapper name, allowed
      (.rename (((path.child wrapper).join (.parse subdir)).child name) (path.child name)))
    (herror : ∀ e, C (error e)) (hnext : C next) : C (stripWrapper path subdir error next) := by
  refine hC _ _ (hread _) fun names => ?_
  cases names with
  | none => exact herror _
  | some names =>
    refine hC.filterDirs hlook fun dirs => ?_
    split
    · exact herror _
    · rename_i wrapper _ _
      refine hC _ _ (hlook _) fun isDir => ?_
      split_ifs
      · exact hC.moveContents hread (hmove wrapper) herror hnext
      · exact herror _

theorem Closed.stripSingleWrapper (hC : Closed allowed C) (hread : ∀ path, allowed (.readDir path))
    (hlook : ∀ path, allowed (.isDir path))
    (hmove : ∀ wrapper name, allowed (.rename ((path.child wrapper).child name) (path.child name)))
    (herror : ∀ e, C (error e)) (hnext : C next) : C (stripSingleWrapper path error next) := by
  refine hC _ _ (hread _) fun names => ?_
  split
  · exact herror _
  · rename_i wrapper
    refine hC _ _ (hlook _) fun isDir => ?_
    split_ifs
    · exact hC.moveContents hread (hmove wrapper) herror hnext
    · exact hnext
  · exact hnext

end Closed

/-- What the archive library says of an entry name: it leads nowhere but down. -/
def EnclosedNames (enclosedName : String → Option String) : Prop :=
  ∀ name relative, enclosedName name = some relative → (Path.parse relative).absolute = false ∧
    ∀ place n, place <+: follow place ((Path.parse relative).components.take n)

section Zip
variable {C : ImportProgram Hash → Prop} {enclosedName : String → Option String}
  {name relative : String}

/-- The path of an entry, or the start of it that is left after some components. -/
theorem inside_enclosed
    (hdown : ∀ place n, place <+: follow place ((Path.parse relative).components.take n)) (n : Nat) :
    Inside (jail ++ [name]) ⟨true, jail.map .name ++ .name name :: (Path.parse relative).components.take n⟩ := by
  have hinside : Inside (jail ++ [name])
      ⟨true, (jail ++ [name]).map .name ++ (Path.parse relative).components.take n⟩ := by
    refine inside_jail.extend fun k => ?_
    rw [List.take_take, Path.place_ofPlace]
    exact hdown _ _
  simpa using hinside

theorem stagingOp_enclosed
    (hdown : ∀ place n, place <+: follow place ((Path.parse relative).components.take n)) (n : Nat) :
    stagingOp jail name (.createDirAll
      ⟨true, jail.map .name ++ (.name name :: (Path.parse relative).components).take n⟩ : ImportOp Hash) := by
  cases n with
  | zero => exact .inl (by simp [Path.ofPlace])
  | succ n => exact .inr (inside_enclosed hdown n)

theorem Closed.extractZipEntries (hC : Closed (stagingOp jail name) C)
    (henclosed : EnclosedNames enclosedName) {entries : List (Except String ZipEntry)} {total : Nat}
    (herror : ∀ e, C (error e)) (hnext : C next) :
    C (extractZipEntries enclosedName ((Path.ofPlace jail).child name) error next total entries) := by
  induction entries generalizing total with
  | nil => exact hnext
  | cons entry entries ih =>
    cases entry with
    | error message => exact herror _
    | ok entry =>
      unfold Sync.extractZipEntries
      split
      · exact herror _
      · rename_i relative hname
        obtain ⟨hrelative, hdown⟩ := henclosed _ _ hname
        have htarget : ((Path.ofPlace jail).child name).join (.parse relative) =
            ⟨true, jail.map .name ++ .name name :: (Path.parse relative).components⟩ := by
          simp [Path.join, hrelative, Path.child, Path.ofPlace]
        rw [htarget]
        split_ifs
        · refine hC.createDirAll ?_ herror ih
          simpa using stagingOp_enclosed hdown ((Path.parse relative).components.length + 1)
        · exact herror _
        · exact herror _
        · have hwrite : C (.call (.createFile
              ⟨true, jail.map .name ++ .name name :: (Path.parse relative).components⟩) fun ok =>
              if ok then Sync.extractZipEntries enclosedName ((Path.ofPlace jail).child name) error next
                ((total + entry.size) % 2 ^ 64) entries
              else error .io) := by
            refine hC _ _ ⟨rfl, ?_⟩ fun ok => ?_
            · simpa using (inside_enclosed hdown (Path.parse relative).components.length).place
            · split_ifs
              · exact ih
              · exact herror .io
          split
          · rename_i parent hparent
            refine hC.createDirAll ?_ herror hwrite
            obtain rfl : _ = parent := by simpa [Path.parent] using hparent
            simpa [List.dropLast_eq_take] using
              stagingOp_enclosed hdown (Path.parse relative).components.length
          · exact hwrite

theorem Closed.extractZip (hC : Closed (stagingOp jail name) C) (henclosed : EnclosedNames enclosedName)
    {archive : Archive ZipEntry} (herror : ∀ e, C (error e)) (hnext : C next) :
    C (extractZip enclosedName archive ((Path.ofPlace jail).child name) error next) := by
  cases archive with
  | error message => exact herror _
  | ok entries =>
    simp only [Sync.extractZip]
    split_ifs
    · exact herror _
    · exact hC.extractZipEntries henclosed herror hnext

end Zip

section Confined

theorem confined_createDirAll (hpath : Inside jail path) (herror : ∀ e, Confined jail post (error e))
    (hnext : Confined jail post next) : Confined jail post (createDirAll path error next) :=
  closed_confined.createDirAll hpath herror hnext

theorem confined_rename {source target : Path} (hsource : Below jail source)
    (htarget : Below jail target) (herror : ∀ e, Confined jail post (error e))
    (hnext : Confined jail post next) : Confined jail post (rename source target error next) :=
  closed_confined.rename ⟨hsource, htarget⟩ herror hnext

theorem confined_removeDirAll (hpath : Below jail path) (hnext : Confined jail post next) :
    Confined jail post (removeDirAll path next) :=
  ⟨hpath, fun _ _ => hnext⟩

/-- Copying, by induction on the source. -/
theorem confined_copyDir {entries : SourceDir} {source destination : Path}
    (hinside : Inside jail destination) (herror : ∀ e, Confined jail post (error e))
    (hnext : Confined jail post next) :
    Confined jail post (copyDir error entries source destination next) := by
  induction entries generalizing source destination next with
  | nil => exact hnext
  | file name rest ih =>
    refine ⟨.child_of_place hinside.absolute hinside.place, fun ok _ => ?_⟩
    beta_reduce
    split_ifs
    · exact ih hinside hnext
    · exact herror .io
  | dir name children rest ihChildren ihRest =>
    exact confined_createDirAll hinside.child herror (ihChildren hinside.child (ihRest hinside hnext))
  | unreadable name rest _ => exact confined_createDirAll hinside.child herror (herror .io)
  | other name rest ih => exact ih hinside hnext

/-- The directories that are found lie where the search began. -/
theorem confined_collectNames
    {collect : Path → List Path → (List Path → ImportProgram Hash) → ImportProgram Hash}
    (hcollect : ∀ dir candidates after, Below jail dir → (∀ c ∈ candidates, Below jail c) →
      (∀ candidates, (∀ c ∈ candidates, Below jail c) → Confined jail post (after candidates)) →
      Confined jail post (collect dir candidates after))
    {names : List String} {candidates : List Path} {after : List Path → ImportProgram Hash}
    (hpath : Below jail path) (hcandidates : ∀ c ∈ candidates, Below jail c)
    (hafter : ∀ candidates, (∀ c ∈ candidates, Below jail c) → Confined jail post (after candidates)) :
    Confined jail post (collectNames collect path names candidates after) := by
  induction names generalizing candidates with
  | nil => exact hafter candidates hcandidates
  | cons name names ih =>
    refine ⟨trivial, fun isDir _ => ?_⟩
    beta_reduce
    split_ifs
    · refine ⟨trivial, fun isSkill _ => ?_⟩
      beta_reduce
      split_ifs
      · refine ih fun c hc => ?_
        rcases List.mem_append.mp hc with hc | hc
        · exact hcandidates c hc
        · obtain rfl := List.mem_singleton.mp hc
          exact hpath.child
      · exact hcollect _ _ _ hpath.child hcandidates fun candidates hc => ih hc
    · exact ih hcandidates

theorem confined_collectSkillDirs {levels : Nat} (herror : ∀ e, Confined jail post (error e))
    {dir : Path} {candidates : List Path} {after : List Path → ImportProgram Hash}
    (hdir : Below jail dir) (hcandidates : ∀ c ∈ candidates, Below jail c)
    (hafter : ∀ candidates, (∀ c ∈ candidates, Below jail c) → Confined jail post (after candidates)) :
    Confined jail post (collectSkillDirs error levels dir candidates after) := by
  induction levels generalizing dir candidates after with
  | zero => exact hafter candidates hcandidates
  | succ levels ih =>
    refine ⟨trivial, fun names _ => ?_⟩
    cases names with
    | none => exact herror _
    | some names => exact confined_collectNames (fun _ _ _ => ih) hdir hcandidates hafter

theorem confined_findSkillRoot {after : Path → ImportProgram Hash} (hpath : Below jail path)
    (herror : ∀ e, Confined jail post (error e))
    (hafter : ∀ root, Below jail root → Confined jail post (after root)) :
    Confined jail post (findSkillRoot path error after) := by
  refine ⟨trivial, fun isSkill _ => ?_⟩
  beta_reduce
  split_ifs
  · exact hafter path hpath
  · refine confined_collectSkillDirs herror hpath (fun c hc => nomatch hc) fun candidates hc => ?_
    split
    · exact herror _
    · rename_i root _ hsorted
      exact hafter root (hc root (List.mem_mergeSort.mp (hsorted ▸ List.mem_cons_self)))

/-- A skill is swapped for another of the same name. -/
theorem confined_swapIntoPlace {name : String} {source : Path} (hname : validateName name = .ok ())
    (hsource : Below jail source) (herror : ∀ e, Confined jail post (error e))
    (hnext : Confined jail post next) :
    Confined jail post (swapIntoPlace ((Path.ofPlace jail).child name) source error next) := by
  have hjail : Below jail ((Path.ofPlace jail).child name) := .child_of_place rfl (by simp)
  simp only [swapIntoPlace, Path.parent_child]
  refine confined_createDirAll inside_jail herror ⟨trivial, fun isThere _ => ?_⟩
  beta_reduce
  split_ifs
  · refine ⟨trivial, fun ms _ => ?_⟩
    have htrash : Below jail _ := below_trash hname ms
    refine confined_rename hjail htrash herror ⟨⟨hsource, hjail⟩, fun ok _ => ?_⟩
    beta_reduce
    split_ifs
    · exact confined_removeDirAll htrash hnext
    · exact ⟨⟨htrash, hjail⟩, fun _ _ => herror .io⟩
  · exact confined_rename hsource hjail herror hnext

end Confined

end Steps

/-! ## Installing -/

section Install
variable {Hash : Type} {home : SkillHome (List String)} {scope : Scope}

theorem skillPath_eq {name : String} (hname : validateName name = .ok ()) :
    skillPath home scope name = (Path.ofPlace (skillsPlace home scope)).child name := by
  obtain ⟨hdots, hslash, -⟩ := validateName_eq_ok.mp hname
  exact join_parse_name hslash hdots

variable (home scope) in
/-- The skill is a direct child of the skills directory. -/
structure DirectChild (info : SkillInfo (List String) Hash) : Prop where
  path : info.path = skillDir home scope info.name
  place : (skillPath home scope info.name).place = skillsPlace home scope ++ [info.name]

variable (home scope) in
/-- An import that goes well ends with a direct child. -/
def Ends : Except SkillError (SkillInfo (List String) Hash) → Prop
  | .ok info => DirectChild home scope info
  | .error _ => True

theorem directChild_of_name {info : SkillInfo (List String) Hash}
    (hpath : info.path = skillDir home scope info.name) (hname : validateName info.name = .ok ()) :
    DirectChild home scope info := by
  refine ⟨hpath, ?_⟩
  rw [skillPath_eq hname, Path.place_child, Path.place_ofPlace]

variable (home scope) in
/-- The import keeps to the skills directory and ends with a direct child of it. -/
abbrev Jailed (p : ImportProgram Hash) : Prop := Confined (skillsPlace home scope) (Ends home scope) p

variable {staging root : Path}

theorem jailed_fail (e : SkillError) : Jailed home scope (fail e : ImportProgram Hash) := trivial

theorem jailed_cleanUp (hstaging : Below (skillsPlace home scope) staging) (e : SkillError) :
    Jailed home scope (removeDirAll staging (fail e) : ImportProgram Hash) :=
  confined_removeDirAll hstaging (jailed_fail e)

theorem jailed_recordInstalled {path : Path} {info : SkillFacts Hash → SkillInfo (List String) Hash}
    (h : ∀ facts, DirectChild home scope (info facts)) :
    Jailed home scope (recordInstalled path info) := by
  refine ⟨trivial, fun facts _ => ?_⟩
  cases facts with
  | none => exact jailed_fail _
  | some facts =>
    refine ⟨trivial, fun ok _ => ?_⟩
    beta_reduce
    split_ifs
    · exact h facts
    · exact jailed_fail _

/-- The end of an install and of an update. -/
theorem jailed_swap {name : String} {info : SkillFacts Hash → SkillInfo (List String) Hash}
    (hname : validateName name = .ok ()) (hstaging : Below (skillsPlace home scope) staging)
    (hroot : Below (skillsPlace home scope) root) (h : ∀ facts, DirectChild home scope (info facts)) :
    Jailed home scope (swapIntoPlace (skillPath home scope name) root
      (fun e => removeDirAll staging (fail e)) <| removeDirAll staging <|
        recordInstalled (skillPath home scope name) info) := by
  rw [skillPath_eq hname]
  exact confined_swapIntoPlace hname hroot (jailed_cleanUp hstaging)
    (confined_removeDirAll hstaging (jailed_recordInstalled h))

theorem jailed_installNamed {name : String} {source : SkillSource} {pinnedSha : Option String}
    (hstaging : Below (skillsPlace home scope) staging) (hroot : Below (skillsPlace home scope) root) :
    Jailed home scope
      (installNamed home scope staging root name source pinnedSha : ImportProgram Hash) := by
  unfold installNamed
  split
  · exact jailed_fail _
  · rename_i hname
    exact jailed_swap hname hstaging hroot fun facts => directChild_of_name rfl hname

theorem jailed_installStaged {name : Option String} {source : SkillSource}
    {pinnedSha : Option String} (hstaging : Below (skillsPlace home scope) staging) :
    Jailed home scope (installStaged home scope staging name source pinnedSha : ImportProgram Hash) := by
  refine confined_findSkillRoot hstaging jailed_fail fun root hroot => ?_
  split
  · exact jailed_installNamed hstaging hroot
  · refine ⟨trivial, fun text _ => ?_⟩
    beta_reduce
    split
    · exact jailed_installNamed hstaging hroot
    · exact jailed_fail _

/-! ## Staging -/

variable (home scope) in
/-- The path of a staging directory, before any check of the hint. -/
def stagingPath (hint : String) (ms : Nat) : Path :=
  (Path.ofPlace (skillsPlace home scope)).join (.parse (stagingName hint ms))

/-- A hint without a separator names a child of the skills directory. -/
theorem stagingPath_eq {hint : String} (hslash : '/' ∉ hint.toList) (ms : Nat) :
    stagingPath home scope hint ms =
      (Path.ofPlace (skillsPlace home scope)).child (stagingName hint ms) :=
  join_stagingName hslash ms

/-- The last name in the path of a staging directory holds a dash. -/
theorem exists_place_stagingPath (home : SkillHome (List String)) (scope : Scope) (hint : String)
    (ms : Nat) :
    ∃ init last, (stagingPath home scope hint ms).place = init ++ [last] ∧ '-' ∈ last.toList := by
  have hdigits : '/' ∉ (toString ms).toList := notMem_toString (by decide) ms
  have htext : (stagingName hint ms).toList =
      (".staging-".toList ++ hint.toList) ++ '-' :: (toString ms).toList := by
    simp [stagingName]
  have hne : ∀ chars : List Char, chars ++ '-' :: (toString ms).toList ≠ [] ∧
      chars ++ '-' :: (toString ms).toList ≠ ['.'] ∧
      chars ++ '-' :: (toString ms).toList ≠ ['.', '.'] := by
    intro chars
    have hdash : '-' ∈ chars ++ '-' :: (toString ms).toList := by simp
    refine ⟨?_, ?_, ?_⟩ <;> intro heq <;> rw [heq] at hdash <;> simp at hdash
  obtain ⟨init, chars, hlast⟩ := Path.exists_last_component
    (".staging-".toList ++ hint.toList) (by simpa using hdigits) hne
  have habsolute : (Path.parse (stagingName hint ms)).absolute = false := by
    rw [Path.parse, htext]
    rfl
  refine ⟨follow (skillsPlace home scope) init, String.ofList (chars ++ '-' :: (toString ms).toList),
    ?_, by simp⟩
  rw [stagingPath, Path.place_join habsolute, Path.place_ofPlace, Path.parse, htext, hlast,
    follow_append, follow_name, follow_nil]

/-- A staging directory is never the skills directory itself: its name ends in a time. -/
theorem below_stagingPath {hint : String} {ms : Nat}
    (h : Inside (skillsPlace home scope) (stagingPath home scope hint ms)) :
    Below (skillsPlace home scope) (stagingPath home scope hint ms) := by
  refine ⟨h.absolute, h.place, fun hplace => ?_⟩
  obtain ⟨init, last, hlast, hdash⟩ := exists_place_stagingPath home scope hint ms
  rw [hplace, skillsPlace] at hlast
  obtain rfl : "skills" = last := by simpa using congrArg List.getLast? hlast
  revert hdash
  decide

theorem jailed_stageDir {hint : String} {next : Path → ImportProgram Hash} :
    Jailed home scope (stageDir (.ofPlace (skillsPlace home scope)) hint next) ↔
      ∀ ms, Inside (skillsPlace home scope) (stagingPath home scope hint ms) ∧
        Jailed home scope (next (stagingPath home scope hint ms)) := by
  constructor
  · rintro ⟨-, h⟩ ms
    obtain ⟨hinside, hnext⟩ := ((h true trivial).2 ms trivial)
    exact ⟨hinside, hnext true trivial⟩
  · intro h
    refine confined_createDirAll inside_jail jailed_fail ⟨trivial, fun ms _ => ?_⟩
    exact confined_createDirAll (h ms).1 jailed_fail (h ms).2

/-- Hints without a separator are harmless. -/
theorem inside_stagingPath {hint : String} (hslash : '/' ∉ hint.toList) (ms : Nat) :
    Inside (skillsPlace home scope) (stagingPath home scope hint ms) := by
  rw [stagingPath_eq hslash]
  exact inside_jail.child

/-- What follows an archive that is unpacked. -/
theorem jailed_of_extractTarEntries {error : SkillError → ImportProgram Hash}
    {next : ImportProgram Hash} {entries : List (Except String TarEntry)} {count total : Nat}
    (haccepted : tarAccepted count total entries = true)
    (h : Jailed home scope (extractTarEntries staging error next count total entries)) :
    Jailed home scope next := by
  induction entries generalizing count total with
  | nil => exact h
  | cons entry entries ih =>
    cases entry with
    | error message => cases haccepted
    | ok entry =>
      simp only [tarAccepted, Bool.and_eq_true, decide_eq_true_eq] at haccepted
      obtain ⟨⟨hkind, habsolute, hparent, hcount, htotal⟩, hrest⟩ := haccepted
      simp only [extractTarEntries, if_neg hkind, habsolute, hparent] at h
      rw [if_neg (by simp), if_neg (by omega)] at h
      exact ih hrest (h.2 (.ok ()) trivial)

theorem jailed_of_extractTar {error : SkillError → ImportProgram Hash} {next : ImportProgram Hash}
    {archive : Archive TarEntry} (haccepted : archiveAccepted archive = true)
    (h : Jailed home scope (extractTar archive staging error next)) : Jailed home scope next := by
  cases archive with
  | error message => cases haccepted
  | ok entries => exact jailed_of_extractTarEntries haccepted h

variable (home scope) in
/-- From the wrapper directory of an archive, the subdirectory leads to a place in the skills
directory. -/
def SubdirInside (subdir : String) : Prop :=
  ∀ ms wrapper, skillsPlace home scope <+:
    (((stagingPath home scope "upstream" ms).child wrapper).join (.parse subdir)).place

/-- A file system in which the subdirectory is there and holds a file shows where it leads. -/
theorem prefix_of_stripWrapper {error : SkillError → ImportProgram Hash} {next : ImportProgram Hash}
    {subdir : String} (h : Jailed home scope (stripWrapper staging subdir error next))
    (wrapper : String) :
    skillsPlace home scope <+: ((staging.child wrapper).join (.parse subdir)).place := by
  obtain ⟨-, hnames⟩ := h
  obtain ⟨-, hwrapper⟩ := hnames (some [wrapper]) trivial
  have hdirs := hwrapper true trivial
  simp only [filterDirs, if_true, List.nil_append, List.mergeSort_singleton] at hdirs
  obtain ⟨-, hsource⟩ := hdirs.2 true trivial
  obtain ⟨⟨hbelow, -⟩, -⟩ := hsource (some ["SKILL.md"]) trivial
  have hplace := hbelow.place
  have hstrict := hbelow.strict
  rw [Path.place_child] at hplace hstrict
  rcases List.prefix_concat_iff.mp hplace with heq | hinitial
  · exact absurd heq.symm hstrict
  · exact hinitial

theorem jailed_stageTarball {archive : Archive TarEntry} {subdir : Option String}
    {next : Path → ImportProgram Hash}
    (hnext : ∀ staging, Below (skillsPlace home scope) staging → Jailed home scope (next staging)) :
    Jailed home scope (stageTarball (.ofPlace (skillsPlace home scope)) archive subdir next) ↔
      ∀ s, subdir = some s → archiveAccepted archive = true → SubdirInside home scope s := by
  have hupstream : ∀ ms, Inside (skillsPlace home scope) (stagingPath home scope "upstream" ms) :=
    inside_stagingPath (by decide)
  rw [stageTarball, jailed_stageDir]
  constructor
  · rintro h s rfl haccepted ms wrapper
    exact prefix_of_stripWrapper (jailed_of_extractTar haccepted (h ms).2) wrapper
  · intro h ms
    have hbelow := below_stagingPath (hupstream ms)
    refine ⟨hupstream ms, ?_⟩
    refine closed_confined.extractTar (fun _ => hbelow) (jailed_cleanUp hbelow) fun haccepted => ?_
    split
    · rename_i s
      refine closed_confined.stripWrapper (fun _ => trivial) (fun _ => trivial) (fun wrapper name => ?_)
        (jailed_cleanUp hbelow) (hnext _ hbelow)
      exact ⟨.child_of_place (Path.absolute_join hbelow.absolute) (h s rfl haccepted ms wrapper),
        hbelow.child⟩
    · exact closed_confined.stripSingleWrapper (fun _ => trivial) (fun _ => trivial)
        (fun wrapper name => ⟨hbelow.child.child, hbelow.child⟩) (jailed_cleanUp hbelow) (hnext _ hbelow)

/-! ## The imports -/

/-- What is imported into a scope. -/
inductive ImportCall (home : SkillHome (List String)) (scope : Scope) (Hash : Type) where
  | folder (name : Option String) (sourceDir : Path) (url : String) (entries : Option SourceDir)
  | zip (archive : Archive ZipEntry)
  | tarball (archive : Archive TarEntry) (subdir : Option String) (source : SkillSource)
      (pinnedSha : Option String)
  | github (spec : String)
  | update (loaded : Installed home scope Hash)

namespace ImportCall

def program (enclosedName : String → Option String) :
    ImportCall home scope Hash → ImportProgram Hash
  | folder name sourceDir url entries => importFolder home scope name sourceDir url entries
  | zip archive => importZip home scope enclosedName archive
  | tarball archive subdir source pinnedSha =>
    importTarball home scope archive subdir source pinnedSha
  | github spec => importGithub home scope spec
  | update loaded => updateInstalled home scope loaded

/-- What the explicit name and the subdirectory have to meet. -/
def Harmless : ImportCall home scope Hash → Prop
  | folder name _ _ _ =>
    ∀ ms, Inside (skillsPlace home scope) (stagingPath home scope (name.getD "skill") ms)
  | zip _ => True
  | tarball archive subdir _ _ =>
    ∀ s, subdir = some s → archiveAccepted archive = true → SubdirInside home scope s
  | github spec =>
    ∀ parsed s, parseGithubSpec spec = .ok parsed → parsed.subdir = some s → SubdirInside home scope s
  | update loaded =>
    loaded.info.source.repo.isSome = true →
      ∀ s, loaded.info.source.subdir = some s → SubdirInside home scope s

end ImportCall

theorem jailed_importFolder {name : Option String} {sourceDir : Path} {url : String}
    {entries : Option SourceDir} :
    Jailed home scope (importFolder home scope name sourceDir url entries : ImportProgram Hash) ↔
      ∀ ms, Inside (skillsPlace home scope) (stagingPath home scope (name.getD "skill") ms) := by
  rw [importFolder, jailed_stageDir]
  refine ⟨fun h ms => (h ms).1, fun h ms => ⟨h ms, ?_⟩⟩
  cases entries with
  | none => exact jailed_fail _
  | some entries =>
    exact confined_copyDir (h ms) jailed_fail (jailed_installStaged (below_stagingPath (h ms)))

theorem jailed_importZip {enclosedName : String → Option String}
    (henclosed : EnclosedNames enclosedName) {archive : Archive ZipEntry} :
    Jailed home scope (importZip home scope enclosedName archive : ImportProgram Hash) := by
  rw [importZip, jailed_stageDir]
  intro ms
  have hslash : '/' ∉ "skill".toList := by decide
  have hinside : Inside (skillsPlace home scope) (stagingPath home scope "skill" ms) :=
    inside_stagingPath hslash ms
  have hbelow := below_stagingPath hinside
  refine ⟨hinside, ?_⟩
  rw [stagingPath_eq hslash] at hbelow ⊢
  exact closed_confined_staging.extractZip henclosed (jailed_cleanUp hbelow)
    (jailed_installStaged hbelow)

theorem jailed_importTarball {archive : Archive TarEntry} {subdir : Option String}
    {source : SkillSource} {pinnedSha : Option String} :
    Jailed home scope (importTarball home scope archive subdir source pinnedSha : ImportProgram Hash) ↔
      ∀ s, subdir = some s → archiveAccepted archive = true → SubdirInside home scope s :=
  jailed_stageTarball fun _ => jailed_installStaged

/-- Any archive may come back from upstream, and the empty one is accepted. -/
theorem jailed_fetch {source : SkillSource} {subdir : Option String}
    {next : Except SkillError (String × Archive TarEntry) → ImportProgram Hash}
    (hfail : ∀ e, Jailed home scope (next (.error e)))
    (hnext : ∀ sha archive, Jailed home scope (next (.ok (sha, archive))) ↔
      ∀ s, subdir = some s → archiveAccepted archive = true → SubdirInside home scope s) :
    Jailed home scope (.call (.fetch source) next) ↔
      ∀ s, subdir = some s → SubdirInside home scope s := by
  constructor
  · rintro ⟨-, h⟩ s hs
    exact (hnext "" (.ok [])).mp (h (.ok ("", .ok [])) trivial) s hs rfl
  · intro h
    refine ⟨trivial, fun answer _ => ?_⟩
    cases answer with
    | error e => exact hfail e
    | ok answer => exact (hnext answer.1 answer.2).mpr fun s hs _ => h s hs

theorem jailed_importGithub {spec : String} :
    Jailed home scope (importGithub home scope spec : ImportProgram Hash) ↔
      ∀ parsed s, parseGithubSpec spec = .ok parsed → parsed.subdir = some s →
        SubdirInside home scope s := by
  unfold importGithub
  cases hparse : parseGithubSpec spec with
  | error e => exact ⟨fun _ parsed s h => (nomatch h), fun _ => jailed_fail e⟩
  | ok parsed =>
    refine (jailed_fetch jailed_fail fun sha archive => jailed_importTarball).trans ?_
    simp only [Except.ok.injEq]
    constructor
    · rintro h _ s rfl
      exact h s
    · exact fun h s => h parsed s rfl

theorem jailed_updateInstalled {loaded : Installed home scope Hash} :
    Jailed home scope (updateInstalled home scope loaded) ↔
      (loaded.info.source.repo.isSome = true →
        ∀ s, loaded.info.source.subdir = some s → SubdirInside home scope s) := by
  unfold updateInstalled
  cases hrepo : loaded.info.source.repo with
  | none => exact ⟨fun _ h => (nomatch h), fun _ => jailed_fail _⟩
  | some repo =>
    have hname := loaded.named (by simp [hrepo])
    simp only [Option.isSome_some, forall_const]
    refine jailed_fetch jailed_fail fun sha archive => jailed_stageTarball fun staging hstaging => ?_
    refine confined_findSkillRoot hstaging jailed_fail fun root hroot => ?_
    exact jailed_swap hname hstaging hroot fun facts => directChild_of_name loaded.path hname

/-- In every run of the skill library, what is loaded for an update is an installed skill. -/
theorem installed_of_run [DecidableEq Hash] {Dir : Type} [Inhabited Dir]
    {inspect : Dir → SkillFacts Hash}
    (as : List (Move (List String → OrdMap String Dir) (SkillCall (List String) Dir))) :
    Always (skillStep inspect) (fun m => ∀ name files info,
      existing home scope name (inspect files) (m.shared.rows (skillId scope name)) = .ok info →
      (∃ loaded : Installed home scope Hash, loaded.info = info) ∧
      ∃ loaded : Installed home scope Hash, loaded.info = refreshed (inspect files) info)
      ⟨.empty, []⟩ as := by
  refine (keeps_of_run as).imp ?_
  rintro m ⟨htable, -⟩ name files info hexisting
  obtain ⟨-, hname, hnamed, -⟩ := infoOk_of_existing (htable _) hexisting
  have hpath : info.path = skillDir home scope info.name := by rw [existing_path hexisting, hname]
  exact ⟨⟨⟨info, hpath, hnamed⟩, rfl⟩, ⟨⟨refreshed (inspect files) info, hpath, hnamed⟩, rfl⟩⟩

/-- Every import does all its work below the skills directory and ends with a direct child of it,
whatever the file system answers, exactly when the explicit name and the subdirectory do no harm. -/
theorem jailed_iff {enclosedName : String → Option String} (henclosed : EnclosedNames enclosedName)
    (c : ImportCall home scope Hash) : Jailed home scope (c.program enclosedName) ↔ c.Harmless := by
  cases c with
  | folder name sourceDir url entries => exact jailed_importFolder
  | zip archive => exact iff_of_true (jailed_importZip henclosed) trivial
  | tarball archive subdir source pinnedSha => exact jailed_importTarball
  | github spec => exact jailed_importGithub
  | update loaded => exact jailed_updateInstalled

/-- A check that takes the names that go down only. -/
def enclosedPlain (name : String) : Option String :=
  if (Path.parse name).absolute ∨ .parent ∈ (Path.parse name).components then none else some name

theorem enclosedNames_enclosedPlain : EnclosedNames enclosedPlain := by
  intro name relative h
  simp only [enclosedPlain, Option.ite_none_left_eq_some, not_or, Bool.not_eq_true,
    Option.some.injEq] at h
  obtain ⟨⟨habsolute, hparent⟩, rfl⟩ := h
  refine ⟨habsolute, fun place n => prefix_follow fun hmem => ?_⟩
  exact hparent (List.mem_of_mem_take hmem)

theorem plain_imports_jailed :
    let home : SkillHome (List String) := ⟨["w"], ["h"]⟩
    let archive : Archive ZipEntry := .ok [.ok ⟨"pdf/SKILL.md", false, some 0o100644, 12⟩]
    Jailed home .workspace ((.zip archive : ImportCall home .workspace Nat).program enclosedPlain) ∧
    Jailed home .workspace
      ((.github "o/r/docs" : ImportCall home .workspace Nat).program enclosedPlain) := by
  refine ⟨(jailed_iff enclosedNames_enclosedPlain _).mpr trivial,
    (jailed_iff enclosedNames_enclosedPlain _).mpr ?_⟩
  intro parsed s hparsed hs ms wrapper
  have hparse : parseGithubSpec "o/r/docs" = .ok ⟨"o", "r", some "docs", none⟩ := by decide +kernel
  obtain rfl := Except.ok.inj (hparse.symm.trans hparsed)
  obtain rfl := Option.some.inj hs
  have hdocs : Path.parse "docs" = ⟨false, [.name "docs"]⟩ := by decide +kernel
  rw [stagingPath_eq (by decide), hdocs, Path.place_join rfl]
  simp

/-- A subdirectory with a second slash is taken from the root, and the explicit name takes the
staging directory along before it is checked. -/
theorem subdir_and_name_escape :
    let home : SkillHome (List String) := ⟨["w"], ["h"]⟩
    ¬ Jailed home .workspace (importGithub home .workspace "o/r//etc" : ImportProgram Nat) ∧
    ¬ Jailed home .workspace (importFolder home .workspace (some "../../../evil")
      (.ofPlace ["src"]) "/src" (some .nil) : ImportProgram Nat) := by
  refine ⟨fun h => ?_, fun h => ?_⟩
  · have hparse : parseGithubSpec "o/r//etc" = .ok ⟨"o", "r", some "/etc", none⟩ := by decide +kernel
    have hplace := jailed_importGithub.mp h _ _ hparse rfl 0 "r-main"
    revert hplace
    decide +kernel
  · have hplace := (jailed_importFolder.mp h 0).place
    revert hplace
    decide +kernel

end Install

end Tethys.Sync
