import Tethys.Git.Globs
import Tethys.Lib.Fields
import Tethys.Lib.Programs
import Tethys.Lib.Volume
import Mathlib.Algebra.Group.Nat.Defs

/-!
# The bootstrap of a worktree

Configured untracked files are copied into a new worktree. The walk over the main worktree only
descends as deep as the deepest glob can match; `copy_spec` says that this loses no file, and that
no file of the destination is changed.
-/

namespace Tethys.Git

open Lib

inductive BootstrapError where
  | invalidPath (message : String)
  | io
  deriving DecidableEq

/-- The name of a directory entry, as its text is read. -/
structure FileName where
  text : Segment
  no_slash : '/' ∉ text

/-- What a directory lists, in its order. -/
inductive Listing where
  | nil
  | file (name : FileName) (rest : Listing)
  | dir (name : FileName) (entries rest : Listing)
  /-- a link, a socket, a device -/
  | other (name : FileName) (rest : Listing)

def dotGit : Segment := ['.', 'g', 'i', 't']

/-- The text of a path below the root, with slashes. -/
def relativeText (path : List FileName) : String :=
  .ofList ((['/'].intercalate (path.map (·.text))).map fun c => if c = '\\' then '/' else c)

/-! ## The walk -/

def usizeMax : Nat := 2 ^ 64 - 1

/-- How deep the deepest glob can match. -/
def maxDepth (globs : List String) : Nat :=
  if globs.any fun glob => decide (['*', '*'] <:+: glob.toList) then usizeMax
  else ((globs.map fun glob => (glob.toList.splitOn '/').length).max?).getD 1

section Walk
variable (root : String) (bound : Nat)

def displayDir (path : List FileName) : String :=
  "/".intercalate (root :: path.map fun name => .ofList name.text)

def checkDepth (path : List FileName) (depth : Nat) : Except BootstrapError Unit :=
  if 32 < depth then
    .error (.invalidPath ("bootstrap glob walk exceeded depth at " ++ displayDir root path))
  else .ok ()

/-- The files that are found in a directory at the given depth. -/
def walkEntries : Nat → List FileName → Listing → Except BootstrapError (List String)
  | _, _, .nil => .ok []
  | depth, path, .file name rest => do
    let others ← walkEntries depth path rest
    .ok (if name.text = dotGit then others else relativeText (path ++ [name]) :: others)
  | depth, path, .dir name entries rest => do
    let inner ←
      if name.text ≠ dotGit ∧ depth + 1 < bound then do
        checkDepth root (path ++ [name]) (depth + 1)
        walkEntries (depth + 1) (path ++ [name]) entries
      else .ok []
    let others ← walkEntries depth path rest
    .ok (inner ++ others)
  | depth, path, .other _ rest => walkEntries depth path rest

def walk (tree : Listing) : Except BootstrapError (List String) := do
  checkDepth root [] 0
  walkEntries root bound 0 [] tree

end Walk

def selects (globs : List String) (relative : String) : Bool :=
  globs.any fun glob => patternMatches glob relative

/-- The files that are copied, unless they are at the destination already. -/
def selectedFiles (root : String) (globs : List String) (tree : Listing) :
    Except BootstrapError (List String) :=
  (walk root (maxDepth globs) tree).map (·.filter (selects globs))

/-! ## What there is to find -/

namespace Listing

/-- How many levels of directories there are. -/
def levels : Listing → Nat
  | nil => 0
  | file _ rest => rest.levels
  | dir _ entries rest => max (entries.levels + 1) rest.levels
  | other _ rest => rest.levels

/-- The regular files outside `.git`. -/
def files : Listing → List (List FileName)
  | nil => []
  | file name rest => if name.text = dotGit then rest.files else [name] :: rest.files
  | dir name entries rest =>
    (if name.text = dotGit then [] else entries.files.map (name :: ·)) ++ rest.files
  | other _ rest => rest.files

/-- A regular file is at a path. -/
def HasFile : Listing → List FileName → Prop
  | nil, _ => False
  | file name rest, path => path = [name] ∨ rest.HasFile path
  | dir name entries rest, path =>
    (∃ inner, path = name :: inner ∧ entries.HasFile inner) ∨ rest.HasFile path
  | other _ rest, path => rest.HasFile path

variable {l : Listing} {path : List FileName}

theorem mem_files :
    path ∈ l.files ↔ l.HasFile path ∧ ∀ name ∈ path, name.text ≠ dotGit := by
  induction l generalizing path with
  | nil => simp [files, HasFile]
  | file name rest ih =>
    by_cases hgit : name.text = dotGit
    · simp only [files, if_pos hgit, ih, HasFile]
      constructor
      · exact fun ⟨hfile, hnames⟩ => ⟨.inr hfile, hnames⟩
      · rintro ⟨rfl | hfile, hnames⟩
        · exact absurd hgit (hnames name List.mem_cons_self)
        · exact ⟨hfile, hnames⟩
    · simp only [files, if_neg hgit, List.mem_cons, ih, HasFile]
      constructor
      · rintro (rfl | ⟨hfile, hnames⟩)
        · exact ⟨.inl rfl, by simpa using hgit⟩
        · exact ⟨.inr hfile, hnames⟩
      · rintro ⟨rfl | hfile, hnames⟩
        · exact .inl rfl
        · exact .inr ⟨hfile, hnames⟩
  | dir name entries rest ihEntries ih =>
    by_cases hgit : name.text = dotGit
    · simp only [files, if_pos hgit, List.nil_append, ih, HasFile]
      constructor
      · exact fun ⟨hfile, hnames⟩ => ⟨.inr hfile, hnames⟩
      · rintro ⟨⟨inner, rfl, -⟩ | hfile, hnames⟩
        · exact absurd hgit (hnames name List.mem_cons_self)
        · exact ⟨hfile, hnames⟩
    · simp only [files, if_neg hgit, List.mem_append, List.mem_map, ih, ihEntries, HasFile]
      constructor
      · rintro (⟨inner, ⟨hfile, hnames⟩, rfl⟩ | ⟨hfile, hnames⟩)
        · exact ⟨.inl ⟨inner, rfl, hfile⟩, List.forall_mem_cons.mpr ⟨hgit, hnames⟩⟩
        · exact ⟨.inr hfile, hnames⟩
      · rintro ⟨⟨inner, rfl, hfile⟩ | hfile, hnames⟩
        · exact .inl ⟨inner, ⟨hfile, (List.forall_mem_cons.mp hnames).2⟩, rfl⟩
        · exact .inr ⟨hfile, hnames⟩
  | other name rest ih => exact ih

theorem ne_nil_of_mem_files (h : path ∈ l.files) : path ≠ [] := by
  rintro rfl
  have hfile := (mem_files.mp h).1
  clear h
  induction l with
  | nil => exact hfile
  | file name rest ih => exact hfile.elim (fun h => by cases h) ih
  | dir name entries rest _ ih => exact hfile.elim (fun ⟨_, h, _⟩ => by cases h) ih
  | other name rest ih => exact ih hfile

theorem length_le_of_mem_files (h : path ∈ l.files) : path.length ≤ l.levels + 1 := by
  have hfile := (mem_files.mp h).1
  clear h
  induction l generalizing path with
  | nil => exact hfile.elim
  | file name rest ih =>
    rcases hfile with rfl | hfile
    · simp
    · exact ih hfile
  | dir name entries rest ihEntries ih =>
    rcases hfile with ⟨inner, rfl, hfile⟩ | hfile
    · have hinner := ihEntries hfile
      simp only [levels, List.length_cons]
      omega
    · have hrest := ih hfile
      simp only [levels]
      omega
  | other name rest ih => exact ih hfile

end Listing

/-! ## What the walk finds -/

section Walk
variable {root : String} {bound : Nat} {l : Listing}

/-- A path of the directory is found when the walk descends to where it ends. -/
def Reached (bound depth : Nat) (path : List FileName) : Prop :=
  path.length = 1 ∨ depth + path.length ≤ bound

instance (bound depth : Nat) (path : List FileName) : Decidable (Reached bound depth path) :=
  inferInstanceAs (Decidable (_ ∨ _))

theorem reached_cons {depth : Nat} {name : FileName} {path : List FileName} (hpath : path ≠ []) :
    Reached bound depth (name :: path) ↔ depth + 1 < bound ∧ Reached bound (depth + 1) path := by
  have hlength := List.length_pos_iff.mpr hpath
  simp only [Reached, List.length_cons]
  omega

/-- What is found in a directory, whose entries are at the next depth. -/
theorem filter_reached_dir (name : FileName) (entries : Listing) (depth : Nat) :
    (entries.files.map (name :: ·)).filter (Reached bound depth ·) =
      if depth + 1 < bound then
        (entries.files.filter (Reached bound (depth + 1) ·)).map (name :: ·)
      else [] := by
  rw [List.filter_map]
  split_ifs with hdepth
  · refine congrArg _ (List.filter_congr fun path hpath => decide_eq_decide.mpr ?_)
    simp [reached_cons (Listing.ne_nil_of_mem_files hpath), hdepth]
  · rw [List.map_eq_nil_iff, List.filter_eq_nil_iff]
    intro path hpath
    simp [reached_cons (Listing.ne_nil_of_mem_files hpath), hdepth]

theorem walkEntries_eq {depth : Nat} {path : List FileName} (h : depth + l.levels ≤ 32) :
    walkEntries root bound depth path l =
      .ok ((l.files.filter (Reached bound depth ·)).map fun inner => relativeText (path ++ inner)) := by
  induction l generalizing depth path with
  | nil => rfl
  | file name rest ih =>
    rw [walkEntries, ih h]
    by_cases hgit : name.text = dotGit
    · simp [Listing.files, hgit, bind, Except.bind]
    · simp [Listing.files, hgit, Reached, bind, Except.bind]
  | dir name entries rest ihEntries ih =>
    simp only [Listing.levels] at h
    have hrest : depth + rest.levels ≤ 32 := by omega
    have hcheck : checkDepth root (path ++ [name]) (depth + 1) = .ok () := if_neg (by omega)
    rw [walkEntries, ih hrest]
    by_cases hgit : name.text = dotGit
    · simp [Listing.files, hgit, bind, Except.bind]
    · by_cases hdepth : depth + 1 < bound
      · have hentries : depth + 1 + entries.levels ≤ 32 := by omega
        simp [Listing.files, hgit, hdepth, hcheck, ihEntries hentries, filter_reached_dir, bind,
          Except.bind, Function.comp_def]
      · simp [Listing.files, hgit, hdepth, filter_reached_dir, bind, Except.bind]
  | other name rest ih => exact ih h

end Walk

/-! ## Names and globs -/

/-- No name has a backslash. -/
def Listing.NoBackslash : Listing → Prop
  | nil => True
  | file name rest => '\\' ∉ name.text ∧ rest.NoBackslash
  | dir name entries rest => '\\' ∉ name.text ∧ entries.NoBackslash ∧ rest.NoBackslash
  | other name rest => '\\' ∉ name.text ∧ rest.NoBackslash

theorem Listing.NoBackslash.of_mem_files {l : Listing} {path : List FileName} (h : l.NoBackslash)
    (hpath : path ∈ l.files) : ∀ name ∈ path, '\\' ∉ name.text := by
  have hfile := (mem_files.mp hpath).1
  clear hpath
  induction l generalizing path with
  | nil => exact hfile.elim
  | file name rest ih =>
    rcases hfile with rfl | hfile
    · simpa using h.1
    · exact ih h.2 hfile
  | dir name entries rest ihEntries ih =>
    rcases hfile with ⟨inner, rfl, hfile⟩ | hfile
    · exact List.forall_mem_cons.mpr ⟨h.1, ihEntries h.2.1 hfile⟩
    · exact ih h.2.2 hfile
  | other name rest ih => exact ih h.2 hfile

/-- The segments of a path are the texts of its names. -/
theorem splitOn_relativeText {path : List FileName} (hpath : path ≠ [])
    (h : ∀ name ∈ path, '\\' ∉ name.text) :
    (relativeText path).toList.splitOn '/' = path.map (·.text) := by
  have hclean : ∀ c ∈ ['/'].intercalate (path.map (·.text)), (if c = '\\' then '/' else c) = c := by
    refine forall_mem_intercalate (by decide) (List.forall_mem_map.mpr fun name hname c hc => ?_)
    refine if_neg ?_
    rintro rfl
    exact h name hname hc
  rw [relativeText, String.toList_ofList, List.map_congr_left hclean, List.map_id',
    List.splitOn_intercalate '/' ?_ (by simpa using hpath)]
  rw [List.forall_mem_map]
  exact fun name _ => name.no_slash

/-- A path that a glob matches is not deeper than the walk. -/
theorem length_le_maxDepth {globs : List String} {path : List FileName} (hpath : path ≠ [])
    (hnames : ∀ name ∈ path, '\\' ∉ name.text) (hshort : path.length ≤ usizeMax)
    (h : selects globs (relativeText path) = true) : path.length ≤ maxDepth globs := by
  rw [maxDepth]
  split_ifs with hdeep
  · exact hshort
  · obtain ⟨glob, hglob, hmatches⟩ := List.any_eq_true.mp h
    have hmatch := matchSegments_iff.mp hmatches
    rw [splitOn_relativeText hpath hnames] at hmatch
    have hplain : ∀ segment ∈ glob.toList.splitOn '/', ¬ IsDeep segment := by
      rintro segment hsegment rfl
      refine hdeep (List.any_eq_true.mpr ⟨glob, hglob, ?_⟩)
      exact decide_eq_true (infix_of_mem_splitOn hsegment)
    have hlength := hmatch.length_eq hplain
    rw [List.length_map] at hlength
    rw [hlength]
    exact List.le_max?_getD_of_mem (List.mem_map_of_mem hglob)

/-- The walk loses no file that is selected. -/
theorem selectedFiles_eq {root : String} {globs : List String} {tree : Listing}
    (hlevels : tree.levels ≤ 32) (hnames : tree.NoBackslash) :
    selectedFiles root globs tree = .ok ((tree.files.map relativeText).filter (selects globs)) := by
  have hlevels' : 0 + tree.levels ≤ 32 := by omega
  have hwalk : walk root (maxDepth globs) tree =
      .ok ((tree.files.filter (Reached (maxDepth globs) 0 ·)).map relativeText) :=
    walkEntries_eq hlevels'
  rw [selectedFiles, hwalk, Except.map, List.filter_map, List.filter_map, List.filter_filter]
  refine congrArg _ (congrArg _ (List.filter_congr fun path hpath => ?_))
  rw [Bool.and_eq_left_iff_imp]
  intro hselects
  have hlength := Listing.length_le_of_mem_files hpath
  refine decide_eq_true (.inr ?_)
  rw [Nat.zero_add]
  refine length_le_maxDepth (Listing.ne_nil_of_mem_files hpath) (hnames.of_mem_files hpath) ?_ hselects
  rw [usizeMax]
  omega

/-! ## Copying -/

inductive BootstrapOp where
  | isThere (relative : String)
  | createParent (relative : String)
  | copyFile (relative : String)

/-- Whether it is there; whether the call succeeds. -/
abbrev BootstrapRes : BootstrapOp → Type
  | .isThere _ | .createParent _ | .copyFile _ => Bool

/-- The loop over the files that are selected, with those that were copied so far. -/
def copyFiles (copied : List String) :
    List String → Program BootstrapOp BootstrapRes (Except BootstrapError (List String))
  | [] => .ret (.ok copied)
  | relative :: rest =>
    .call (.isThere relative) fun found =>
      if found then copyFiles copied rest
      else
        .call (.createParent relative) fun made =>
          if made then
            .call (.copyFile relative) fun done =>
              if done then copyFiles (copied ++ [relative]) rest else .ret (.error .io)
          else .ret (.error .io)

def copy (root : String) (globs : List String) (tree : Listing) :
    Program BootstrapOp BootstrapRes (Except BootstrapError (List String)) :=
  if globs = [] then .ret (.ok [])
  else
    match selectedFiles root globs tree with
    | .ok relatives => copyFiles [] relatives
    | .error e => .ret (.error e)

section Copying
variable {β : Type}

/-- Where the paths below the destination lead, links followed, and what the source has there. -/
structure BootstrapWorld (β : Type) where
  lead : String → List String
  contents : String → Option β

variable {world : BootstrapWorld β} {m m' : NodeMap β} {relative : String}

/-- Something is written where the path leads. -/
def Writes (world : BootstrapWorld β) (m : NodeMap β) (relative : String) (data : β)
    (m' : NodeMap β) : Prop :=
  m (world.lead relative) ≠ some .dir ∧ m' = m.put (world.lead relative) data

/-- How a call can be answered, and what it then does. A call that fails may have done a part. -/
def BootstrapWorld.Performs (world : BootstrapWorld β) (m : NodeMap β) :
    (op : BootstrapOp) → BootstrapRes op → NodeMap β → Prop
  | .isThere relative, found, m' => m' = m ∧ (found = true ↔ m (world.lead relative) ≠ none)
  | .createParent _, _, m' => ∃ places, m' = m.make places
  | .copyFile relative, done, m' =>
    if done = true then ∃ data, world.contents relative = some data ∧ Writes world m relative data m'
    else m' = m ∨ ∃ data, Writes world m relative data m'

/-- Every file is as it was. -/
def KeepsFiles (m m' : NodeMap β) : Prop :=
  ∀ place data, m place = some (.file data) → m' place = some (.file data)

theorem KeepsFiles.refl (m : NodeMap β) : KeepsFiles m m := fun _ _ h => h

theorem KeepsFiles.trans {m'' : NodeMap β} (h : KeepsFiles m m') (h' : KeepsFiles m' m'') :
    KeepsFiles m m'' := fun place data hfile => h' place data (h place data hfile)

theorem keepsFiles_make (m : NodeMap β) (places : List (List String)) :
    KeepsFiles m (m.make places) := by
  intro place data hfile
  rw [NodeMap.make, hfile]
  simp

/-- Writing where nothing is, or a directory was made, changes no file. -/
theorem KeepsFiles.writes {m₀ : NodeMap β} {data : β} (h : KeepsFiles m₀ m)
    (hfree : m₀ (world.lead relative) = none) (hwrites : Writes world m relative data m') :
    KeepsFiles m₀ m' := by
  obtain ⟨-, rfl⟩ := hwrites
  intro place data' hfile
  have hne : place ≠ world.lead relative := by
    rintro rfl
    rw [hfree] at hfile
    cases hfile
  rw [NodeMap.put, if_neg hne]
  exact h place data' hfile

/-- What is there stays there. -/
def KeepsThere (m m' : NodeMap β) : Prop := ∀ place, m place ≠ none → m' place ≠ none

theorem keepsThere_make (m : NodeMap β) (places : List (List String)) :
    KeepsThere m (m.make places) := by
  intro place hplace
  cases hnode : m place with
  | none => exact absurd hnode hplace
  | some node => simp [NodeMap.make, hnode]

theorem keepsThere_put (m : NodeMap β) (place : List String) (data : β) :
    KeepsThere m (m.put place data) := by
  intro q hq
  rw [NodeMap.put]
  split_ifs
  · exact Option.some_ne_none _
  · exact hq

theorem KeepsThere.trans {m'' : NodeMap β} (h : KeepsThere m m') (h' : KeepsThere m' m'') :
    KeepsThere m m'' := fun place hplace => h' place (h place hplace)

/-- No file is changed, and when the copying succeeds, the files of the list are there. -/
structure Copied (world : BootstrapWorld β) (m : NodeMap β) (relatives : List String)
    (r : Except BootstrapError (List String)) (m' : NodeMap β) : Prop where
  files : KeepsFiles m m'
  there : KeepsThere m m'
  complete : ∀ copied, r = .ok copied → ∀ relative ∈ relatives, m' (world.lead relative) ≠ none

/-- However the calls are answered. -/
theorem ensures_copyFiles (world : BootstrapWorld β) (m : NodeMap β) (copied relatives : List String) :
    (copyFiles copied relatives).Ensures world.Performs (Copied world m relatives) m := by
  induction relatives generalizing m copied with
  | nil => exact ⟨.refl m, fun _ h => h, by simp⟩
  | cons relative rest ih =>
    rintro found m₁ ⟨hm, hfound⟩
    obtain rfl := hm.symm
    dsimp only
    split_ifs with h
    · refine (ih m copied).mono fun r m' hcopied => ⟨hcopied.files, hcopied.there, ?_⟩
      intro list hr
      exact List.forall_mem_cons.mpr
        ⟨hcopied.there _ (hfound.mp h), hcopied.complete list hr⟩
    · have hfree : m (world.lead relative) = none := by
        by_contra hthere
        exact h (hfound.mpr hthere)
      rintro made _ ⟨places, rfl⟩
      have hmade := keepsFiles_make m places
      dsimp only
      split_ifs
      · rintro done m₂ hperforms
        simp only [BootstrapWorld.Performs] at hperforms
        dsimp only
        split_ifs at hperforms ⊢
        · obtain ⟨data, -, hwrites⟩ := hperforms
          have hfiles := hmade.writes hfree hwrites
          obtain ⟨-, rfl⟩ := hwrites
          have hthere := (keepsThere_make m places).trans (keepsThere_put _ (world.lead relative) data)
          refine (ih _ _).mono fun r m' hcopied => ⟨hfiles.trans hcopied.files,
            hthere.trans hcopied.there, fun list hr => ?_⟩
          refine List.forall_mem_cons.mpr ⟨hcopied.there _ ?_, hcopied.complete list hr⟩
          simp [NodeMap.put]
        · obtain rfl | ⟨data, hwrites⟩ := hperforms
          · exact ⟨hmade, keepsThere_make m places, by simp⟩
          · have hfiles := hmade.writes hfree hwrites
            obtain ⟨-, rfl⟩ := hwrites
            exact ⟨hfiles, (keepsThere_make m places).trans (keepsThere_put _ _ data), by simp⟩
      · exact ⟨hmade, keepsThere_make m places, by simp⟩

/-- In a tree of at most 32 levels whose names have no backslash, the walk finds just those regular
files outside `.git` that a glob matches, and whatever happens while they are copied, no file of the
destination is changed; when it succeeds, all of them are there. -/
theorem copy_spec (world : BootstrapWorld β) (root : String) (globs : List String) (tree : Listing)
    (hlevels : tree.levels ≤ 32) (hnames : tree.NoBackslash) :
    selectedFiles root globs tree = .ok ((tree.files.map relativeText).filter (selects globs)) ∧
      (∀ path, path ∈ tree.files ↔ tree.HasFile path ∧ ∀ name ∈ path, name.text ≠ dotGit) ∧
      ∀ m r m', (copy root globs tree).Runs world.Performs m r m' →
        Copied world m ((tree.files.map relativeText).filter (selects globs)) r m' := by
  have hselected : selectedFiles root globs tree =
      .ok ((tree.files.map relativeText).filter (selects globs)) := selectedFiles_eq hlevels hnames
  refine ⟨hselected, fun path => Listing.mem_files, fun m r m' hruns => ?_⟩
  rw [copy] at hruns
  split_ifs at hruns with hglobs
  · cases hruns
    have hnone : (tree.files.map relativeText).filter (selects globs) = [] := by
      rw [hglobs, List.filter_eq_nil_iff]
      simp [selects]
    rw [hnone]
    exact ⟨.refl m, fun _ h => h, by simp⟩
  · rw [hselected] at hruns
    exact (ensures_copyFiles world m [] _).of_runs hruns

end Copying

/-- An environment file, and a package below a directory. -/
def envTree : Listing :=
  .file ⟨".env".toList, by decide⟩
    (.dir ⟨"node_modules".toList, by decide⟩ (.file ⟨"index.js".toList, by decide⟩ .nil) .nil)

/-- The destination has a file of its own. -/
def envWorld : BootstrapWorld String := ⟨fun relative => [relative], fun _ => some "KEY=1"⟩

def readmeMap : NodeMap String := fun place => if place = ["README.md"] then some (.file "hello") else none

theorem selects_env : (envTree.files.map relativeText).filter (selects [".env*"]) = [".env"] := by
  have hfiles : envTree.files.map relativeText = [".env", "node_modules/index.js"] := by decide +kernel
  have hpattern : ".env*".toList.splitOn '/' = [['.', 'e', 'n', 'v', '*']] := by decide
  have henv : patternMatches ".env*" ".env" = true := by
    have hpath : ".env".toList.splitOn '/' = [['.', 'e', 'n', 'v']] := by decide
    have hsegment : Eager IsStar Takes ['.', 'e', 'n', 'v', '*'] ['.', 'e', 'n', 'v'] :=
      .one (.inr rfl) (.one (.inr rfl) (.one (.inr rfl) (.one (.inr rfl)
        (.star (u := []) (v := []) rfl (by simp) .nil))))
    rw [patternMatches_eq_true, StarsTakeStars, hpattern, hpath]
    exact .one (by decide) hsegment .nil
  have hindex : patternMatches ".env*" "node_modules/index.js" = false := by
    have hpath : "node_modules/index.js".toList.splitOn '/' =
        ["node_modules".toList, "index.js".toList] := by decide
    rw [patternMatches, hpattern, hpath]
    simp [matchSegments, IsDeep]
  rw [hfiles]
  simp [selects, henv, hindex]

/-- The file is copied, and the package stays behind. -/
theorem copy_spec_env :
    selectedFiles "/repo" [".env*"] envTree = .ok [".env"] ∧
      ∃ m', (copy "/repo" [".env*"] envTree).Runs envWorld.Performs readmeMap (.ok [".env"]) m' ∧
        m' [".env"] = some (.file "KEY=1") ∧
        Copied envWorld readmeMap [".env"] (.ok [".env"]) m' := by
  obtain ⟨hselected, -, hcopied⟩ := copy_spec envWorld "/repo" [".env*"] envTree (by decide)
    ⟨by decide, ⟨by decide, ⟨by decide, trivial⟩, trivial⟩⟩
  rw [selects_env] at hselected hcopied
  have hruns : (copy "/repo" [".env*"] envTree).Runs envWorld.Performs readmeMap (.ok [".env"])
      ((readmeMap.make []).put [".env"] "KEY=1") := by
    rw [copy, if_neg (by decide), hselected]
    have hwrites : envWorld.Performs (readmeMap.make []) (.copyFile ".env") true
        ((readmeMap.make []).put [".env"] "KEY=1") := ⟨"KEY=1", rfl, by decide, rfl⟩
    refine .call (r := false) ⟨rfl, by decide⟩ (.call (r := true) ⟨[], rfl⟩ ?_)
    rw [if_pos rfl]
    exact .call hwrites (.ret _ _)
  exact ⟨hselected, _, hruns, rfl, hcopied _ _ _ hruns⟩

end Tethys.Git
