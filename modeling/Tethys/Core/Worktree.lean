import Tethys.Lib.FileSystem
import Tethys.Lib.Results
import Tethys.Lib.Text

/-!
# Where worktrees are made

`git_worktree_create` of `tethys-core/src/lib.rs` with `worktree_path_allowed` and `normalize_path`,
and `default_worktree_path` and `create` of `tethys-git/src/worktree.rs`, up to the call of
`git worktree add`. A path that is given is checked before it goes to git; one that is made from
the slug is not. `worktree_jailed` says when the path that git gets lies in the workspace root or
in the worktrees directory.
-/

namespace Tethys.Core

open Lib

structure WorktreeSpec where
  slug : String
  path : String
  branch : String
  base : String
  mainCheckout : Bool
  deriving DecidableEq

structure GitConfig where
  worktreesDir : Option String
  wtBranchTemplate : String
  deriving DecidableEq

inductive WorktreeError where
  | invalidConfig (message : String)
  | invalidArgument (message : String)
  | invalidPath (message : String)
  | notARepo (message : String)
  | io
  deriving DecidableEq

/-- What becomes of a spec. -/
inductive WorktreeCall where
  | mainCheckout
  | add (branch path base : String)
  deriving DecidableEq

/-- What the call finds: the disk, the workspace and its repository. -/
structure WorktreeHost where
  fs : FileSystem
  /-- how many links the system follows in one path -/
  links : Nat
  cwd : List String
  cwd_dir : fs.nodes cwd = some .dir
  root : String
  /-- the top level of the repository, where git runs -/
  toplevel : List String
  config : GitConfig
  syncHome : String
  homeDir : Option String
  /-- the start of a digest in hexadecimal, if the repository is found -/
  repoId : Except WorktreeError String
  repoId_digits : ∀ id, repoId = .ok id → id.toList.length = 16 ∧ ∀ c ∈ id.toList, c.isAlphanum = true
  checkRefFormat : String → Bool
  createDirAll : Path → Bool

def isBlank (text : String) : Bool := trim text.toList = []

/-- The configured directory, unless it is blank. -/
def configuredDir (config : GitConfig) : Option String :=
  (config.worktreesDir.map fun dir => String.ofList (trim dir.toList)).filter (· ≠ "")

/-- The path, or what stands in for a blank one. -/
def givenOr (path : String) (derived : Except WorktreeError String) : Except WorktreeError String :=
  if isBlank path then derived else .ok path

/-- The recursion of `normalize_path`, on the components in reverse. -/
def normalizeComponents (canonicalize : Path → Option (List String)) (absolute : Bool) :
    List Component → Path
  | [] =>
    match canonicalize ⟨absolute, []⟩ with
    | some place => .ofPlace place
    | none => ⟨absolute, []⟩
  | .name n :: rest =>
    match canonicalize ⟨absolute, (.name n :: rest).reverse⟩ with
    | some place => .ofPlace place
    | none => (normalizeComponents canonicalize absolute rest).child n
  | .parent :: rest =>
    match canonicalize ⟨absolute, (.parent :: rest).reverse⟩ with
    | some place => .ofPlace place
    -- a path that ends in dots has no file name and is left as it is
    | none => ⟨absolute, (.parent :: rest).reverse⟩

namespace WorktreeHost

variable (host : WorktreeHost)

/-- The place of a path, if all of it is there. -/
def canonicalize (path : Path) : Option (List String) :=
  if path = ⟨false, []⟩ then none
  else host.fs.resolve host.links (FileSystem.start host.cwd path) path.components

def normalizePath (path : Path) : Path :=
  normalizeComponents host.canonicalize path.absolute path.components.reverse

/-- A path that is taken from the workspace root. -/
def fromRoot (path : Path) : Path := if path.absolute then path else (Path.parse host.root).join path

def worktreePathAllowed (candidate : Path) : Bool :=
  let dir := match configuredDir host.config with
    | some dir => host.fromRoot (.parse dir)
    | none => .parse (joinText host.syncHome "worktrees")
  [host.normalizePath (.parse host.root), host.normalizePath dir].any
    (host.normalizePath (host.fromRoot candidate)).startsWith

def defaultWorktreePath (slug : String) : Except WorktreeError String :=
  if slug = "" then .error (.invalidArgument "slug is required")
  else
    match host.homeDir with
    | none => .error (.invalidArgument "cannot resolve home directory")
    | some home => host.repoId.map fun id =>
        joinText (joinText (joinText (joinText home ".tethys") "worktrees") id) slug

/-- The checks of `create` on the path, and the call of git. -/
def addWorktree (spec : WorktreeSpec) (path : String) : Except WorktreeError WorktreeCall :=
  if (host.canonicalize (.parse path)).isSome then
    .error (.invalidPath ("worktree path already exists: " ++ path))
  else if host.checkRefFormat spec.branch = false then
    .error (.invalidArgument ("invalid branch name: " ++ spec.branch))
  else if (Path.parse path).parent.any (!host.createDirAll ·) then .error .io
  else .ok (.add spec.branch path spec.base)

/-- `create`, up to the call of git. -/
def create (spec : WorktreeSpec) : Except WorktreeError WorktreeCall :=
  if spec.mainCheckout then .ok .mainCheckout
  else if spec.slug = "" then .error (.invalidArgument "slug is required")
  else if spec.branch = "" then .error (.invalidArgument "branch is required")
  else (givenOr spec.path (host.defaultWorktreePath spec.slug)).bind (host.addWorktree spec)

/-- The path for a spec that gives none. -/
def derivedPath (slug : String) : Except WorktreeError String :=
  match configuredDir host.config with
  | some dir => .ok (joinText dir slug)
  | none => host.defaultWorktreePath slug

/-- The branch of a spec, or else the one of the template. -/
def branchFor (spec : WorktreeSpec) : String :=
  if isBlank spec.branch then
    String.ofList (replaceAll "\x7bslug\x7d".toList spec.slug.toList 0
      host.config.wtBranchTemplate.toList)
  else spec.branch

def gitWorktreeCreate (spec : WorktreeSpec) : Except WorktreeError WorktreeCall :=
  if isBlank spec.path = false ∧ host.worktreePathAllowed (.parse spec.path) = false then
    .error (.invalidConfig
      ("worktree path is outside the workspace root and worktrees directory: " ++ spec.path))
  else
    (givenOr spec.path (host.derivedPath spec.slug)).bind fun path =>
    host.create { spec with path, branch := host.branchFor spec }

/-! ## The jail -/

/-- Where worktrees may be: the workspace root, and the configured or else the default directory.
The check has the default in the home of the sync settings, the derived path in `.tethys`. -/
def worktreesDirs : List Path :=
  Path.parse host.root ::
    match configuredDir host.config with
    | some dir => [host.fromRoot (.parse dir)]
    | none => .parse (joinText host.syncHome "worktrees") ::
        host.homeDir.toList.map fun home => .parse (joinText (joinText home ".tethys") "worktrees")

/-- The directory that git takes the path for lies in one of the directories. -/
def InDirs (path : Path) : Prop :=
  ∀ place, host.fs.Means host.toplevel path place →
    ∃ dir ∈ host.worktreesDirs, ∃ base, host.fs.Means host.cwd dir base ∧ base <+: place

/-- The workspace root is the top level of the repository. -/
def AtToplevel : Prop := host.fs.Means host.cwd (.parse host.root) host.toplevel

/-- What the path has of dots and links is there; after that come names, of which the first is
missing. -/
def Settled (path : Path) : Prop :=
  ∃ (front : List Component) (names place : List String),
    path.components = front ++ names.map .name ∧
    host.canonicalize ⟨path.absolute, front⟩ = some place ∧
    ∀ n ∈ names.head?, host.fs.nodes (place ++ [n]) = none

/-- From the directory, the components meet no link and lead to a place inside. -/
def StaysIn (dir : Path) (components : List Component) : Prop :=
  ∀ base, host.fs.Means host.toplevel dir base →
    (∀ n dest, host.fs.nodes (follow base (components.take (n + 1))) ≠ some (.link dest)) ∧
      base <+: follow base components

/-- What a spec has to meet for the check to be enough, or for there to be no need of one. -/
def Checked (spec : WorktreeSpec) : Prop :=
  if isBlank spec.path then
    (Path.parse spec.slug).absolute = false ∧
      match configuredDir host.config with
      | some dir => ((Path.parse dir).absolute = true ∨ host.AtToplevel) ∧
          host.StaysIn (.parse dir) (Path.parse spec.slug).components
      | none => ∀ home id, host.homeDir = some home → host.repoId = .ok id →
          (Path.parse home).absolute = true ∧
            host.StaysIn (.parse (joinText (joinText home ".tethys") "worktrees"))
              (.name id :: (Path.parse spec.slug).components)
  else ((Path.parse spec.path).absolute = true ∨ host.AtToplevel) ∧
    host.Settled (host.fromRoot (.parse spec.path))

variable {host} {path : Path} {place target : List String}

theorem nodes_start (path : Path) :
    host.fs.nodes (FileSystem.start host.cwd path) = some .dir := by
  unfold FileSystem.start
  split_ifs
  · exact host.fs.root
  · exact host.cwd_dir

theorem resolve_of_canonicalize (h : host.canonicalize path = some place) :
    host.fs.resolve host.links (FileSystem.start host.cwd path) path.components = some place := by
  unfold canonicalize at h
  split_ifs at h
  exact h

theorem canonicalize_append_missing {absolute : Bool} {front rest : List Component} {n : String}
    (h : host.canonicalize ⟨absolute, front⟩ = some place)
    (hmissing : host.fs.nodes (place ++ [n]) = none) :
    host.canonicalize ⟨absolute, front ++ .name n :: rest⟩ = none := by
  unfold canonicalize
  rw [if_neg (by simp)]
  exact FileSystem.resolve_append_missing hmissing (resolve_of_canonicalize h)

/-! ## What `normalize_path` does -/

theorem normalizeComponents_of_some {canonicalize : Path → Option (List String)} {absolute : Bool}
    {components : List Component} (h : canonicalize ⟨absolute, components.reverse⟩ = some place) :
    normalizeComponents canonicalize absolute components = .ofPlace place := by
  match components with
  | [] => simp only [normalizeComponents]; simp only [List.reverse_nil] at h; rw [h]
  | .name n :: rest => simp only [normalizeComponents, h]
  | .parent :: rest => simp only [normalizeComponents, h]

/-- A settled path is normalized to the place that it means. -/
theorem normalizePath_of_settled {front : List Component} {names : List String}
    (hpath : path.components = front ++ names.map .name)
    (hfront : host.canonicalize ⟨path.absolute, front⟩ = some place)
    (hnames : ∀ n ∈ names.head?, host.fs.nodes (place ++ [n]) = none) :
    host.normalizePath path = .ofPlace (place ++ names) := by
  rw [normalizePath, hpath]
  clear hpath
  induction names using List.reverseRecOn with
  | nil =>
    rw [List.append_nil]
    refine normalizeComponents_of_some ?_
    simpa using hfront
  | append_singleton names n ih =>
    have hmissing : host.canonicalize ⟨path.absolute, front ++ (names ++ [n]).map .name⟩ = none := by
      cases names with
      | nil => exact canonicalize_append_missing hfront (hnames n rfl)
      | cons m names => exact canonicalize_append_missing hfront (hnames m rfl)
    have ih := ih fun m hm => hnames m (by rw [List.head?_append, hm]; rfl)
    have hreverse : (front ++ (names ++ [n]).map Component.name).reverse =
        .name n :: (front ++ names.map Component.name).reverse := by simp
    have hback : (Component.name n :: (front ++ names.map Component.name).reverse).reverse =
        front ++ (names ++ [n]).map Component.name := by simp
    rw [hreverse, normalizeComponents, hback, hmissing, ih]
    simp [Path.child, Path.ofPlace]

/-- Normalizing gives the place of the part that is there with the names after it, or a path with
dots, or a relative one. -/
theorem normalizePath_cases (path : Path) :
    (∃ (front : List Component) (names place : List String),
      path.components = front ++ names.map .name ∧
      host.canonicalize ⟨path.absolute, front⟩ = some place ∧
      host.normalizePath path = .ofPlace (place ++ names)) ∨
    (host.normalizePath path).absolute = false ∨ .parent ∈ (host.normalizePath path).components := by
  obtain ⟨absolute, components⟩ := path
  simp only [normalizePath]
  induction components using List.reverseRecOn with
  | nil =>
    cases hsome : host.canonicalize ⟨absolute, []⟩ with
    | some place => exact .inl ⟨[], [], place, rfl, hsome, by simp [normalizeComponents, hsome]⟩
    | none =>
      refine .inr (.inl ?_)
      cases absolute with
      | true => simp [canonicalize, FileSystem.resolve_nil] at hsome
      | false => simp [normalizeComponents, hsome]
  | append_singleton components c ih =>
    cases hsome : host.canonicalize ⟨absolute, components ++ [c]⟩ with
    | some place =>
      refine .inl ⟨components ++ [c], [], place, by simp, hsome, ?_⟩
      rw [List.append_nil]
      refine normalizeComponents_of_some ?_
      simpa using hsome
    | none =>
      rw [List.reverse_append, List.reverse_singleton, List.singleton_append]
      cases c with
      | parent => exact .inr (.inr (by simp [normalizeComponents, hsome]))
      | name n =>
        have hchild : normalizeComponents host.canonicalize absolute (.name n :: components.reverse) =
            (normalizeComponents host.canonicalize absolute components.reverse).child n := by
          simp [normalizeComponents, hsome]
        rw [hchild]
        rcases ih with ⟨front, names, place, rfl, hfront, hnormal⟩ | habsolute | hparent
        · refine .inl ⟨front, names ++ [n], place, by simp, hfront, ?_⟩
          rw [hnormal]
          simp [Path.child, Path.ofPlace]
        · exact .inr (.inl habsolute)
        · exact .inr (.inr (List.mem_append_left _ hparent))

/-- A directory whose normalized path starts a clear place has the place in it. -/
theorem exists_means_of_startsWith {dir : Path} (hclear : host.fs.Clear target)
    (h : (Path.ofPlace target).startsWith (host.normalizePath dir) = true) :
    ∃ base, host.fs.Means host.cwd dir base ∧ base <+: target := by
  simp only [Path.startsWith, Path.ofPlace, Bool.and_eq_true, beq_iff_eq,
    List.isPrefixOf_iff_prefix] at h
  obtain ⟨habsolute, hinitial⟩ := h
  rcases normalizePath_cases dir with ⟨front, names, place, hdir, hfront, hnormal⟩ | hrel | hparent
  · rw [hnormal, Path.ofPlace] at hinitial
    have hplace : place ++ names <+: target := by
      have htake := List.prefix_iff_eq_take.mp hinitial
      rw [← List.map_take, List.length_map] at htake
      rw [List.map_injective_iff.mpr (fun _ _ => Component.name.inj) htake]
      exact List.take_prefix _ target
    refine ⟨place ++ names, ?_, hplace⟩
    rw [FileSystem.Means, hdir]
    have hlead := FileSystem.leads_of_resolve (resolve_of_canonicalize hfront)
    exact hlead.append (FileSystem.leads_names (hclear.of_initial hplace))
  · rw [hrel] at habsolute
    cases habsolute
  · obtain ⟨n, -, hn⟩ := List.mem_map.mp (hinitial.subset hparent)
    cases hn

/-- A path that is allowed and settled means a place in one of the directories. -/
theorem exists_means_of_allowed (hallowed : host.worktreePathAllowed path = true)
    (hsettled : host.Settled (host.fromRoot path)) :
    ∃ place, host.fs.Means host.cwd (host.fromRoot path) place ∧
      ∃ dir ∈ host.worktreesDirs, ∃ base, host.fs.Means host.cwd dir base ∧ base <+: place := by
  obtain ⟨front, names, place, hpath, hfront, hnames⟩ := hsettled
  have hresolve := resolve_of_canonicalize hfront
  have hthere := FileSystem.there_of_resolve (nodes_start _) hresolve
  have hclear := hthere.clear_append hnames
  refine ⟨place ++ names, ?_, ?_⟩
  · rw [FileSystem.Means, hpath]
    exact (FileSystem.leads_of_resolve hresolve).append (FileSystem.leads_names hclear)
  · simp only [worktreePathAllowed, normalizePath_of_settled hpath hfront hnames, List.any_cons,
      List.any_nil, Bool.or_false, Bool.or_eq_true] at hallowed
    rcases hallowed with hroot | hdir
    · exact ⟨_, List.mem_cons_self, exists_means_of_startsWith hclear hroot⟩
    · refine ⟨_, List.mem_cons_of_mem _ ?_, exists_means_of_startsWith hclear hdir⟩
      cases configuredDir host.config <;> exact List.mem_cons_self

/-- Git and the check agree on a path that is absolute, or where the root is the top level. -/
theorem means_fromRoot (h : path.absolute = true ∨ host.AtToplevel) :
    host.fs.Means host.toplevel path place ↔ host.fs.Means host.cwd (host.fromRoot path) place := by
  by_cases habsolute : path.absolute = true
  · simp [FileSystem.Means, fromRoot, FileSystem.start, habsolute]
  · have htop : host.AtToplevel := h.resolve_left habsolute
    have hjoin : host.fromRoot path =
        ⟨(Path.parse host.root).absolute, (Path.parse host.root).components ++ path.components⟩ := by
      simp [fromRoot, Path.join, habsolute]
    rw [hjoin]
    simp only [FileSystem.Means, FileSystem.start, habsolute] at htop ⊢
    exact ⟨fun hlead => FileSystem.Leads.append htop hlead, fun hlead => hlead.of_append htop⟩

/-- What is made from a slug that stays in its directory. -/
theorem exists_means_of_staysIn {dir : Path} {components : List Component}
    (hplace : host.fs.Means host.toplevel path place) (hstays : host.StaysIn dir components)
    (habsolute : path.absolute = dir.absolute) (hpath : path.components = dir.components ++ components) :
    ∃ base, host.fs.Means host.toplevel dir base ∧ base <+: place := by
  have hstart : FileSystem.start host.toplevel path = FileSystem.start host.toplevel dir := by
    simp [FileSystem.start, habsolute]
  rw [FileSystem.Means, hpath, hstart] at hplace
  obtain ⟨base, hbase, hrest⟩ := hplace.split
  obtain ⟨hlinks, hinitial⟩ := hstays base hbase
  refine ⟨base, hbase, ?_⟩
  rwa [hrest.unique (FileSystem.leads_follow hlinks)]

/-! ## What goes to git -/

/-- A directory that is configured is not blank, whatever comes after it. -/
theorem isBlank_joinText {dir slug : String} (hdir : configuredDir host.config = some dir)
    (hslug : (Path.parse slug).absolute = false) : isBlank (joinText dir slug) = false := by
  obtain ⟨⟨raw, -, rfl⟩, hne⟩ : (∃ raw, host.config.worktreesDir = some raw ∧
      String.ofList (trim raw.toList) = dir) ∧ dir ≠ "" := by
    simpa [configuredDir, Option.filter_eq_some_iff] using hdir
  obtain ⟨c, hc, hblank⟩ := exists_mem_trimMatches fun h => hne (by rw [trim, h])
  have hmem : c ∈ (joinText (String.ofList (trim raw.toList)) slug).toList := by
    have hrelative : slug.toList.head? ≠ some '/' := by simpa [Path.parse] using hslug
    rw [joinText, if_neg hrelative]
    split_ifs <;> simp [trim, hc]
  rw [isBlank, decide_eq_false_iff_not, trim, trimMatches_eq_nil]
  intro h
  rw [h c hmem] at hblank
  cases hblank

theorem parse_repoId {id : String} (h : host.repoId = .ok id) :
    Path.parse id = ⟨false, [.name id]⟩ := by
  obtain ⟨hlength, hdigits⟩ := host.repoId_digits id h
  refine Path.parse_of_notMem (fun hmem => ?_) ⟨?_, ?_, ?_⟩
  · exact absurd (hdigits _ hmem) (by decide)
  all_goals
    rintro rfl
    exact absurd hlength (by decide)

theorem path_of_create {spec : WorktreeSpec} {branch path base : String}
    (h : host.create spec = .ok (.add branch path base)) :
    givenOr spec.path (host.defaultWorktreePath spec.slug) = .ok path := by
  unfold create at h
  rw [if_neg (fun hmain => by simp [hmain] at h)] at h
  split_ifs at h
  obtain ⟨path', hpath, h⟩ := bind_eq_ok h
  unfold addWorktree at h
  split_ifs at h
  obtain ⟨-, rfl, -⟩ : spec.branch = branch ∧ path' = path ∧ spec.base = base := by simpa using h
  exact hpath

/-- The path that git gets is the one that was given and checked, or the derived one. -/
theorem path_of_gitWorktreeCreate {spec : WorktreeSpec} {branch path base : String}
    (h : host.gitWorktreeCreate spec = .ok (.add branch path base)) :
    if isBlank spec.path then
      ∃ derived, host.derivedPath spec.slug = .ok derived ∧
        givenOr derived (host.defaultWorktreePath spec.slug) = .ok path
    else host.worktreePathAllowed (.parse spec.path) = true ∧ path = spec.path := by
  unfold gitWorktreeCreate at h
  split_ifs at h with hallowed
  obtain ⟨path', hpath, h⟩ := bind_eq_ok h
  have hcreate := path_of_create h
  split_ifs with hblank
  · rw [givenOr, if_pos hblank] at hpath
    exact ⟨path', hpath, hcreate⟩
  · rw [givenOr, if_neg hblank] at hpath
    obtain rfl := Except.ok.inj hpath
    rw [givenOr, if_neg hblank] at hcreate
    refine ⟨?_, (Except.ok.inj hcreate).symm⟩
    simpa [hblank] using hallowed

/-- The path from a slug is joined to the worktrees directory. -/
theorem inDirs_of_derivedPath {slug path : String} (hslug : (Path.parse slug).absolute = false)
    (hpath : host.derivedPath slug = .ok path)
    (hconfigured : ∀ dir, configuredDir host.config = some dir →
      ((Path.parse dir).absolute = true ∨ host.AtToplevel) ∧
        host.StaysIn (.parse dir) (Path.parse slug).components)
    (hdefault : configuredDir host.config = none → ∀ home id, host.homeDir = some home →
      host.repoId = .ok id → (Path.parse home).absolute = true ∧
        host.StaysIn (.parse (joinText (joinText home ".tethys") "worktrees"))
          (.name id :: (Path.parse slug).components)) :
    host.InDirs (.parse path) := by
  intro place hplace
  unfold derivedPath at hpath
  cases hdir : configuredDir host.config with
  | some dir =>
    simp only [hdir] at hpath
    obtain rfl := Except.ok.inj hpath
    obtain ⟨htop, hstays⟩ := hconfigured dir hdir
    rw [Path.parse_joinText, Path.join, if_neg (by simp [hslug])] at hplace
    obtain ⟨base, hbase, hinitial⟩ := exists_means_of_staysIn hplace hstays rfl rfl
    exact ⟨host.fromRoot (.parse dir), by simp [worktreesDirs, hdir], base,
      (means_fromRoot htop).mp hbase, hinitial⟩
  | none =>
    simp only [hdir, defaultWorktreePath] at hpath
    split_ifs at hpath
    split at hpath
    · cases hpath
    · rename_i home hhome
      obtain ⟨id, hid, rfl⟩ := map_eq_ok hpath
      obtain ⟨habsolute, hstays⟩ := hdefault hdir home id hhome hid
      have hname : Path.parse id = ⟨false, [.name id]⟩ := parse_repoId hid
      rw [Path.parse_joinText, Path.parse_joinText, hname] at hplace
      have hworktrees : (Path.parse (joinText (joinText home ".tethys") "worktrees")).absolute = true := by
        rw [Path.parse_joinText, Path.parse_joinText]
        exact Path.absolute_join (Path.absolute_join habsolute)
      obtain ⟨base, hbase, hinitial⟩ := exists_means_of_staysIn hplace hstays
        (by simp [Path.join, hslug]) (by simp [Path.join, hslug])
      refine ⟨.parse (joinText (joinText home ".tethys") "worktrees"), ?_, base, ?_, hinitial⟩
      · simp [worktreesDirs, hdir, hhome]
      · rw [FileSystem.Means, FileSystem.start, if_pos hworktrees] at hbase ⊢
        exact hbase

/-- The path that git gets for a spec that meets the condition means a directory in the workspace
root or in the worktrees directory. -/
theorem worktree_jailed {spec : WorktreeSpec} {branch path base : String}
    (hspec : host.Checked spec) (h : host.gitWorktreeCreate spec = .ok (.add branch path base)) :
    host.InDirs (.parse path) := by
  have hpath := path_of_gitWorktreeCreate h
  unfold Checked at hspec
  split_ifs at hspec hpath
  · obtain ⟨hslug, hspec⟩ := hspec
    obtain ⟨derived, hderived, hpath⟩ := hpath
    have hpath : host.derivedPath spec.slug = .ok path := by
      cases hdir : configuredDir host.config with
      | some dir =>
        simp only [derivedPath, hdir] at hderived ⊢
        obtain rfl := Except.ok.inj hderived
        rwa [givenOr, if_neg (by simp [isBlank_joinText hdir hslug])] at hpath
      | none =>
        simp only [derivedPath, hdir] at hderived ⊢
        rw [givenOr, hderived, ite_self] at hpath
        exact hderived.trans hpath
    refine inDirs_of_derivedPath hslug hpath ?_ ?_
    · intro dir hdir
      rwa [hdir] at hspec
    · intro hdir
      rwa [hdir] at hspec
  · obtain ⟨hallowed, rfl⟩ := hpath
    obtain ⟨htop, hsettled⟩ := hspec
    intro place hplace
    obtain ⟨place', hplace', hdirs⟩ := exists_means_of_allowed hallowed hsettled
    rwa [FileSystem.Leads.unique ((means_fromRoot htop).mp hplace) hplace']

/-- A workspace `/w` that is the top level of its repository, on a disk with nothing else. -/
def plainHost (worktreesDir : Option String) : WorktreeHost where
  fs := {
    nodes := fun place => if place = [] ∨ place = ["w"] then some .dir else none
    root := rfl
    parent := by
      intro place name h
      obtain rfl : place = [] := by
        by_contra hne
        obtain ⟨n, place, rfl⟩ := List.exists_cons_of_ne_nil hne
        simp at h
      rfl }
  links := 40
  cwd := []
  cwd_dir := rfl
  root := "/w"
  toplevel := ["w"]
  config := ⟨worktreesDir, "tethys/\x7bslug\x7d"⟩
  syncHome := "/h"
  homeDir := some "/h"
  repoId := .ok "0123456789abcdef"
  repoId_digits := by
    intro id h
    obtain rfl := Except.ok.inj h
    simp
  checkRefFormat := fun _ => true
  createDirAll := fun _ => true

theorem nodes_plainHost {worktreesDir : Option String} (dest : Path) :
    (plainHost worktreesDir).fs.nodes place ≠ some (.link dest) := by
  simp only [plainHost]
  split_ifs <;> simp

/-- Without links, paths mean what their names say. -/
theorem means_plainHost {worktreesDir : Option String} {cwd : List String} :
    (plainHost worktreesDir).fs.Means cwd path place ↔
      place = follow (FileSystem.start cwd path) path.components :=
  have hlead := FileSystem.leads_follow fun _ => nodes_plainHost
  ⟨fun h => h.unique hlead, fun h => h ▸ hlead⟩

theorem feature_jailed :
    (plainHost none).gitWorktreeCreate ⟨"x", "wt/feature", "b", "main", false⟩ =
      .ok (.add "b" "wt/feature" "main") ∧
    (plainHost none).InDirs (.parse "wt/feature") := by
  have hcreate : (plainHost none).gitWorktreeCreate ⟨"x", "wt/feature", "b", "main", false⟩ =
      .ok (.add "b" "wt/feature" "main") := by decide +kernel
  refine ⟨hcreate, worktree_jailed ?_ hcreate⟩
  have hblank : isBlank "wt/feature" = false := by decide +kernel
  simp only [Checked, hblank, Bool.false_eq_true, if_false]
  refine ⟨.inr (means_plainHost.mpr (by decide +kernel)), [.name "w"], ["wt", "feature"], ["w"], ?_, ?_, ?_⟩
  · decide +kernel
  · decide +kernel
  · intro n hn
    obtain rfl : "wt" = n := by simpa using hn
    rfl

/-- Outside of all directories. -/
theorem not_inDirs_plainHost {worktreesDir : Option String}
    (h : ∀ dir ∈ (plainHost worktreesDir).worktreesDirs,
      ¬ follow (FileSystem.start [] dir) dir.components <+:
        follow (FileSystem.start ["w"] path) path.components) :
    ¬ (plainHost worktreesDir).InDirs path := by
  intro hin
  obtain ⟨dir, hdir, base, hbase, hinitial⟩ := hin _ (means_plainHost.mpr rfl)
  rw [means_plainHost.mp hbase] at hinitial
  exact h dir hdir hinitial

/-- A slug with dots leaves the worktrees directory, and so does a path with dots after a name
that is missing. -/
theorem slug_and_dots_escape :
    ((plainHost (some "/wt")).gitWorktreeCreate ⟨"../out", "", "b", "main", false⟩ =
        .ok (.add "b" "/wt/../out" "main") ∧
      ¬ (plainHost (some "/wt")).InDirs (.parse "/wt/../out")) ∧
    ((plainHost none).gitWorktreeCreate ⟨"x", "/w/new/../../out", "b", "main", false⟩ =
        .ok (.add "b" "/w/new/../../out" "main") ∧
      ¬ (plainHost none).InDirs (.parse "/w/new/../../out")) := by
  refine ⟨⟨by decide +kernel, not_inDirs_plainHost ?_⟩, by decide +kernel, not_inDirs_plainHost ?_⟩
  · decide +kernel
  · decide +kernel

end WorktreeHost

end Tethys.Core
