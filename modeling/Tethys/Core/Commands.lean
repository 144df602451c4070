import Tethys.Core.Composer
import Tethys.Sync.Review

/-!
# Commands and the skills they may use

`composer/commands.rs` of `tethys-core`: a command is a markdown file, one of the workspace hides
the global one of its name, and its body with the arguments is resolved against the skills that
`skill_candidates` lets through. The skill library works side by side with the calls that change
it, and with files that change at any time; what an expansion refers to was reviewed all the same.
-/

namespace Tethys.Core.Composer

open Lib Schema Sync

/-! ## Discovery -/

inductive CommandScope where
  | global | workspace
  deriving DecidableEq

structure CommandInfo where
  name : String
  scope : CommandScope
  path : String
  deriving DecidableEq

/-- What commands ask of the disk besides: the names in a directory, `none` where one cannot be
read or is no text, and the text of a file. -/
structure CommandFiles extends Files where
  readDir : String → Option (List (Option String))
  readToString : String → Except String (List Char)

inductive ExpandError where
  | notFound (message : String)
  | internal (message : String)
  deriving DecidableEq

section Expand
variable (W : CommandFiles)

def globalCommandsDir (home : String) : String := joinText (joinText home ".tethys") "commands"

def workspaceCommandsDir (workspaceRoot : String) : String :=
  joinText (joinText workspaceRoot ".tethys") "commands"

/-- The stem of a file with the extension `md`. A name that is only the extension has none. -/
def commandName (file : String) : Option String :=
  match stripSuffix ".md".toList file.toList with
  | some stem => if stem = [] then none else some (String.ofList stem)
  | none => none

def discover (dir : String) (scope : CommandScope) : List CommandInfo :=
  match W.readDir dir with
  | none => []
  | some entries => entries.filterMap fun entry => do
    let file ← entry
    let name ← commandName file
    return ⟨name, scope, joinText dir file⟩

/-- The commands under their names. -/
def byName (commands : List CommandInfo) : List (String × CommandInfo) :=
  commands.map fun command => (command.name, command)

/-- The commands by name; a workspace command takes the place of a global one. -/
def listCommands (globalDir : String) (workspaceRoot : Option String) : OrdMap String CommandInfo :=
  let commands := OrdMap.ofList (byName (discover W globalDir .global))
  match workspaceRoot with
  | some root => commands.extend (byName (discover W (workspaceCommandsDir root) .workspace))
  | none => commands

/-! ## Expansion -/

def placeholder : List Char := "\x7b\x7bargs\x7d\x7d".toList

/-- The arguments stand in place of the placeholders; without one they are appended. -/
def applyArgs (body argsText : List Char) : List Char :=
  if placeholder <:+: body then replaceAll placeholder argsText 0 body
  else if trim argsText = [] then body
  else body ++ '\n' :: argsText

/-- Expands one command body. The inner `none` is the panic of a slice that cuts a character. -/
def expandCommand (globalDir : String) (workspaceRoot : Option String)
    (skills : List SkillCandidate) (command : String) (argsText : List Char) :
    Except ExpandError (Option (List Char × List ComposerReference)) :=
  let commands := (listCommands W globalDir workspaceRoot).entries.map Prod.snd
  match commands.find? fun info => info.name = command with
  | none => .error (.notFound ("command not found: " ++ command))
  | some info =>
    match W.readToString info.path with
    | .error error => .error (.internal ("read command " ++ info.path ++ ": " ++ error))
    | .ok body => .ok (resolveTokens W.toFiles (applyArgs body argsText) workspaceRoot skills)

/-! ## What is expanded -/

/-- The last command of a name in a directory. -/
def lastNamed (commands : List CommandInfo) (name : String) : Option CommandInfo :=
  commands.reverse.find? fun info => info.name = name

theorem lookup_byName (commands : List CommandInfo) (name : String) :
    (byName commands).lookup name = commands.find? fun info => info.name = name := by
  induction commands with
  | nil => rfl
  | cons info commands ih =>
    rw [byName, List.map_cons, ← byName, List.lookup_cons, List.find?_cons, ih]
    rcases eq_or_ne name info.name with rfl | hname
    · simp
    · simp [beq_eq_false_iff_ne.mpr hname, hname.symm]

/-- The workspace's command of a name, or else the global one. -/
theorem get_listCommands (globalDir name : String) (workspaceRoot : Option String) :
    (listCommands W globalDir workspaceRoot).get name =
      (workspaceRoot.bind fun root =>
        lastNamed (discover W (workspaceCommandsDir root) .workspace) name).or
        (lastNamed (discover W globalDir .global) name) := by
  have hlast (commands : List CommandInfo) :
      (byName commands).reverse.lookup name = lastNamed commands name := by
    rw [lastNamed, ← lookup_byName, byName, byName, List.map_reverse]
  cases workspaceRoot with
  | none => simp [listCommands, OrdMap.ofList, OrdMap.get_extend, hlast]
  | some root => simp [listCommands, OrdMap.ofList, OrdMap.get_extend, hlast]

/-- Every command stands under its own name. -/
theorem find_commands {l : List (String × CommandInfo)} (hkeys : ∀ e ∈ l, e.1 = e.2.name)
    (name : String) : (l.map Prod.snd).find? (fun info => info.name = name) = l.lookup name := by
  induction l with
  | nil => rfl
  | cons e l ih =>
    obtain ⟨hkey, hrest⟩ := List.forall_mem_cons.mp hkeys
    obtain ⟨key, info⟩ := e
    obtain rfl : key = info.name := hkey
    rw [List.map_cons, List.find?_cons, List.lookup_cons, ih hrest]
    rcases eq_or_ne name info.name with rfl | hname
    · simp
    · simp [beq_eq_false_iff_ne.mpr hname, hname.symm]

theorem name_of_lastNamed {commands : List CommandInfo} {name : String} {info : CommandInfo}
    (h : lastNamed commands name = some info) : info.name = name := by
  rw [lastNamed] at h
  simpa using List.find?_some h

theorem keyed_listCommands (globalDir : String) (workspaceRoot : Option String) :
    ∀ e ∈ (listCommands W globalDir workspaceRoot).entries, e.1 = e.2.name := by
  intro e he
  have hget := OrdMap.get_eq_some.mpr he
  rw [get_listCommands] at hget
  rcases Option.or_eq_some_iff.mp hget with hfound | ⟨-, hfound⟩
  · obtain ⟨root, -, hfound⟩ := Option.bind_eq_some_iff.mp hfound
    exact (name_of_lastNamed hfound).symm
  · exact (name_of_lastNamed hfound).symm

/-- An expansion that succeeds is that of the file which is in force for the name. -/
theorem expandCommand_eq_ok {globalDir : String} {workspaceRoot : Option String}
    {skills : List SkillCandidate} {command : String} {argsText : List Char}
    {result : Option (List Char × List ComposerReference)} :
    expandCommand W globalDir workspaceRoot skills command argsText = .ok result ↔
      ∃ info body, (listCommands W globalDir workspaceRoot).get command = some info ∧
        W.readToString info.path = .ok body ∧
        resolveTokens W.toFiles (applyArgs body argsText) workspaceRoot skills = result := by
  dsimp only [expandCommand]
  rw [find_commands (keyed_listCommands W globalDir workspaceRoot), ← OrdMap.get]
  cases (listCommands W globalDir workspaceRoot).get command with
  | none => simp
  | some info => cases hread : W.readToString info.path <;> simp [hread]

/-- Resolving never cuts a character, and each skill it refers to is a candidate. -/
theorem exists_resolveTokens (text : List Char) (workspaceRoot : Option String)
    (skills : List SkillCandidate) :
    ∃ shown references,
      resolveTokens W.toFiles text workspaceRoot skills = some (shown, references) ∧
        ∀ reference ∈ references, reference.kind = .skill →
          ⟨reference.name, reference.path⟩ ∈ skills := by
  obtain ⟨tokens, -, hscan⟩ := exists_scanTokens text
  obtain ⟨parts, -, hparts, hfold⟩ :=
    exists_foldlM_resolveToken W.toFiles workspaceRoot skills tokens ([], [])
  refine ⟨_, _, by rw [resolveTokens, hscan, Option.bind_some, hfold], ?_⟩
  intro reference hmem hkind
  rw [List.nil_append] at hmem
  obtain ⟨⟨token, shown, references⟩, hpart, hmem⟩ := List.mem_flatMap.mp hmem
  have hresolved := hparts _ hpart
  dsimp only at hresolved hmem
  cases hresolved with
  | text | unknown | unresolved => cases hmem
  | skill hskills hfirst =>
    obtain rfl := List.mem_singleton.mp hmem
    rw [hskills]
    exact List.mem_append_right _ List.mem_cons_self
  | path _ _ hpoints =>
    obtain rfl := List.mem_singleton.mp hmem
    cases hpoints
    cases hkind

end Expand

/-! ## Skills that an expansion may use -/

section Candidates
variable {Root Dir Hash : Type} [DecidableEq Root] [Inhabited Dir] [DecidableEq Hash]
  (inspect : Dir → SkillFacts Hash) (display : Root × String → String)

/-- The trusted, enabled skills of a listing. -/
def skillCandidates (listed : List (SkillReport Root Dir Hash)) : List SkillCandidate :=
  (listed.filter fun report => report.info.enabled && report.info.trusted).map fun report =>
    ⟨report.info.name, display report.info.path⟩

/-- Whatever calls on the skill library run side by side, and however the files change: an expansion
with the skills of a finished listing resolves the file in force for the command with its arguments,
never fails on its text, and refers to a skill of the listing only if that was enabled and a trust call
inspected files with the digest of those that were listed. -/
theorem expansions_use_reviewed_skills (W : CommandFiles) (globalDir : String)
    (workspaceRoot : Option String)
    (as : List (Move (Root → OrdMap String Dir) (SkillCall Root Dir))) :
    Always (skillStep inspect) (fun m => ∀ listed, .ret (.ok listed) ∈ m.threads →
      ∀ command argsText result,
        expandCommand W globalDir workspaceRoot (skillCandidates display listed) command argsText =
          .ok result →
        (∃ info body, W.readToString info.path = .ok body ∧
          ((workspaceRoot.bind fun root =>
            lastNamed (discover W (workspaceCommandsDir root) .workspace) command).or
            (lastNamed (discover W globalDir .global) command)) = some info ∧
          resolveTokens W.toFiles (applyArgs body argsText) workspaceRoot
            (skillCandidates display listed) = result) ∧
        ∃ text references, result = some (text, references) ∧
          ∀ reference ∈ references, reference.kind = .skill →
            ∃ report ∈ listed, report.info.name = reference.name ∧
              display report.info.path = reference.path ∧ report.info.enabled = true ∧
              ∃ files, (skillId report.info.scope report.info.name, files) ∈ m.shared.reviewed ∧
                (inspect files).contentHash = (inspect report.files).contentHash)
      ⟨.empty, []⟩ as := by
  refine (keeps_of_run as).imp ?_
  rintro m ⟨-, hthreads⟩ listed hlisted command argsText result hexpand
  obtain ⟨info, body, hget, hread, rfl⟩ := (expandCommand_eq_ok W).mp hexpand
  refine ⟨⟨info, body, hread, (get_listCommands W _ _ _).symm.trans hget, rfl⟩, ?_⟩
  obtain ⟨text, references, hresolve, hcandidates⟩ :=
    exists_resolveTokens W (applyArgs body argsText) workspaceRoot (skillCandidates display listed)
  refine ⟨text, references, hresolve, fun reference hmem hkind => ?_⟩
  obtain ⟨report, hreport, heq⟩ := List.mem_map.mp (hcandidates reference hmem hkind)
  obtain ⟨hreport, hallowed⟩ := List.mem_filter.mp hreport
  obtain ⟨henabled, htrusted⟩ := Bool.and_eq_true_iff.mp hallowed
  obtain ⟨hname, hpath⟩ := SkillCandidate.mk.inj heq
  have hinfo : InfoOk inspect m.shared report.info report.files := hthreads _ hlisted report hreport
  obtain ⟨files, hfiles, hdigest⟩ := hinfo.reviewed htrusted
  exact ⟨report, hreport, hname, hpath, henabled, files, hfiles, hdigest.trans hinfo.contentHash⟩

end Candidates

end Tethys.Core.Composer
