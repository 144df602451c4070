import Mathlib.Data.List.Lex
import Tethys.Lib.Paths
import Tethys.Lib.Text
import Tethys.Sync.Skills

/-!
# Importing skills

`tethys-sync/src/skill_import.rs` and the file system side of `update_apply`, as programs whose
operations are the calls to `std::fs`. What the file system answers is left open: a program goes
on from every answer. Paths are followed by their names; the skills directory is a place.
-/

namespace Tethys.Sync

open Lib Schema

/-! ## GitHub specs -/

structure GitHubSpec where
  owner : String
  repo : String
  subdir : Option String
  reference : Option String
  deriving DecidableEq

def badSpec (spec : String) : SkillError :=
  .registry ("github spec must be owner/repo[/subdir]@ref, got " ++ spec)

/-- The part of a URL after the host. -/
def parseSegments (spec : String) (path : List Char) : Except SkillError GitHubSpec :=
  let segments := ((path.splitOn '/').filter (· ≠ [])).map String.ofList
  match segments with
  | owner :: repo :: rest =>
    let repo := String.ofList ((stripSuffix ".git".toList repo.toList).getD repo.toList)
    match rest with
    | [] => .ok ⟨owner, repo, none, none⟩
    | "tree" :: reference :: subdir =>
      .ok ⟨owner, repo, if subdir = [] then none else some ("/".intercalate subdir), some reference⟩
    | ["tree"] => .ok ⟨owner, repo, none, none⟩
    | subdir => .ok ⟨owner, repo, some ("/".intercalate subdir), none⟩
  | _ => .error (badSpec spec)

/-- `owner/repo[/subdir][@ref]`, or a URL on GitHub. -/
def parseGithubSpec (spec : String) : Except SkillError GitHubSpec :=
  let trimmed := trim spec.toList
  match (stripPrefix "https://".toList trimmed).or (stripPrefix "http://".toList trimmed) with
  | some rest =>
    let (host, path) := (splitOnce '/' rest).getD (rest, [])
    let host := host.takeWhile (· ≠ ':')
    if host ≠ "github.com".toList ∧ host ≠ "www.github.com".toList then
      .error (.unsupportedSource spec)
    else parseSegments spec path
  | none =>
    if trimmed.tails.any ("://".toList.isPrefixOf ·) then .error (.unsupportedSource spec)
    else
      let (pathPart, reference) := match splitOnce '@' trimmed with
        | some (path, reference) => (path, some (String.ofList reference))
        | none => (trimmed, none)
      let (owner, rest) := (splitOnce '/' pathPart).getD (pathPart, [])
      let (repo, subdir) := match splitOnce '/' rest with
        | some (repo, subdir) => (repo, some (String.ofList subdir))
        | none => (rest, none)
      if owner = [] ∨ repo = [] then .error (badSpec spec)
      else .ok ⟨String.ofList owner, String.ofList repo, subdir, reference⟩

/-! ## Operations -/

/-- An archive as its reader gives it: nothing if it cannot be read, and entries that may be
broken. -/
abbrev Archive (Entry : Type) := Except String (List (Except String Entry))

structure ZipEntry where
  name : String
  isDir : Bool
  unixMode : Option Nat
  size : Nat

inductive TarKind where
  | file | dir | other
  deriving DecidableEq

structure TarEntry where
  kind : TarKind
  path : String
  size : Nat
  /-- what a file holds -/
  file : SkillFile := ⟨[], false⟩

inductive ImportOp (Hash : Type) where
  | nowMs
  | exists (path : Path)
  | isDir (path : Path)
  | isFile (path : Path)
  /-- whether the entry itself is a directory, and not a link to one -/
  | entryIsDir (path : Path)
  | readDir (path : Path)
  | readToString (path : Path)
  | inspect (path : Path)
  | diffDirs (installed upstream : Path)
  | createDirAll (path : Path)
  | createFile (path : Path)
  | copy (source target : Path)
  | rename (source target : Path)
  | removeDirAll (path : Path)
  | unpackIn (entry : TarEntry) (destination : Path)
  | fetch (source : SkillSource)
  | record (info : SkillInfo (List String) Hash)

/-- The files that differ, each with what it held and what it is to hold. -/
abbrev FileChanges := List (List String × Option (List UInt8) × Option (List UInt8))

@[reducible] def ImportOp.Res {Hash : Type} : ImportOp Hash → Type
  | .nowMs => Nat
  | .readDir _ => Option (List String)
  | .readToString _ => Option String
  | .inspect _ => Option (SkillFacts Hash)
  | .diffDirs _ _ => Option FileChanges
  | .fetch _ => Except SkillError (String × Archive TarEntry)
  | .unpackIn _ _ => Except String Unit
  | .exists _ | .isDir _ | .isFile _ | .entryIsDir _ => Bool
  -- whether it went well
  | .createDirAll _ | .createFile _ | .copy _ _ | .rename _ _ | .removeDirAll _ | .record _ => Bool

/-- A program that ends with an error or a value, for an import with the skill it installed. -/
abbrev ImportProgram (Hash : Type) (α : Type := SkillInfo (List String) Hash) :=
  Program (ImportOp Hash) ImportOp.Res (Except SkillError α)

section Programs
variable {Hash α : Type}

/-- End with an error. -/
def fail (e : SkillError) : ImportProgram Hash α := .ret (.error e)

def createDirAll (path : Path) (error : SkillError → ImportProgram Hash α) (next : ImportProgram Hash α) :
    ImportProgram Hash α :=
  .call (.createDirAll path) fun ok => if ok then next else error .io

def rename (source target : Path) (error : SkillError → ImportProgram Hash α)
    (next : ImportProgram Hash α) : ImportProgram Hash α :=
  .call (.rename source target) fun ok => if ok then next else error .io

/-- Remove what may be there, and do not mind if that fails. -/
def removeDirAll (path : Path) (next : ImportProgram Hash α) : ImportProgram Hash α :=
  .call (.removeDirAll path) fun _ => next

/-! ## Staging -/

def stagingName (hint : String) (ms : Nat) : String := ".staging-" ++ hint ++ "-" ++ toString ms

def stageDir (skills : Path) (hint : String) (next : Path → ImportProgram Hash α) : ImportProgram Hash α :=
  createDirAll skills fail <|
  .call .nowMs fun ms =>
  createDirAll (skills.join (.parse (stagingName hint ms))) fail <|
  next (skills.join (.parse (stagingName hint ms)))

/-- The entries of a directory that is copied, in the order in which they are met. -/
inductive SourceDir where
  | nil
  | file (name : String) (rest : SourceDir)
  | dir (name : String) (children : SourceDir) (rest : SourceDir)
  /-- a directory that cannot be read -/
  | unreadable (name : String) (rest : SourceDir)
  /-- a link, a socket, a device -/
  | other (name : String) (rest : SourceDir)

/-- `copy_dir`, by recursion on the source. -/
def copyDir (error : SkillError → ImportProgram Hash α) :
    SourceDir → Path → Path → ImportProgram Hash α → ImportProgram Hash α
  | .nil, _, _, next => next
  | .file name rest, source, destination, next =>
    .call (.copy (source.child name) (destination.child name)) fun ok =>
    if ok then copyDir error rest source destination next else error .io
  | .dir name children rest, source, destination, next =>
    createDirAll (destination.child name) error <|
    copyDir error children (source.child name) (destination.child name) <|
    copyDir error rest source destination next
  | .unreadable name _, _, destination, _ =>
    createDirAll (destination.child name) error (error .io)
  | .other _ rest, source, destination, next => copyDir error rest source destination next

def maxArchiveEntries : Nat := 5000

def maxArchiveBytes : Nat := 100 * 1024 * 1024

/-- The loop of `extract_zip`. `enclosedName` is the check of the archive library on the name of
an entry, which gives the path to write to. -/
def extractZipEntries (enclosedName : String → Option String) (destination : Path)
    (error : SkillError → ImportProgram Hash α) (next : ImportProgram Hash α) :
    Nat → List (Except String ZipEntry) → ImportProgram Hash α
  | _, [] => next
  | _, .error message :: _ => error (.unsafeArchive message)
  | total, .ok entry :: entries =>
    match enclosedName entry.name with
    | none => error (.unsafeArchive ("unsafe path " ++ entry.name))
    | some relative =>
      if entry.isDir then
        createDirAll (destination.join (.parse relative)) error <|
        extractZipEntries enclosedName destination error next total entries
      else if entry.unixMode.any fun mode => mode &&& 0o170000 = 0o120000 then
        error (.unsafeArchive ("symlink " ++ relative))
      else if maxArchiveBytes < (total + entry.size) % 2 ^ 64 then
        error (.unsafeArchive ("extracted size exceeds " ++ toString maxArchiveBytes ++ " bytes"))
      else
        let write : ImportProgram Hash α :=
          .call (.createFile (destination.join (.parse relative))) fun ok =>
          if ok then
            extractZipEntries enclosedName destination error next ((total + entry.size) % 2 ^ 64) entries
          else error .io
        match (destination.join (.parse relative)).parent with
        | some parent => createDirAll parent error write
        | none => write

def extractZip (enclosedName : String → Option String) (archive : Archive ZipEntry) (destination : Path)
    (error : SkillError → ImportProgram Hash α) (next : ImportProgram Hash α) : ImportProgram Hash α :=
  match archive with
  | .error message => error (.unsafeArchive message)
  | .ok entries =>
    if maxArchiveEntries < entries.length then
      error (.unsafeArchive (toString entries.length ++ " entries exceeds the " ++
        toString maxArchiveEntries ++ " cap"))
    else extractZipEntries enclosedName destination error next 0 entries

/-- The loop of `extract_tar`, with the entries and bytes counted so far. -/
def extractTarEntries (destination : Path) (error : SkillError → ImportProgram Hash α)
    (next : ImportProgram Hash α) : Nat → Nat → List (Except String TarEntry) → ImportProgram Hash α
  | _, _, [] => next
  | _, _, .error message :: _ => error (.unsafeArchive message)
  | count, total, .ok entry :: entries =>
    if entry.kind = .other then error (.unsafeArchive "archive contains a link")
    else if (Path.parse entry.path).absolute ∨ .parent ∈ (Path.parse entry.path).components then
      error (.unsafeArchive ("unsafe path " ++ entry.path))
    else if maxArchiveEntries < count + 1 ∨ maxArchiveBytes < (total + entry.size) % 2 ^ 64 then
      error (.unsafeArchive "archive exceeds entry or size cap")
    else
      .call (.unpackIn entry destination) fun
        | .error message => error (.unsafeArchive message)
        | .ok () =>
          extractTarEntries destination error next (count + 1) ((total + entry.size) % 2 ^ 64) entries

def extractTar (archive : Archive TarEntry) (destination : Path)
    (error : SkillError → ImportProgram Hash α) (next : ImportProgram Hash α) : ImportProgram Hash α :=
  match archive with
  | .error message => error (.unsafeArchive message)
  | .ok entries => extractTarEntries destination error next 0 0 entries

/-! ## Wrapper directories -/

def moveAll (source destination : Path) (error : SkillError → ImportProgram Hash α)
    (next : ImportProgram Hash α) : List String → ImportProgram Hash α
  | [] => next
  | name :: names =>
    rename (source.child name) (destination.child name) error <|
    moveAll source destination error next names

def moveContents (source destination : Path) (error : SkillError → ImportProgram Hash α)
    (next : ImportProgram Hash α) : ImportProgram Hash α :=
  .call (.readDir source) fun
    | none => error .io
    | some names => moveAll source destination error next names

/-- The names that are directories, links to directories included. -/
def filterDirs (dir : Path) : List String → List String →
    (List String → ImportProgram Hash α) → ImportProgram Hash α
  | [], dirs, next => next dirs
  | name :: names, dirs, next =>
    .call (.isDir (dir.child name)) fun isDir =>
    filterDirs dir names (if isDir then dirs ++ [name] else dirs) next

def stripWrapper (staging : Path) (subdir : String) (error : SkillError → ImportProgram Hash α)
    (next : ImportProgram Hash α) : ImportProgram Hash α :=
  .call (.readDir staging) fun
    | none => error .io
    | some names =>
      filterDirs staging names [] fun dirs =>
      match dirs.mergeSort (· ≤ ·) with
      | [] => error (.registry "archive has no wrapper directory")
      | wrapper :: _ =>
        let source := (staging.child wrapper).join (.parse subdir)
        .call (.isDir source) fun isDir =>
        if isDir then moveContents source staging error next
        else error (.notFound (subdir ++ " in archive"))

def stripSingleWrapper (staging : Path) (error : SkillError → ImportProgram Hash α)
    (next : ImportProgram Hash α) : ImportProgram Hash α :=
  .call (.readDir staging) fun
    | none => error .io
    | some [wrapper] =>
      .call (.isDir (staging.child wrapper)) fun isDir =>
      if isDir then moveContents (staging.child wrapper) staging error next else next
    | some _ => next

def stageTarball (skills : Path) (archive : Archive TarEntry) (subdir : Option String)
    (next : Path → ImportProgram Hash α) : ImportProgram Hash α :=
  stageDir skills "upstream" fun staging =>
  let cleanUp := fun e => removeDirAll staging (fail e)
  extractTar archive staging cleanUp <|
  match subdir with
  | some subdir => stripWrapper staging subdir cleanUp (next staging)
  | none => stripSingleWrapper staging cleanUp (next staging)

/-! ## Installing -/

/-- The directories in `dir` that hold a `SKILL.md`, and those that `collect` finds in the others. -/
def collectNames (collect : Path → List Path → (List Path → ImportProgram Hash α) → ImportProgram Hash α)
    (dir : Path) : List String → List Path → (List Path → ImportProgram Hash α) → ImportProgram Hash α
  | [], candidates, next => next candidates
  | name :: names, candidates, next =>
    .call (.entryIsDir (dir.child name)) fun isDir =>
    if isDir then
      .call (.isFile ((dir.child name).child "SKILL.md")) fun isSkill =>
      if isSkill then collectNames collect dir names (candidates ++ [dir.child name]) next
      else
        collect (dir.child name) candidates fun candidates =>
        collectNames collect dir names candidates next
    else collectNames collect dir names candidates next

/-- `collect_skill_dirs`, which goes down five levels. -/
def collectSkillDirs (error : SkillError → ImportProgram Hash α) :
    Nat → Path → List Path → (List Path → ImportProgram Hash α) → ImportProgram Hash α
  | 0, _, candidates, next => next candidates
  | levels + 1, dir, candidates, next =>
    .call (.readDir dir) fun
      | none => error .io
      | some names => collectNames (collectSkillDirs error levels) dir names candidates next

def findSkillRoot (staging : Path) (error : SkillError → ImportProgram Hash α)
    (next : Path → ImportProgram Hash α) : ImportProgram Hash α :=
  .call (.isFile (staging.child "SKILL.md")) fun isSkill =>
  if isSkill then next staging
  else
    collectSkillDirs error 5 staging [] fun candidates =>
    match candidates.mergeSort (fun p q => p.place ≤ q.place) with
    | [] => error (.registry "archive does not contain a SKILL.md")
    | root :: _ => next root

/-- The first name in the front matter that is not empty. -/
def frontmatterValue : List (List Char) → Option String
  | [] => none
  | line :: rest =>
    if trim line = "---".toList then none
    else
      match stripPrefix "name:".toList (trim line) with
      | none => frontmatterValue rest
      | some value =>
        -- the quotes " and then the quotes ' around it
        let value := trimMatches (· = Char.ofNat 39) (trimMatches (· = Char.ofNat 34) (trim value))
        if value ≠ [] then some (String.ofList value) else frontmatterValue rest

def frontmatterName (text : String) : Option String :=
  match lines text.toList with
  | first :: rest => if trim first = "---".toList then frontmatterValue rest else none
  | [] => none

def withFileName (path : Path) (name : String) : Path :=
  let dir := if path.fileName.isSome then ⟨path.absolute, path.components.dropLast⟩ else path
  dir.join (.parse name)

/-- `swap_into_place`. What was there is moved aside, and back if the move fails. -/
def swapIntoPlace (destination source : Path) (error : SkillError → ImportProgram Hash α)
    (next : ImportProgram Hash α) : ImportProgram Hash α :=
  let swap : ImportProgram Hash α :=
    .call (.exists destination) fun isThere =>
    if isThere then
      .call .nowMs fun ms =>
      let trash := withFileName destination
        (".trash-" ++ destination.fileName.getD "skill" ++ "-" ++ toString ms)
      rename destination trash error <|
      .call (.rename source destination) fun ok =>
      if ok then removeDirAll trash next
      else .call (.rename trash destination) fun _ => error .io
    else rename source destination error next
  match destination.parent with
  | some parent => createDirAll parent error swap
  | none => swap

variable (home : SkillHome (List String)) (scope : Scope)

/-- Where the skills of a scope are. -/
def skillsPlace : List String := skillsDir home scope ++ [".agents", "skills"]

/-- The path of a skill, whatever its name is. -/
def skillPath (name : String) : Path := (Path.ofPlace (skillsPlace home scope)).join (.parse name)

/-- Look at the installed skill and record it. -/
def recordInstalled (destination : Path) (info : SkillFacts Hash → SkillInfo (List String) Hash) :
    ImportProgram Hash :=
  .call (.inspect destination) fun
    | none => fail .io
    | some facts =>
      .call (.record (info facts)) fun ok =>
      if ok then .ret (.ok (info facts)) else fail .io

/-- `install`, once there is a name for the skill. -/
def installNamed (staging root : Path) (name : String) (source : SkillSource)
    (pinnedSha : Option String) : ImportProgram Hash :=
  match validateName name with
  | .error e => fail e
  | .ok () =>
    swapIntoPlace (skillPath home scope name) root (fun e => removeDirAll staging (fail e)) <|
    removeDirAll staging <|
    recordInstalled (skillPath home scope name) fun facts => {
      name, scope, source, pinnedSha
      path := skillDir home scope name
      enabled := true
      requiresTrust := facts.requiresTrust
      trusted := false
      contentHash := facts.contentHash }

def installStaged (staging : Path) (explicitName : Option String) (source : SkillSource)
    (pinnedSha : Option String) : ImportProgram Hash :=
  findSkillRoot staging fail fun root =>
  match explicitName with
  | some name => installNamed home scope staging root name source pinnedSha
  | none =>
    .call (.readToString (root.child "SKILL.md")) fun text =>
    match (text.bind frontmatterName).or root.fileName with
    | some name => installNamed home scope staging root name source pinnedSha
    | none => fail (.registry "cannot determine skill name")

/-! ## The imports -/

def importFolder (name : Option String) (sourceDir : Path) (url : String)
    (entries : Option SourceDir) : ImportProgram Hash :=
  stageDir (.ofPlace (skillsPlace home scope)) (name.getD "skill") fun staging =>
  match entries with
  | none => fail .io
  | some entries =>
    copyDir fail entries sourceDir staging <|
    installStaged home scope staging name { origin := .folder, url } none

def importZip (enclosedName : String → Option String) (archive : Archive ZipEntry) :
    ImportProgram Hash :=
  stageDir (.ofPlace (skillsPlace home scope)) "skill" fun staging =>
  extractZip enclosedName archive staging (fun e => removeDirAll staging (fail e)) <|
  installStaged home scope staging none { origin := .archive } none

def importTarball (archive : Archive TarEntry) (subdir : Option String) (source : SkillSource)
    (pinnedSha : Option String) : ImportProgram Hash :=
  stageTarball (.ofPlace (skillsPlace home scope)) archive subdir fun staging =>
  installStaged home scope staging none source pinnedSha

def importGithub (spec : String) : ImportProgram Hash :=
  match parseGithubSpec spec with
  | .error e => fail e
  | .ok spec =>
    let source : SkillSource := {
      origin := .gitHub
      repo := some (spec.owner ++ "/" ++ spec.repo)
      reference := spec.reference
      subdir := spec.subdir }
    .call (.fetch source) fun
      | .error e => fail e
      | .ok (sha, archive) => importTarball home scope archive spec.subdir source (some sha)

/-- A skill as it is loaded for an update: only one that was installed under a checked name has
an upstream repository. -/
structure Installed (Hash : Type) where
  info : SkillInfo (List String) Hash
  path : info.path = skillDir home scope info.name
  named : info.source.repo.isSome = true → validateName info.name = .ok ()

/-- `update_apply`, from the loaded skill on. -/
def updateInstalled (loaded : Installed home scope Hash) : ImportProgram Hash :=
  match loaded.info.source.repo with
  | none => fail (.registry "skill has no upstream repository")
  | some _ =>
    .call (.fetch loaded.info.source) fun
      | .error e => fail e
      | .ok (sha, archive) =>
        stageTarball (.ofPlace (skillsPlace home scope)) archive loaded.info.source.subdir
          fun staging =>
        findSkillRoot staging fail fun root =>
        swapIntoPlace (skillPath home scope loaded.info.name) root
          (fun e => removeDirAll staging (fail e)) <|
        removeDirAll staging <|
        recordInstalled (skillPath home scope loaded.info.name) fun facts =>
        { refreshed facts loaded.info with pinnedSha := some sha }

/-- The files that an update would change. -/
structure SkillUpdatePlan where
  name : String
  upstreamSha : String
  changes : FileChanges

/-- `update_plan`, from the loaded skill on. -/
def planInstalled (loaded : Installed home scope Hash) : ImportProgram Hash SkillUpdatePlan :=
  match loaded.info.source.repo with
  | none => fail (.registry "skill has no upstream repository")
  | some _ =>
    .call (.fetch loaded.info.source) fun
      | .error e => fail e
      | .ok (sha, archive) =>
        stageTarball (.ofPlace (skillsPlace home scope)) archive loaded.info.source.subdir
          fun staging =>
        findSkillRoot staging fail fun root =>
        .call (.diffDirs (skillPath home scope loaded.info.name) root) fun result =>
        removeDirAll staging <|
        match result with
        | none => fail .io
        | some changes => .ret (.ok ⟨loaded.info.name, sha, changes⟩)

end Programs

end Tethys.Sync
