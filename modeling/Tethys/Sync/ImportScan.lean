import Tethys.Sync.Session
import Mathlib.Data.Finset.Card
import Mathlib.Data.List.Nodup

/-!
# The import scan

`tethys-sync/src/import.rs`: the servers of every tool config are listed for a preview, and those of
one name whose configurations differ are marked. The config of Claude Code for the user keys a project
by the path of its root, and the scan asks for the path as it was given and for its canonical form.
`scan_exact_iff` says which inputs list a server twice.
-/

namespace Tethys.Sync

open Schema Lib

/-! ## The scan -/

/-- What the scan asks of the disk, and `serde_json::from_str`. -/
structure ToolFiles where
  readText : String → Except SyncError (Option String)
  exists? : String → Bool
  canonicalize : String → Option String
  fromStr : String → Except String Node

structure TargetFile where
  path : String
  scope : Scope

/-- One MCP server detected in a foreign config file. -/
structure ImportCandidate where
  name : String
  entry : RegistryEntry
  sourcePath : String
  scope : Scope
  conflict : Bool := false

/-- One source file that could not be scanned. -/
structure ImportFailure where
  sourcePath : String
  message : String

structure ImportScan where
  candidates : List ImportCandidate := []
  failures : List ImportFailure := []

namespace ImportScan

def extend (scan : ImportScan) (entries : OrdMap String RegistryEntry) (sourcePath : String)
    (scope : Scope) : ImportScan :=
  { scan with
    candidates := scan.candidates ++ entries.entries.map fun e => ⟨e.1, e.2, sourcePath, scope, false⟩ }

def fail (scan : ImportScan) (sourcePath message : String) : ImportScan :=
  { scan with failures := scan.failures ++ [⟨sourcePath, message⟩] }

end ImportScan

section Scan
variable (W : ToolFiles) (F : Formats)

/-- The `.json` file, unless only the `.jsonc` file exists. -/
def pickConfig (dir defaultName : String) : String :=
  let json := joinText dir defaultName
  let jsonc := joinText dir (defaultName ++ "c")
  if W.exists? json then json else if W.exists? jsonc then jsonc else json

def globalDir (home : String) : String := joinText (joinText home ".config") "opencode"

/-- `Projector::detect`, for each of the projectors. -/
def detect (root home : String) : ProjectionTarget → List TargetFile
  | .claudeCode => [⟨joinText root ".mcp.json", .workspace⟩]
  | .codex => [⟨joinText (joinText home ".codex") "config.toml", .global⟩]
  | .openCode =>
    [⟨pickConfig W root "opencode.json", .workspace⟩,
     ⟨pickConfig W (globalDir home) "opencode.json", .global⟩]

def scanFile (projector : Projector) (scan : ImportScan) (targets : List TargetFile) : ImportScan :=
  targets.foldl (fun scan target =>
    match W.readText target.path with
    | .ok (some text) =>
      match projector.readEntries text with
      | .ok entries => scan.extend entries target.path target.scope
      | .error error => scan.fail target.path error.display
    | .ok none => scan
    | .error error => scan.fail target.path error.display) scan

/-- `Value::get` with a name. -/
def valueGet (value : Node) (name : String) : Option Node := value.asObject.bind (field · name)

/-- The servers of an object of `serde_json`. -/
def entriesFromMap (map : Members) : OrdMap String RegistryEntry :=
  .ofList (entriesFromObject ClaudeCode.entryFromValue (OrdMap.ofList map).entries)

/-- The object under `mcpServers`. -/
def mcpServers (value : Node) : Option Members := (valueGet value "mcpServers").bind Node.asObject

/-- The root as it was given, and its canonical form where there is one. -/
def rootKeys (root : String) : List String := [root, (W.canonicalize root).getD root]

def userConfig (home : String) : String := joinText home ".claude.json"

def projectSource (home key : String) : String := userConfig home ++ "#projects[" ++ key ++ "]"

/-- The servers of this project's keys. -/
def scanProjects (home root : String) (projects : Members) (scan : ImportScan) : ImportScan :=
  (rootKeys W root).foldl (fun scan key =>
    match (field projects key).bind mcpServers with
    | some servers => scan.extend (entriesFromMap servers) (projectSource home key) .workspace
    | none => scan) scan

/-- The top-level servers of a user's config, and this project's nested set. -/
def scanUserDocument (home root : String) (document : Node) (scan : ImportScan) : ImportScan :=
  let scan := match mcpServers document with
    | some servers => scan.extend (entriesFromMap servers) (userConfig home) .global
    | none => scan
  match (valueGet document "projects").bind Node.asObject with
  | some projects => scanProjects W home root projects scan
  | none => scan

/-- Reads `~/.claude.json`. -/
def scanClaudeUserConfig (home root : String) (scan : ImportScan) : ImportScan :=
  match W.readText (userConfig home) with
  | .ok none => scan
  | .error error => scan.fail (userConfig home) error.display
  | .ok (some text) =>
    match W.fromStr text with
    | .error message => scan.fail (userConfig home) message
    | .ok document => scanUserDocument W home root document scan

/-- The serialized form of an entry, as what is read back from it. -/
def serialized (entry : RegistryEntry) : RegistryEntry := migrated entry

def addDigest (digests : OrdMap String (Finset RegistryEntry)) (candidate : ImportCandidate) :
    OrdMap String (Finset RegistryEntry) :=
  digests.insert candidate.name
    (insert (serialized candidate.entry) ((digests.get candidate.name).getD ∅))

/-- The serialized entries of each name. -/
def digests (candidates : List ImportCandidate) : OrdMap String (Finset RegistryEntry) :=
  candidates.foldl addDigest .empty

/-- Flags same-name candidates whose configs differ. -/
def markConflicts (candidates : List ImportCandidate) : List ImportCandidate :=
  candidates.map fun candidate =>
    { candidate with
      conflict := ((digests candidates).get candidate.name).any fun set => 1 < set.card }

/-- Reads every detected tool config. -/
def scan (root home : String) : ImportScan :=
  let scan := scanFile W (claudeCode F) {} (detect W root home .claudeCode)
  let scan := scanFile W (codex F) scan (detect W root home .codex)
  let scan := scanFile W (openCode F) scan (detect W root home .openCode)
  let scan := scanClaudeUserConfig W home root scan
  { scan with candidates := markConflicts scan.candidates }

end Scan

/-! ## The sources -/

/-- One set of servers that the scan lists. -/
structure Source where
  path : String
  scope : Scope
  servers : OrdMap String RegistryEntry

namespace Source

def candidates (source : Source) : List ImportCandidate :=
  source.servers.entries.map fun e => ⟨e.1, e.2, source.path, source.scope, false⟩

/-- What a server is told apart by: its name and its source. -/
def servedNames (source : Source) : List (String × String) :=
  source.servers.entries.map fun e => (e.1, source.path)

end Source

section Sources
variable (W : ToolFiles) (F : Formats) (projector : Projector) (root home : String)

/-- The servers of a config file; a file that is missing or rejected has none. -/
def entriesAt (path : String) : OrdMap String RegistryEntry :=
  match W.readText path with
  | .ok (some text) => (projector.readEntries text).toOption.getD .empty
  | _ => .empty

/-- The config of Claude Code for the user, when it can be read. -/
def userDocument : Option Node :=
  match W.readText (userConfig home) with
  | .ok (some text) => (W.fromStr text).toOption
  | _ => none

def serversIn (map : Option Members) : OrdMap String RegistryEntry := map.elim .empty entriesFromMap

def projects : Option Members := (userDocument W home).bind fun document =>
  (valueGet document "projects").bind Node.asObject

/-- The servers that the user's config keeps under a project. -/
def projectServers (key : String) : OrdMap String RegistryEntry :=
  serversIn ((projects W home).bind fun projects => (field projects key).bind mcpServers)

def fileSource (target : TargetFile) : Source :=
  ⟨target.path, target.scope, entriesAt W projector target.path⟩

/-- The servers of the user's config: the top-level ones, then those under this project's keys. -/
def userSources : List Source :=
  ⟨userConfig home, .global, serversIn ((userDocument W home).bind mcpServers)⟩ ::
    (rootKeys W root).map fun key =>
      ⟨projectSource home key, .workspace, projectServers W home key⟩

/-- The sources in the order of the scan. -/
def sources : List Source :=
  (detect W root home .claudeCode).map (fileSource W (claudeCode F)) ++
  (detect W root home .codex).map (fileSource W (codex F)) ++
  (detect W root home .openCode).map (fileSource W (openCode F)) ++ userSources W root home

variable {W F projector root home} {scan₀ : ImportScan}

theorem candidates_scanFile (targets : List TargetFile) :
    (scanFile W projector scan₀ targets).candidates =
      scan₀.candidates ++ (targets.map (fileSource W projector)).flatMap Source.candidates := by
  induction targets generalizing scan₀ with
  | nil => simp [scanFile]
  | cons target targets ih =>
    have hstep : (scanFile W projector scan₀ [target]).candidates =
        scan₀.candidates ++ (fileSource W projector target).candidates := by
      simp only [scanFile, List.foldl_cons, List.foldl_nil, fileSource, Source.candidates, entriesAt]
      cases W.readText target.path with
      | error error => exact (List.append_nil _).symm
      | ok text =>
        cases text with
        | none => exact (List.append_nil _).symm
        | some text =>
          dsimp only
          cases projector.readEntries text with
          | error error => exact (List.append_nil _).symm
          | ok entries => rfl
    have hcons : scanFile W projector scan₀ (target :: targets) =
        scanFile W projector (scanFile W projector scan₀ [target]) targets := rfl
    rw [hcons, ih, hstep, List.map_cons, List.flatMap_cons, List.append_assoc]

@[simp] theorem candidates_none (path : String) (scope : Scope) :
    Source.candidates ⟨path, scope, serversIn none⟩ = [] := rfl

theorem candidates_scanProjects (members : Members) (keys : List String) :
    (keys.foldl (fun scan key =>
      match (field members key).bind mcpServers with
      | some servers => ImportScan.extend scan (entriesFromMap servers) (projectSource home key) .workspace
      | none => scan) scan₀).candidates =
      scan₀.candidates ++ keys.flatMap fun key => Source.candidates ⟨projectSource home key, .workspace,
        serversIn ((field members key).bind mcpServers)⟩ := by
  induction keys generalizing scan₀ with
  | nil => simp
  | cons key keys ih =>
    rw [List.foldl_cons, ih, List.flatMap_cons, ← List.append_assoc]
    congr 1
    cases (field members key).bind mcpServers with
    | none => exact (List.append_nil _).symm
    | some servers => rfl

theorem candidates_scanUserDocument {document : Node} (h : userDocument W home = some document) :
    (scanUserDocument W home root document scan₀).candidates = scan₀.candidates ++
      (userSources W root home).flatMap Source.candidates := by
  have hprojects : projects W home = (valueGet document "projects").bind Node.asObject := by
    rw [projects, h, Option.bind_some]
  have htop : (match mcpServers document with
      | some servers => scan₀.extend (entriesFromMap servers) (userConfig home) .global
      | none => scan₀).candidates = scan₀.candidates ++
        Source.candidates ⟨userConfig home, .global, serversIn (mcpServers document)⟩ := by
    cases mcpServers document with
    | none => exact (List.append_nil _).symm
    | some servers => rfl
  rw [scanUserDocument, userSources, List.flatMap_cons, h, Option.bind_some, ← List.append_assoc,
    ← htop, List.flatMap_map]
  simp only [projectServers, hprojects]
  cases (valueGet document "projects").bind Node.asObject with
  | none => simp
  | some members => exact candidates_scanProjects members (rootKeys W root)

theorem candidates_scanClaudeUserConfig :
    (scanClaudeUserConfig W home root scan₀).candidates = scan₀.candidates ++
      (userSources W root home).flatMap Source.candidates := by
  have hnone (h : userDocument W home = none) : (userSources W root home).flatMap Source.candidates = [] := by
    simp [userSources, projectServers, projects, h]
  unfold scanClaudeUserConfig
  cases htext : W.readText (userConfig home) with
  | error error => rw [hnone (by rw [userDocument, htext]), List.append_nil]; rfl
  | ok text =>
    cases text with
    | none => rw [hnone (by rw [userDocument, htext]), List.append_nil]
    | some text =>
      have huser : userDocument W home = (W.fromStr text).toOption := by rw [userDocument, htext]
      dsimp only
      cases hdocument : W.fromStr text with
      | error message => rw [hnone (by rw [huser, hdocument]; rfl), List.append_nil]; rfl
      | ok document => exact candidates_scanUserDocument (by rw [huser, hdocument]; rfl)

theorem candidates_scan : (scan W F root home).candidates =
    markConflicts ((sources W F root home).flatMap Source.candidates) := by
  simp only [scan, sources, candidates_scanClaudeUserConfig, candidates_scanFile, List.flatMap_append,
    List.nil_append]

end Sources

/-! ## Servers listed once -/

theorem suffix_joinText (dir name : String) (h : name.toList.head? ≠ some '/') :
    name.toList <:+ (joinText dir name).toList := by
  rw [joinText, if_neg h]
  split_ifs
  · rw [String.toList_append]
    exact List.suffix_append _ _
  · rw [String.toList_append]
    exact List.suffix_append _ _

/-- The project sources are told apart by their keys. -/
theorem projectSource_inj {home key key' : String} :
    projectSource home key = projectSource home key' ↔ key = key' := by
  simp [projectSource, String.append_assoc]

section Once
variable {W : ToolFiles} {F : Formats} {root home : String} {s t : Source}

theorem nodup_servedNames (s : Source) : s.servedNames.Nodup :=
  List.pairwise_map.mpr <| s.servers.sorted.imp fun hlt heq => hlt.ne (Prod.mk.inj heq).1

theorem disjoint_of_ne (h : s.path ≠ t.path) : s.servedNames.Disjoint t.servedNames := by
  intro server hs ht
  obtain ⟨e, -, rfl⟩ := List.mem_map.mp hs
  obtain ⟨e', -, heq⟩ := List.mem_map.mp ht
  exact h (congrArg Prod.snd heq).symm

/-- Two sources with one path are the same set of servers, listed twice. -/
theorem disjoint_iff_of_eq (hservers : s.path = t.path → s.servers = t.servers) :
    s.servedNames.Disjoint t.servedNames ↔ (s.path = t.path → s.servers.entries = []) := by
  by_cases hpath : s.path = t.path
  · have hsame : s.servedNames = t.servedNames := by
      rw [Source.servedNames, Source.servedNames, hpath, hservers hpath]
    have hnil : s.servedNames = [] ↔ s.servers.entries = [] := List.map_eq_nil_iff
    refine ⟨fun h _ => ?_, fun h => ?_⟩
    · rw [← hsame] at h
      exact hnil.mp (List.eq_nil_iff_forall_not_mem.mpr fun server hs => h hs hs)
    · rw [hnil.mpr (h hpath)]
      exact List.disjoint_nil_left _
  · exact ⟨fun _ heq => absurd heq hpath, fun _ => disjoint_of_ne hpath⟩

/-- Neither of the two texts ends the other. -/
def Unlike (a b : String) : Prop := ¬ a.toList <:+ b.toList ∧ ¬ b.toList <:+ a.toList

instance (a b : String) : Decidable (Unlike a b) := inferInstanceAs (Decidable (_ ∧ _))

theorem disjoint_of_unlike {a b : String} (ha : a.toList <:+ s.path.toList)
    (hb : b.toList <:+ t.path.toList) (h : Unlike a b) : s.servedNames.Disjoint t.servedNames := by
  refine disjoint_of_ne fun hpath => ?_
  rw [hpath] at ha
  exact (List.suffix_or_suffix_of_suffix ha hb).elim h.1 h.2

theorem pickConfig_suffix (dir : String) :
    "opencode.json".toList <:+ (pickConfig W dir "opencode.json").toList ∨
      "opencode.jsonc".toList <:+ (pickConfig W dir "opencode.json").toList := by
  have hjson := suffix_joinText dir "opencode.json" (by decide)
  have hjsonc := suffix_joinText dir "opencode.jsonc" (by decide)
  unfold pickConfig
  dsimp only
  split_ifs
  · exact .inl hjson
  · exact .inr hjsonc
  · exact .inl hjson

/-- A config of OpenCode is none of the other sources. -/
theorem disjoint_openCode {dir b : String} (hs : s.path = pickConfig W dir "opencode.json")
    (hb : b.toList <:+ t.path.toList)
    (h : b ∈ [".mcp.json", "config.toml", ".claude.json", "]"]) :
    s.servedNames.Disjoint t.servedNames := by
  have hjson : ∀ b ∈ [".mcp.json", "config.toml", ".claude.json", "]"], Unlike "opencode.json" b := by
    decide
  have hjsonc : ∀ b ∈ [".mcp.json", "config.toml", ".claude.json", "]"], Unlike "opencode.jsonc" b := by
    decide
  rcases pickConfig_suffix (W := W) dir with ha | ha <;> rw [← hs] at ha
  · exact disjoint_of_unlike ha hb (hjson b h)
  · exact disjoint_of_unlike ha hb (hjsonc b h)

variable (W F root home) in
/-- No source is listed under two spellings that are one text: the keys of the project, and the two
configs of OpenCode. -/
structure Apart : Prop where
  keys : (W.canonicalize root).getD root = root → (projectServers W home root).entries = []
  openCode : pickConfig W root "opencode.json" = pickConfig W (globalDir home) "opencode.json" →
    (entriesAt W (openCode F) (pickConfig W root "opencode.json")).entries = []

/-- Of the sources in the order of the scan only the two of OpenCode and the two of the project can be
one. -/
theorem pairwise_disjoint (W : ToolFiles) (root globalDir : String)
    {claude codex workspace global user given canonical : Source}
    (hclaude : ".mcp.json".toList <:+ claude.path.toList)
    (hcodex : "config.toml".toList <:+ codex.path.toList)
    (hworkspace : workspace.path = pickConfig W root "opencode.json")
    (hglobal : global.path = pickConfig W globalDir "opencode.json")
    (huser : ".claude.json".toList <:+ user.path.toList)
    (hgiven : "]".toList <:+ given.path.toList) (hcanonical : "]".toList <:+ canonical.path.toList) :
    [claude, codex, workspace, global, user, given, canonical].Pairwise
        (fun s t => s.servedNames.Disjoint t.servedNames) ↔
      workspace.servedNames.Disjoint global.servedNames ∧
        given.servedNames.Disjoint canonical.servedNames := by
  simp only [List.pairwise_cons, List.forall_mem_cons, List.Pairwise.nil, List.not_mem_nil,
    false_implies, implies_true, and_true]
  refine ⟨fun ⟨_, _, hopen, _, _, hkeys⟩ => ⟨hopen.1, hkeys⟩, fun ⟨hopen, hkeys⟩ => ?_⟩
  refine ⟨⟨?_, ?_, ?_, ?_, ?_, ?_⟩, ⟨?_, ?_, ?_, ?_, ?_⟩, ⟨hopen, ?_, ?_, ?_⟩, ⟨?_, ?_, ?_⟩,
    ⟨?_, ?_⟩, hkeys⟩
  · exact disjoint_of_unlike hclaude hcodex (by decide)
  · exact (disjoint_openCode hworkspace hclaude (by decide)).symm
  · exact (disjoint_openCode hglobal hclaude (by decide)).symm
  · exact disjoint_of_unlike hclaude huser (by decide)
  · exact disjoint_of_unlike hclaude hgiven (by decide)
  · exact disjoint_of_unlike hclaude hcanonical (by decide)
  · exact (disjoint_openCode hworkspace hcodex (by decide)).symm
  · exact (disjoint_openCode hglobal hcodex (by decide)).symm
  · exact disjoint_of_unlike hcodex huser (by decide)
  · exact disjoint_of_unlike hcodex hgiven (by decide)
  · exact disjoint_of_unlike hcodex hcanonical (by decide)
  · exact disjoint_openCode hworkspace huser (by decide)
  · exact disjoint_openCode hworkspace hgiven (by decide)
  · exact disjoint_openCode hworkspace hcanonical (by decide)
  · exact disjoint_openCode hglobal huser (by decide)
  · exact disjoint_openCode hglobal hgiven (by decide)
  · exact disjoint_openCode hglobal hcanonical (by decide)
  · exact disjoint_of_unlike huser hgiven (by decide)
  · exact disjoint_of_unlike huser hcanonical (by decide)

theorem sources_eq : sources W F root home =
    [fileSource W (claudeCode F) ⟨joinText root ".mcp.json", .workspace⟩,
      fileSource W (codex F) ⟨joinText (joinText home ".codex") "config.toml", .global⟩,
      fileSource W (openCode F) ⟨pickConfig W root "opencode.json", .workspace⟩,
      fileSource W (openCode F) ⟨pickConfig W (globalDir home) "opencode.json", .global⟩,
      ⟨userConfig home, .global, serversIn ((userDocument W home).bind mcpServers)⟩,
      ⟨projectSource home root, .workspace, projectServers W home root⟩,
      ⟨projectSource home ((W.canonicalize root).getD root), .workspace,
        projectServers W home ((W.canonicalize root).getD root)⟩] := rfl

theorem pairwise_sources :
    (sources W F root home).Pairwise (fun s t => s.servedNames.Disjoint t.servedNames) ↔
      Apart W F root home := by
  have hproject (key : String) : "]".toList <:+ (projectSource home key).toList := by
    rw [projectSource, String.toList_append]
    exact List.suffix_append _ _
  rw [sources_eq, pairwise_disjoint W root (globalDir home)]
  · rw [disjoint_iff_of_eq, disjoint_iff_of_eq]
    · exact ⟨fun ⟨hopen, hkeys⟩ => ⟨fun heq => hkeys (projectSource_inj.mpr heq.symm), hopen⟩,
        fun h => ⟨h.openCode, fun heq => h.keys (projectSource_inj.mp heq).symm⟩⟩
    · exact fun hpath => congrArg (projectServers W home) (projectSource_inj.mp hpath)
    · exact fun hpath => congrArg (entriesAt W (openCode F)) hpath
  · exact suffix_joinText _ _ (by decide)
  · exact suffix_joinText _ _ (by decide)
  · rfl
  · rfl
  · exact suffix_joinText _ _ (by decide)
  · exact hproject _
  · exact hproject _

end Once

/-! ## Conflicts -/

section Conflicts
variable {candidates : List ImportCandidate} {name : String} {entry : RegistryEntry}

/-- The digest tells two entries apart just when their texts do. -/
theorem serialized_eq_iff {a b : RegistryEntry} :
    serialized a = serialized b ↔ encodeEntry a = encodeEntry b := by
  have hencode (entry : RegistryEntry) : encodeEntry (serialized entry) = encodeEntry entry := rfl
  refine ⟨fun h => ?_, fun h => ?_⟩
  · rw [← hencode a, h, hencode]
  · have hdecode := congrArg decodeEntry h
    rw [decodeEntry_encode, decodeEntry_encode] at hdecode
    exact Option.some.inj hdecode

theorem mem_digests : entry ∈ ((digests candidates).get name).getD ∅ ↔
    ∃ c ∈ candidates, c.name = name ∧ serialized c.entry = entry := by
  suffices h : ∀ seen : OrdMap String (Finset RegistryEntry),
      entry ∈ ((candidates.foldl addDigest seen).get name).getD ∅ ↔
        entry ∈ (seen.get name).getD ∅ ∨
          ∃ c ∈ candidates, c.name = name ∧ serialized c.entry = entry by
    refine (h .empty).trans ?_
    simp
  induction candidates with
  | nil => simp
  | cons c candidates ih =>
    intro seen
    rw [List.foldl_cons, ih, addDigest, OrdMap.get_insert]
    split_ifs with hname
    · subst hname
      simp only [Option.getD_some, Finset.mem_insert, List.exists_mem_cons_iff, true_and]
      grind
    · simp only [List.exists_mem_cons_iff]
      grind

/-- The digest set of a name has a second element when some candidate of the name differs. -/
theorem card_digests {c : ImportCandidate} (hc : c ∈ candidates) :
    (((digests candidates).get c.name).any fun set => 1 < set.card) = true ↔
      ∃ d ∈ candidates, d.name = c.name ∧ serialized d.entry ≠ serialized c.entry := by
  have hcard : (((digests candidates).get c.name).any fun set => 1 < set.card) = true ↔
      1 < (((digests candidates).get c.name).getD ∅).card := by
    cases (digests candidates).get c.name <;> simp
  rw [hcard, Finset.one_lt_card]
  refine ⟨fun ⟨a, ha, b, hb, hne⟩ => ?_, fun ⟨d, hd, hname, hne⟩ => ?_⟩
  · obtain ⟨d, hd, hname, rfl⟩ := mem_digests.mp ha
    obtain ⟨d', hd', hname', rfl⟩ := mem_digests.mp hb
    by_cases hdiffer : serialized d.entry = serialized c.entry
    · exact ⟨d', hd', hname', fun h => hne (hdiffer.trans h.symm)⟩
    · exact ⟨d, hd, hname, hdiffer⟩
  · exact ⟨_, mem_digests.mpr ⟨d, hd, hname, rfl⟩, _, mem_digests.mpr ⟨c, hc, rfl, rfl⟩, hne⟩

end Conflicts

/-! ### The readers write no `targets` -/

section Targets
variable {F : Formats} {W : ToolFiles} {root home : String}

def NoTargets (servers : OrdMap String RegistryEntry) : Prop :=
  ∀ e ∈ servers.entries, e.2.entryMeta.targets = none

theorem noTargets_empty : NoTargets .empty := fun _ he => absurd he List.not_mem_nil

theorem noTargets_ofList {l : List (String × RegistryEntry)}
    (h : ∀ e ∈ l, e.2.entryMeta.targets = none) : NoTargets (.ofList l) :=
  fun e he => h e (OrdMap.mem_of_get_ofList (OrdMap.get_eq_some.mpr he))

theorem targets_of_mem_entriesFromObject {entryFromValue : Node → Option RegistryEntry}
    (hvalue : ∀ value entry, entryFromValue value = some entry → entry.entryMeta.targets = none)
    {members : Members} {e : String × RegistryEntry} (he : e ∈ entriesFromObject entryFromValue members) :
    e.2.entryMeta.targets = none := by
  obtain ⟨member, -, hmember⟩ := List.mem_filterMap.mp he
  obtain ⟨entry, hentry, rfl⟩ := Option.map_eq_some_iff.mp hmember
  exact hvalue _ _ hentry

theorem ClaudeCode.targets_entryFromValue (value : Node) (entry : RegistryEntry)
    (h : ClaudeCode.entryFromValue value = some entry) : entry.entryMeta.targets = none := by
  cases value with
  | object map => cases h; rfl
  | scalar | string | array | table => cases h

theorem OpenCode.targets_entryFromValue (value : Node) (entry : RegistryEntry)
    (h : OpenCode.entryFromValue value = some entry) : entry.entryMeta.targets = none := by
  cases value with
  | object map => cases h; rfl
  | scalar | string | array | table => cases h

theorem noTargets_serversIn (map : Option Members) : NoTargets (serversIn map) := by
  cases map with
  | none => exact noTargets_empty
  | some map =>
    exact noTargets_ofList fun _ => targets_of_mem_entriesFromObject ClaudeCode.targets_entryFromValue

/-- What the three projectors read. -/
def ReadsNoTargets (projector : Projector) : Prop :=
  ∀ text servers, projector.readEntries text = .ok servers → NoTargets servers

theorem readsNoTargets_claudeCode : ReadsNoTargets (claudeCode F) := by
  intro text servers h
  simp only [claudeCode, ClaudeCode.readEntries] at h
  split_ifs at h
  · cases h
    exact noTargets_empty
  · cases hparse : JsonCst.parse F text false with
    | error error => rw [hparse] at h; cases h
    | ok root =>
      rw [hparse] at h
      dsimp only [bind, Except.bind] at h
      split at h
      · cases h
        exact noTargets_ofList fun _ => targets_of_mem_entriesFromObject ClaudeCode.targets_entryFromValue
      · cases h
        exact noTargets_empty

/-- The flat entries are inserted after the nested ones. -/
theorem OpenCode.targets_of_mem {mcp : Members} {e : String × RegistryEntry}
    (he : e ∈ entriesFromObject OpenCode.entryFromValue ((JsonCst.object mcp "servers").getD []) ++
      OpenCode.legacyEntries mcp) : e.2.entryMeta.targets = none := by
  rcases List.mem_append.mp he with he | he
  · exact targets_of_mem_entriesFromObject OpenCode.targets_entryFromValue he
  · obtain ⟨flat, hflat, rfl⟩ := List.mem_map.mp he
    have htargets := targets_of_mem_entriesFromObject OpenCode.targets_entryFromValue hflat
    exact htargets

theorem readsNoTargets_openCode : ReadsNoTargets (openCode F) := by
  intro text servers h
  simp only [openCode, OpenCode.readEntries] at h
  split_ifs at h
  · cases h
    exact noTargets_empty
  · cases hparse : JsonCst.parse F text true with
    | error error => rw [hparse] at h; cases h
    | ok root =>
      rw [hparse] at h
      dsimp only [bind, Except.bind] at h
      split at h
      · next mcp _ =>
        cases h
        rw [OrdMap.ofList, OrdMap.extend, OrdMap.extend, ← List.foldl_append]
        exact noTargets_ofList fun _ => OpenCode.targets_of_mem
      · cases h
        exact noTargets_empty

theorem readsNoTargets_codex : ReadsNoTargets (codex F) := by
  intro text servers h
  simp only [codex, Codex.readEntries] at h
  split_ifs at h
  · cases h
    exact noTargets_empty
  · cases hparse : Toml.parse F text with
    | error error => rw [hparse] at h; cases h
    | ok doc =>
      rw [hparse] at h
      dsimp only [bind, Except.bind] at h
      split at h
      · cases h
        refine noTargets_ofList fun e he => ?_
        obtain ⟨member, -, hmember⟩ := List.mem_filterMap.mp he
        obtain ⟨table, -, rfl⟩ := Option.map_eq_some_iff.mp hmember
        rfl
      · cases h
        exact noTargets_empty

theorem noTargets_entriesAt {projector : Projector} (h : ReadsNoTargets projector) (path : String) :
    NoTargets (entriesAt W projector path) := by
  unfold entriesAt
  split
  · next text _ =>
    cases hread : projector.readEntries text with
    | error error => exact noTargets_empty
    | ok servers => exact h text servers hread
  · exact noTargets_empty

theorem noTargets_sources {s : Source} (hs : s ∈ sources W F root home) : NoTargets s.servers := by
  rw [sources_eq] at hs
  simp only [List.mem_cons, List.not_mem_nil, or_false] at hs
  rcases hs with rfl | rfl | rfl | rfl | rfl | rfl | rfl
  · exact noTargets_entriesAt readsNoTargets_claudeCode _
  · exact noTargets_entriesAt readsNoTargets_codex _
  · exact noTargets_entriesAt readsNoTargets_openCode _
  · exact noTargets_entriesAt readsNoTargets_openCode _
  · exact noTargets_serversIn _
  · exact noTargets_serversIn _
  · exact noTargets_serversIn _

/-- The serialized form of a listed entry is the entry. -/
theorem serialized_candidate {c : ImportCandidate}
    (hc : c ∈ (sources W F root home).flatMap Source.candidates) : serialized c.entry = c.entry := by
  obtain ⟨s, hs, hc⟩ := List.mem_flatMap.mp hc
  obtain ⟨e, he, rfl⟩ := List.mem_map.mp hc
  have htargets : e.2.entryMeta.targets = none := noTargets_sources hs e he
  simp only [serialized, migrated, ← htargets]

end Targets

/-! ## The scan is exact -/

/-- Each server of each source is listed once, and the conflicts are the candidates whose name is
listed with another configuration. -/
structure ImportScan.Exact (scan : ImportScan) : Prop where
  once : (scan.candidates.map fun c => (c.name, c.sourcePath)).Nodup
  conflict : ∀ c ∈ scan.candidates, c.conflict = true ↔
    ∃ d ∈ scan.candidates, d.name = c.name ∧ d.entry ≠ c.entry

section Exact
variable (W : ToolFiles) (F : Formats) (root home : String)

theorem mem_markConflicts {candidates : List ImportCandidate} {c : ImportCandidate} :
    c ∈ markConflicts candidates ↔ ∃ d ∈ candidates,
      { d with conflict := ((digests candidates).get d.name).any fun set => 1 < set.card } = c :=
  List.mem_map

theorem markConflicts_once (candidates : List ImportCandidate) :
    (markConflicts candidates).map (fun c => (c.name, c.sourcePath)) =
      candidates.map fun c => (c.name, c.sourcePath) := by
  rw [markConflicts, List.map_map]
  rfl

theorem once_iff : ((scan W F root home).candidates.map fun c => (c.name, c.sourcePath)).Nodup ↔
    Apart W F root home := by
  have hnames : (fun s : Source => s.candidates.map fun c => (c.name, c.sourcePath)) =
      Source.servedNames := by
    funext s
    rw [Source.candidates, List.map_map]
    rfl
  rw [candidates_scan, markConflicts_once, List.map_flatMap, hnames, List.nodup_flatMap,
    ← pairwise_sources]
  exact and_iff_right fun s _ => nodup_servedNames s

theorem conflict_scan : ∀ c ∈ (scan W F root home).candidates, c.conflict = true ↔
    ∃ d ∈ (scan W F root home).candidates, d.name = c.name ∧ d.entry ≠ c.entry := by
  rw [candidates_scan]
  intro c hc
  obtain ⟨c, hlisted, rfl⟩ := mem_markConflicts.mp hc
  refine (card_digests hlisted).trans ?_
  constructor
  · rintro ⟨d, hd, hname, hne⟩
    rw [serialized_candidate hd, serialized_candidate hlisted] at hne
    exact ⟨_, mem_markConflicts.mpr ⟨d, hd, rfl⟩, hname, hne⟩
  · rintro ⟨_, hmarked, hname, hne⟩
    obtain ⟨d, hd, rfl⟩ := mem_markConflicts.mp hmarked
    refine ⟨d, hd, hname, ?_⟩
    rwa [serialized_candidate hd, serialized_candidate hlisted]

/-- The scan is exact just when no source is asked for twice. -/
theorem scan_exact_iff : (scan W F root home).Exact ↔ Apart W F root home :=
  ⟨fun h => (once_iff W F root home).mp h.once,
    fun h => ⟨(once_iff W F root home).mpr h, conflict_scan W F root home⟩⟩

end Exact

/-! ### A canonical root -/

/-- The user's config has one server for the project `/ws`. -/
def oneProject : ToolFiles where
  readText path := .ok (if path = "/home/me/.claude.json" then some
    "\x7b\"projects\":\x7b\"/ws\":\x7b\"mcpServers\":\x7b\"gh\":\x7b\"command\":\"gh\"\x7d\x7d\x7d\x7d\x7d"
    else none)
  exists? path := path = "/home/me/.claude.json"
  canonicalize path := some path
  fromStr _ := .ok (.object [("projects", .object [("/ws",
    .object [("mcpServers", .object [("gh", .object [("command", .string "gh")])])])])])

/-- Nothing else is read, so the formats do not matter. -/
def noReaders : Formats where
  json _ := ⟨fun _ => .error "not read", fun text _ => text⟩
  toml := ⟨fun _ => .error "not read", fun text _ => text⟩
  patch _ after := after

/-- The two keys of a canonical root are one, and its server is listed under it twice. -/
theorem canonicalRoot_not_exact : ¬ (scan oneProject noReaders "/ws" "/home/me").Exact :=
  fun h => absurd h.once (by decide +kernel)

end Tethys.Sync
