import Tethys.Sync.Writes

/-!
# User entries survive a projection

A server entry of the file that Tethys did not write, or that is no longer as Tethys wrote
it, should be left alone. `plan` sees such an entry only through `read_entries` and a digest,
and for Codex the check for omitted secrets replaces the conflict it found.
`preserved_iff` gives exactly the files and lists for which the entries survive.
-/

namespace Tethys.Sync

open Schema Lib

/-! ## What should hold -/

/-- The registry entry that a target reads from a value it wrote. -/
def readNode (target : ProjectionTarget) (value : Node) : Option RegistryEntry :=
  match target with
  | .claudeCode => ClaudeCode.entryFromValue value
  | .openCode => OpenCode.entryFromValue value
  | .codex => value.asTable.map Codex.entryFromTable

/-- The manifest's record of the values that Tethys last wrote. -/
def hashes {Hash : Type} (D : Digests Hash) (target : ProjectionTarget)
    (wrote : OrdMap String Node) : OrdMap String Hash :=
  .ofList (wrote.entries.filterMap fun e =>
    (readNode target e.2).map fun entry => (e.1, entryDigest D entry))

/-- The server entry at a place of a text. -/
def entryIn (F : Formats) (target : ProjectionTarget) (text : String) (place : Place) :
    Option (String × Node) :=
  match openDoc F target text with
  | .ok doc => entryOf target doc place
  | .error _ => none

/-- Every server entry that Tethys does not own, or that differs from what it last wrote, is
unchanged in the written text. -/
def Preserved (F : Formats) (target : ProjectionTarget) (wrote : OrdMap String Node)
    (original written : String) : Prop :=
  ∀ place name value, entryIn F target original place = some (name, value) →
    wrote.get name ≠ some value → entryIn F target written place = some (name, value)

/-- Where an injection finds an entry that Tethys does not own, or that differs from what it
last wrote, nothing is written, or in the end just the value that is there. -/
def Safe {Hash : Type} [DecidableEq Hash] (D : Digests Hash) (F : Formats)
    (target : ProjectionTarget) (wrote : OrdMap String Node)
    (desired : List (String × RegistryEntry)) (original : String) : Prop :=
  ∀ doc name place value, openDoc F target original = .ok doc →
    slotOf target doc name = some place → entryOf target doc place = some (name, value) →
    wrote.get name ≠ some value →
    ∀ last, (writtenValues D target (hashes D target wrote) (entriesRead F target original)
      desired name).getLast? = some last → last = value

/-! ## The user's entries -/

/-- No desired entry has secrets to omit, and what an injection would find under a desired
name is read as an entry whose digest shows every change: then the request is safe. -/
theorem safe_of_visible {Hash : Type} [DecidableEq Hash] {D : Digests Hash} {F : Formats}
    {target : ProjectionTarget} {wrote : OrdMap String Node}
    {desired : List (String × RegistryEntry)} {original : String}
    (hsecrets : ∀ e ∈ desired, omitsSecrets target.targetId e.2 = false)
    (hvisible : ∀ doc name place value, openDoc F target original = .ok doc →
      slotOf target doc name = some place → entryOf target doc place = some (name, value) →
      name ∈ desired.map Prod.fst →
      ∃ current, (entriesRead F target original).get name = some current ∧
        ((hashes D target wrote).get name = some (entryDigest D current) →
          wrote.get name = some value)) :
    Safe D F target wrote desired original := by
  intro doc name place value hdoc hslot hentry hforeign last hlast
  obtain ⟨⟨x, entry⟩, hmem, hwritten⟩ := List.mem_filterMap.mp (List.mem_of_getLast? hlast)
  split_ifs at hwritten with hwrites
  obtain ⟨rfl, hwrites⟩ := hwrites
  obtain ⟨current, hcurrent, hdigest⟩ :=
    hvisible doc x place value hdoc hslot hentry (List.mem_map_of_mem hmem)
  have homits := hsecrets _ hmem
  cases hhash : (hashes D target wrote).get x with
  | none => simp [writes, homits, hcurrent, hhash] at hwrites
  | some hash =>
    by_cases hsame : entryDigest D current = hash
    · exact absurd (hdigest (by rw [hhash, hsame])) hforeign
    · simp [writes, homits, hcurrent, hhash, hsame] at hwrites

/-- A refused entry makes apply fail and write nothing; and when plan and apply succeed, the
user's entries are unchanged in the file if and only if the request is `Safe`. -/
theorem preserved_iff {Hash : Type} [DecidableEq Hash] (D : Digests Hash) (F : Formats)
    (target : ProjectionTarget) (wrote : OrdMap String Node) (path : String) (scope : Scope)
    (original : Option String) (desired : List (String × RegistryEntry))
    (planned : ProjectionPlan Hash) (disk : Disk) (now : Nat) (io : Io)
    (hF : PrintsBack F target desired)
    (hplan : plan D F ⟨projectors F target, path, scope, original, desired,
      hashes D target wrote⟩ = .ok planned) :
    (∀ name entry, (name, entry) ∈ desired →
      refuses D target.targetId ((hashes D target wrote).get name)
        ((entriesRead F target (original.getD "")).get name) entry →
      ∃ error, apply D (projectors F target) planned disk now io = (.error error, disk) ∧
        ((∃ message, error = .conflict message) ∨ error = .stalePlan path ∨
          ∃ message, io = .read message)) ∧
    ∀ record disk', apply D (projectors F target) planned disk now io = (.ok record, disk') →
      ∃ written, disk'.files path = some written ∧
        (Preserved F target wrote (original.getD "") written ↔
          Safe D F target wrote desired (original.getD "")) := by
  obtain ⟨hentries, rfl⟩ := plan_eq_ok hplan
  refine ⟨?_, ?_⟩
  · intro name entry hmem hrefuses
    obtain ⟨projection, hprojection, hstate, -⟩ := mem_conflicts_of_refuses hentries hmem hrefuses
    have hfiltered : projection ∈ planned.entries.filter fun entry => entry.state = .conflict :=
      List.mem_filter.mpr ⟨hprojection, by simpa using hstate⟩
    exact apply_of_conflict (List.ne_nil_of_mem (List.mem_map_of_mem hfiltered))
  · intro record disk' happly
    refine ⟨planned.content, apply_eq_ok happly, ?_, ?_⟩
    · intro hpreserved doc name place value hdoc hslot hentry hforeign last hlast
      obtain ⟨doc', hdoc', hafter⟩ := planEntries_entry hF hentries hdoc hentry
      have hkept := hpreserved place name value (by simp [entryIn, hdoc, hentry]) hforeign
      simpa [entryIn, hdoc', hafter, hslot, hlast] using hkept
    · intro hsafe place name value hentry hforeign
      unfold entryIn at hentry
      split at hentry
      case h_2 => cases hentry
      case h_1 doc hdoc =>
        obtain ⟨doc', hdoc', hafter⟩ := planEntries_entry hF hentries hdoc hentry
        simp only [entryIn, hdoc', hafter]
        by_cases hslot : slotOf target doc name = some place
        · cases hlast : (writtenValues D target (hashes D target wrote)
              (entriesRead F target (original.getD "")) desired name).getLast? with
          | none => simp [hslot]
          | some last =>
            have hsame := hsafe doc name place value hdoc hslot hentry hforeign last hlast
            simp [hslot, hsame]
        · simp [hslot]

/-! ## Two files of Codex -/

/-- A perfect hash. -/
def exactDigests : Digests (RegistryEntry ⊕ String) := ⟨.inl, .inr⟩

/-- The formats on Codex files, for the given texts and their documents. -/
def codexFormats (texts : List (String × Members)) (print : Members → String) : Formats where
  json _ := ⟨fun _ => .error "no value", fun text _ => text⟩
  toml := ⟨fun text => match texts.lookup text with
    | some doc => .ok doc
    | none => .error "no document", fun _ => print⟩
  patch _ after := after

def oneFile (path text : String) : Disk where
  files p := if p = path then some text else none
  backups _ := .empty
  pathHash _ := "00000000"

def commandTable (command : String) : Node := .table [("command", .string command)]

def userAndOwned : String :=
  "[mcp_servers.memory]\ncommand = \"npx\"\n\n[mcp_servers.github]\ncommand = \"old\"\n"

def userAndUpdated : String :=
  "[mcp_servers.memory]\ncommand = \"npx\"\n\n[mcp_servers.github]\ncommand = \"new\"\n"

def onlyUpdated : String := "[mcp_servers.github]\ncommand = \"new\"\n"

/-- A file with an entry of the user's and one that Tethys wrote. -/
def updateFormats : Formats :=
  codexFormats
    [(userAndOwned, [("mcp_servers",
        .table [("github", commandTable "old"), ("memory", commandTable "npx")])]),
      (userAndUpdated, [("mcp_servers",
        .table [("github", commandTable "new"), ("memory", commandTable "npx")])]),
      (onlyUpdated, [("mcp_servers", .table [("github", commandTable "new")])])]
    fun
      | [(_, .table [_, _])] => userAndUpdated
      | _ => onlyUpdated

def updated : List (String × RegistryEntry) :=
  [("github", { transport := .stdio, command := some "new" })]

theorem codexFormats_printsBack {texts : List (String × Members)} {print : Members → String}
    {desired : List (String × RegistryEntry)}
    (h : ∀ doc ∈ [] :: texts.map Prod.snd, ∀ e ∈ desired, ∀ value doc',
      entryNode .codex e.2 = .ok value → putDoc .codex e.1 value (.table doc) = .ok (.table doc') →
      blank (print doc') = false ∧ texts.lookup (print doc') = some doc') :
    PrintsBack (codexFormats texts print) .codex desired := by
  intro name entry hmem text node value node' hopen hvalue hput
  obtain ⟨doc, hdoc, rfl⟩ := map_eq_ok hopen
  obtain ⟨doc', -, rfl⟩ := map_eq_ok hput
  have hknown : doc ∈ [] :: texts.map Prod.snd := by
    unfold Codex.document Toml.parse codexFormats at hdoc
    split_ifs at hdoc
    · simp [(Except.ok.inj hdoc).symm]
    · cases hlookup : texts.lookup text with
      | none => simp [hlookup, Except.mapError] at hdoc
      | some found =>
        obtain rfl : found = doc := by simpa [hlookup, Except.mapError] using hdoc
        obtain ⟨before, after, rfl, -⟩ := List.lookup_eq_some_iff.mp hlookup
        simp
  obtain ⟨hblank, hlookup⟩ := h doc hknown (name, entry) hmem value doc' hvalue hput
  simp [openDoc, printDoc, Codex.document, Toml.parse, codexFormats, Node.asTable, hblank, hlookup,
    Except.map, Except.mapError]

def wroteOld : OrdMap String Node := OrdMap.empty.insert "github" (commandTable "old")

theorem updateFormats_printsBack : PrintsBack updateFormats .codex updated := by
  refine codexFormats_printsBack fun doc hdoc e he value doc' hvalue hput => ?_
  obtain rfl := List.mem_singleton.mp he
  obtain rfl := Except.ok.inj hvalue
  simp only [List.map_cons, List.map_nil, List.mem_cons, List.not_mem_nil, or_false] at hdoc
  rcases hdoc with rfl | rfl | rfl | rfl <;>
  · obtain rfl := Node.table.inj (Except.ok.inj hput)
    exact ⟨rfl, rfl⟩

theorem user_entry_survives_update :
    ∃ planned record disk',
      plan exactDigests updateFormats ⟨projectors updateFormats .codex, "config.toml", .global,
        some userAndOwned, updated, hashes exactDigests .codex wroteOld⟩ = .ok planned ∧
      apply exactDigests (projectors updateFormats .codex) planned
        (oneFile "config.toml" userAndOwned) 0 .ok = (.ok record, disk') ∧ disk'.files "config.toml" = some userAndUpdated ∧
      Preserved updateFormats .codex wroteOld userAndOwned userAndUpdated := by
  refine ⟨_, _, _, rfl, rfl, rfl, ?_⟩
  obtain ⟨written, hwritten, hiff⟩ := (preserved_iff exactDigests updateFormats .codex wroteOld
    "config.toml" .global (some userAndOwned) updated _ (oneFile "config.toml" userAndOwned) 0 .ok
    updateFormats_printsBack rfl).2 _ _ rfl
  obtain rfl := Option.some.inj hwritten
  refine hiff.mpr (safe_of_visible (by decide) ?_)
  intro doc name place value hdoc hslot hentry hname
  obtain rfl : name = "github" := by simpa [updated] using hname
  obtain rfl := Except.ok.inj hdoc
  obtain rfl := Option.some.inj hslot
  obtain ⟨-, rfl⟩ := Prod.mk.inj (Option.some.inj hentry)
  exact ⟨_, rfl, fun _ => rfl⟩

def foreignFile : String := "[mcp_servers.github]\ncommand = \"mine\"\n"

def overwritten : String := "[mcp_servers.github]\ncommand = \"gh\"\n"

def foreignFormats : Formats :=
  codexFormats
    [(foreignFile, [("mcp_servers", .table [("github", commandTable "mine")])]),
      (overwritten, [("mcp_servers", .table [("github", commandTable "gh")])])]
    fun _ => overwritten

def withSecret : List (String × RegistryEntry) :=
  [("github", {
    transport := .stdio
    command := some "gh"
    env := OrdMap.empty.insert "TOKEN" (.secret "keychain:tethys/TOKEN") })]

theorem foreignFormats_printsBack : PrintsBack foreignFormats .codex withSecret := by
  refine codexFormats_printsBack fun doc hdoc e he value doc' hvalue hput => ?_
  obtain rfl := List.mem_singleton.mp he
  obtain rfl := Except.ok.inj hvalue
  simp only [List.map_cons, List.map_nil, List.mem_cons, List.not_mem_nil, or_false] at hdoc
  rcases hdoc with rfl | rfl | rfl <;>
  · obtain rfl := Node.table.inj (Except.ok.inj hput)
    exact ⟨rfl, rfl⟩

/-- Tethys owns nothing here, and still replaces the user's entry. -/
theorem omitted_secret_overwrites_foreign :
    PrintsBack foreignFormats .codex withSecret ∧ ∃ planned record disk',
      plan exactDigests foreignFormats ⟨projectors foreignFormats .codex, "config.toml", .global,
        some foreignFile, withSecret, hashes exactDigests .codex .empty⟩ = .ok planned ∧
      apply exactDigests (projectors foreignFormats .codex) planned
        (oneFile "config.toml" foreignFile) 0 .ok = (.ok record, disk') ∧ disk'.files "config.toml" = some overwritten ∧
      ¬ Preserved foreignFormats .codex .empty foreignFile overwritten := by
  refine ⟨foreignFormats_printsBack, _, _, _, rfl, rfl, rfl, fun hpreserved => ?_⟩
  have hkept : some ("github", commandTable "gh") = some ("github", commandTable "mine") :=
    hpreserved (.key "github") "github" (commandTable "mine") rfl (by simp)
  simp [commandTable] at hkept

end Tethys.Sync
