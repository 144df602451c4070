import Tethys.Sync.Registry

/-!
# From the first registry version to the second

Rewriting a registry drops the `targets` of its entries and keeps the providers that the
reader derived from them. Providers mean the same before and after. Targets do not: the
session is open to every entry afterwards, and an entry whose targets named no vendor is open
to every vendor. `registry_rewrite_meaning` gives the exact condition.
-/

namespace Tethys.Sync

open Schema Lib Serde

/-! ## What is read back -/

/-- An entry as the second version keeps it. -/
def migrated (entry : RegistryEntry) : RegistryEntry :=
  { entry with entryMeta.targets := none }

def RegistryFile.migrated (file : RegistryFile) : RegistryFile where
  mcpServers := file.mcpServers.map Sync.migrated

theorem vec_encode {α : Type} (decode : Node → Option α) (encode : α → Node)
    (h : ∀ a, decode (encode a) = some a) (l : List α) :
    vec decode (.array (l.map encode)) = some l := by
  rw [vec, mapM_map_eq_some h, List.map_id']

theorem option_encode {α : Type} (decode : Node → Option α) (encode : α → Node)
    (h : ∀ a, decode (encode a) = some a) (hn : ∀ a, encode a ≠ .scalar "null")
    (value : Option α) : option decode (encodeOption encode value) = some value := by
  cases value with
  | none => rfl
  | some a =>
    rw [encodeOption]
    unfold option
    split
    · next heq => exact absurd heq (hn a)
    · rw [h]
      rfl

theorem btreeMap_encode {α : Type} {decode : Node → Option α} {encode : α → Node} {g : α → α}
    (h : ∀ a, decode (encode a) = some (g a)) (m : OrdMap String α) :
    btreeMap decode (encodeMap encode m) = some (m.map g) := by
  have hm : (m.entries.map fun e => (e.1, encode e.2)).mapM
      (fun e => (decode e.2).map fun value => (e.1, value)) =
        some (m.map g).entries :=
    mapM_map_eq_some (fun e => by rw [h]; rfl) m.entries
  rw [encodeMap, btreeMap, hm, Option.map_some, OrdMap.ofList_entries]

theorem bool_encode (value : Bool) : bool (encodeBool value) = some value := by
  cases value <;> rfl

theorem decodeScope_encode (scope : Scope) :
    decodeScope (.string scope.asStr) = some scope := by
  cases scope <;> rfl

theorem transportVariant_asStr (transport : TransportKind) :
    unitVariant transportVariant (.string transport.asStr) = some transport := by
  cases transport <;> rfl

theorem decodeValue_encode (value : RegistryValue) :
    decodeValue (encodeValue value) = some value := by
  cases value <;> rfl

theorem btreeMap_encodeValue (m : OrdMap String RegistryValue) :
    btreeMap decodeValue (encodeMap encodeValue m) = some m := by
  have hid : m.map id = m := OrdMap.ext_get fun k => by simp
  rw [btreeMap_encode (g := id) decodeValue_encode, hid]

theorem decodeMeta_encode (m : EntryMeta) :
    decodeMeta (encodeMeta m) = some { m with targets := none } := by
  obtain ⟨scope, providers, targets, enabled, legacy⟩ := m
  have hfields : structFields ["scope", "providers", "targets", "enabled", "legacy"]
      (encodeMeta ⟨scope, providers, targets, enabled, legacy⟩) =
        some [some (encodeOption (fun scope => .string scope.asStr) scope),
          some (encodeOption (fun providers => .array (providers.map .string)) providers), none,
          some (encodeBool enabled), some (encodeBool legacy)] := rfl
  have hscope := option_encode _ _ decodeScope_encode (fun _ => nofun) scope
  have hproviders := option_encode _ _ (fun l => vec_encode string .string (fun _ => rfl) l)
    (fun _ => nofun) providers
  simp only [decodeMeta, decodeMetaRaw, hfields, orDefault, hscope, hproviders, bool_encode]
  cases providers <;> rfl

theorem decodeEntry_encode (entry : RegistryEntry) :
    decodeEntry (encodeEntry entry) = some (migrated entry) := by
  obtain ⟨transport, command, args, env, url, headers, entryMeta⟩ := entry
  have hfields : structFields ["type", "command", "args", "env", "url", "headers", "x-tethys"]
      (encodeEntry ⟨transport, command, args, env, url, headers, entryMeta⟩) =
        some [some (.string transport.asStr), some (encodeOption .string command),
          some (.array (args.map .string)), some (encodeMap encodeValue env),
          some (encodeOption .string url), some (encodeMap encodeValue headers),
          some (encodeMeta entryMeta)] := rfl
  have hstring := option_encode string .string (fun _ => rfl) (fun _ => nofun)
  have hargs := vec_encode string .string (fun _ => rfl) args
  simp only [decodeEntry, hfields, orDefault, hstring, hargs, btreeMap_encodeValue,
    decodeMeta_encode, transportVariant_asStr]
  rfl

theorem decodeFile_encode (file : RegistryFile) :
    decodeFile (encodeFile { file with version := registryVersion }) = some file.migrated := by
  have hfields : structFields ["version", "mcpServers"]
      (encodeFile { file with version := registryVersion }) =
        some [some (.scalar (toString registryVersion)),
          some (encodeMap encodeEntry file.mcpServers)] := rfl
  have hversion : u32 (.scalar (toString registryVersion)) = some registryVersion := by decide
  simp only [decodeFile, hfields, orDefault, hversion, btreeMap_encode decodeEntry_encode]
  rfl

/-! ## What the reader accepts -/

/-- The metadata of a decoded entry comes from raw metadata. -/
theorem decodeEntry_meta {value : Node} {entry : RegistryEntry}
    (h : decodeEntry value = some entry) : ∃ raw, entry.entryMeta = .ofRaw raw := by
  unfold decodeEntry at h
  split at h
  · next transport command args env url headers entryMeta _ =>
    simp only [Option.bind_eq_bind, Option.bind_eq_some_iff] at h
    obtain ⟨_, _, _, _, _, _, _, _, _, _, _, _, m, hm, h⟩ := h
    cases h
    cases entryMeta with
    | none =>
      cases hm
      exact ⟨⟨none, none, none, true, false⟩, rfl⟩
    | some value =>
      obtain ⟨raw, _, rfl⟩ := Option.map_eq_some_iff.mp hm
      exact ⟨raw, rfl⟩
  · cases h

theorem decodeFile_meta {value : Node} {file : RegistryFile} (h : decodeFile value = some file)
    {name : String} {entry : RegistryEntry} (he : file.mcpServers.get name = some entry) :
    ∃ raw, entry.entryMeta = .ofRaw raw := by
  unfold decodeFile at h
  split at h
  · next version mcpServers _ =>
    simp only [Option.bind_eq_bind, Option.bind_eq_some_iff] at h
    obtain ⟨_, _, servers, hservers, h⟩ := h
    cases h
    cases mcpServers with
    | none =>
      cases hservers
      exact absurd he (by simp)
    | some value =>
      simp only [orDefault] at hservers
      unfold btreeMap at hservers
      split at hservers
      · obtain ⟨l, hl, rfl⟩ := Option.map_eq_some_iff.mp hservers
        obtain ⟨member, _, hmember⟩ := mem_of_mapM_eq_some hl (OrdMap.mem_of_get_ofList he)
        obtain ⟨entry', hdecode, heq⟩ := Option.map_eq_some_iff.mp hmember
        cases heq
        exact decodeEntry_meta hdecode
      · cases hservers
  · cases h

theorem readRegistry_meta {S : SerdeJson} {disk : Disk} {path : String} {file : RegistryFile}
    (h : readRegistry S disk path = .ok (some file)) {name : String} {entry : RegistryEntry}
    (he : file.mcpServers.get name = some entry) : ∃ raw, entry.entryMeta = .ofRaw raw := by
  unfold readRegistry at h
  split at h
  · cases h
  · split_ifs at h with hblank
    · cases h
      exact absurd he (by simp)
    · split at h
      · next hdecode =>
        cases h
        obtain ⟨value, _, hvalue⟩ := Option.bind_eq_some_iff.mp hdecode
        exact decodeFile_meta hvalue he
      · cases h

/-! ## What an entry allows -/

/-- Targets and providers tell the same: the session is a target, and the vendors among the
targets are the ones among the providers. -/
def TargetsMatch (m : EntryMeta) : Prop :=
  ∀ targets, m.targets = some targets →
    .session ∈ targets ∧ ∃ providers, m.providers = some providers ∧
      ∀ target, target ≠ .session → (target ∈ targets ↔ target.asStr ∈ providers)

theorem nonSession_eq_nil {targets : List TargetId} :
    EntryMeta.nonSession targets = [] ↔ ∀ target ∈ targets, target = .session := by
  simp [EntryMeta.nonSession, List.filter_eq_nil_iff]

/-- Raw metadata without providers and with some vendor among the targets has providers
once it is read. -/
theorem ofRaw_providers_none {raw : EntryMetaRaw} (h : (EntryMeta.ofRaw raw).providers = none)
    {targets : List TargetId} (ht : (EntryMeta.ofRaw raw).targets = some targets) :
    EntryMeta.nonSession targets = [] := by
  obtain ⟨scope, providers, targets', enabled, legacy⟩ := raw
  obtain rfl : targets' = some targets := ht
  cases providers with
  | some providers => cases h
  | none => simpa [EntryMeta.ofRaw] using h

theorem allowsProvider_migrated {entry : RegistryEntry} {raw : EntryMetaRaw}
    (h : entry.entryMeta = .ofRaw raw) (providerId : String) :
    (migrated entry).entryMeta.allowsProvider providerId =
      entry.entryMeta.allowsProvider providerId := by
  unfold EntryMeta.allowsProvider migrated
  cases hp : entry.entryMeta.providers with
  | some providers => rfl
  | none =>
    cases ht : entry.entryMeta.targets with
    | none => rfl
    | some targets =>
      rw [h] at hp ht
      simp [ofRaw_providers_none hp ht]

/-- Without targets, the session is allowed and a vendor is allowed as a provider. -/
theorem allows_migrated (entry : RegistryEntry) (target : TargetId) :
    (migrated entry).entryMeta.allows target =
      (decide (target = .session) || match entry.entryMeta.providers with
        | some providers => providers.contains target.asStr
        | none => true) := by
  by_cases h : target = .session
  · simp [migrated, EntryMeta.allows, h]
  · cases hp : entry.entryMeta.providers <;>
      simp [migrated, EntryMeta.allows, EntryMeta.allowsProvider, h, hp]

/-- Rewriting keeps what an entry allows if and only if its targets match its providers. -/
theorem allows_migrated_iff {entry : RegistryEntry} {raw : EntryMetaRaw}
    (h : entry.entryMeta = .ofRaw raw) :
    (∀ target, (migrated entry).entryMeta.allows target = entry.entryMeta.allows target) ↔
      TargetsMatch entry.entryMeta := by
  simp only [allows_migrated]
  cases ht : entry.entryMeta.targets with
  | none =>
    constructor
    · intro _ targets htargets
      rw [ht] at htargets
      cases htargets
    · intro _ target
      cases hp : entry.entryMeta.providers <;> cases target <;>
        simp [EntryMeta.allows, EntryMeta.allowsProvider, ht, hp]
  | some targets =>
    have hallows : ∀ target, entry.entryMeta.allows target = targets.contains target :=
      fun target => by rw [EntryMeta.allows, ht]
    simp only [hallows]
    constructor
    · intro hsame targets' htargets
      obtain rfl : targets = targets' := Option.some.inj (ht.symm.trans htargets)
      constructor
      · simpa using hsame .session
      · cases hp : entry.entryMeta.providers with
        | some providers =>
          refine ⟨providers, rfl, fun target hne => ?_⟩
          have := hsame target
          grind
        | none =>
          -- open providers allow every vendor, but then no vendor was among the targets
          have hnil : EntryMeta.nonSession targets = [] := by
            rw [h] at hp ht
            exact ofRaw_providers_none hp ht
          have hcodex := hsame .codex
          rw [hp] at hcodex
          have hmem : TargetId.codex ∈ targets := by simpa using hcodex
          exact absurd (nonSession_eq_nil.mp hnil _ hmem) (by decide)
    · intro hmatch target
      obtain ⟨hsession, providers, hp, hvendor⟩ := hmatch targets ht
      rw [hp]
      by_cases htarget : target = .session
      · simp [htarget, hsession]
      · have := hvendor target htarget
        grind

/-! ## Rewriting files -/

/-- The text that `writeRegistry` puts down. -/
def registryText (S : SerdeJson) (file : RegistryFile) : String :=
  S.toStringPretty (encodeFile { file with version := registryVersion }) ++ "\n"

/-- `serde_json` reads the file's value back from its text, which is not blank. -/
structure SerdeJson.PrintsBack (S : SerdeJson) (file : RegistryFile) : Prop where
  parse : S.parse (registryText S file) =
    some (encodeFile { file with version := registryVersion })
  visible : blank (registryText S file) = false

theorem writeRegistry_files (S : SerdeJson) (disk : Disk) (path : String) (file : RegistryFile)
    (backup : Option Nat) (p : String) :
    (writeRegistry S disk path file backup).files p =
      if p = path then some (registryText S file) else disk.files p := by
  cases backup with
  | none => rfl
  | some now => simp [writeRegistry, Disk.writeAtomic, registryText]

theorem readRegistry_text {S : SerdeJson} {disk : Disk} {path : String} {file : RegistryFile}
    (hS : S.PrintsBack file) (h : disk.files path = some (registryText S file)) :
    readRegistry S disk path = .ok (some file.migrated) := by
  rw [readRegistry, h]
  simp only [hS.visible, hS.parse, Option.bind_some, decodeFile_encode]
  rfl

theorem mergedServers_migrated (g w : RegistryFile) :
    (Registry.mergedServers ⟨g.migrated, w.migrated⟩) =
      (Registry.mergedServers ⟨g, w⟩).map migrated := by
  refine OrdMap.ext_get fun name => ?_
  simp only [Registry.mergedServers, RegistryFile.migrated, OrdMap.get_extend_entries,
    OrdMap.get_map]
  cases w.mcpServers.get name <;> rfl

/-- A choice of entries that looks at them the same way before and after picks the same
names. -/
theorem names_filter_map {m : OrdMap String RegistryEntry}
    {p q : String × RegistryEntry → Bool}
    (h : ∀ e ∈ m.entries, q (e.1, migrated e.2) = p e) :
    ((m.map migrated).entries.filter q).map Prod.fst = (m.entries.filter p).map Prod.fst := by
  have hfilter : m.entries.filter (q ∘ fun e => (e.1, migrated e.2)) = m.entries.filter p :=
    List.filter_congr fun e he => h e he
  change ((m.entries.map fun e => (e.1, migrated e.2)).filter q).map Prod.fst = _
  rw [List.filter_map, hfilter, List.map_map]
  rfl

/-- An entry is picked by name exactly when the choice holds of it. -/
theorem mem_names_filter {m : OrdMap String RegistryEntry} {name : String}
    {entry : RegistryEntry} (he : m.get name = some entry) (p : String × RegistryEntry → Bool) :
    name ∈ (m.entries.filter p).map Prod.fst ↔ p (name, entry) = true := by
  constructor
  · intro h
    obtain ⟨⟨name', entry'⟩, hmem, rfl⟩ := List.mem_map.mp h
    obtain ⟨hentry, hp⟩ := List.mem_filter.mp hmem
    rw [OrdMap.get_eq_some.mpr hentry] at he
    cases he
    exact hp
  · intro hp
    exact List.mem_map.mpr ⟨_, List.mem_filter.mpr ⟨OrdMap.get_eq_some.mp he, hp⟩, rfl⟩

/-- Each entry of the file allows the same providers in the rewritten file, and the same
targets exactly when they match its providers. -/
def KeepsMeaning (file file' : RegistryFile) : Prop :=
  ∀ name, (file'.mcpServers.get name).isSome = (file.mcpServers.get name).isSome ∧
    ∀ entry entry', file.mcpServers.get name = some entry →
      file'.mcpServers.get name = some entry' →
      (∀ providerId, entry'.entryMeta.allowsProvider providerId =
        entry.entryMeta.allowsProvider providerId) ∧
      ((∀ target, entry'.entryMeta.allows target = entry.entryMeta.allows target) ↔
        TargetsMatch entry.entryMeta)

theorem keepsMeaning_migrated {file : RegistryFile}
    (h : ∀ name entry, file.mcpServers.get name = some entry →
      ∃ raw, entry.entryMeta = .ofRaw raw) : KeepsMeaning file file.migrated := by
  intro name
  constructor
  · simp [RegistryFile.migrated]
  · intro entry entry' he he'
    rw [RegistryFile.migrated, OrdMap.get_map, he] at he'
    cases he'
    obtain ⟨raw, hraw⟩ := h name entry he
    exact ⟨allowsProvider_migrated hraw, allows_migrated_iff hraw⟩

/-- Rewriting a pair of registry files keeps what every entry allows for every provider, and
so the entries effective for every provider. It keeps what an entry allows for every target
exactly when its targets match its providers, and the entries effective for every target
exactly when that is so for each enabled one that is in force. -/
theorem registry_rewrite_meaning (S : SerdeJson) (disk : Disk) (gPath wPath : String)
    (g w : RegistryFile) (backup : Option Nat)
    (hg : readRegistry S disk gPath = .ok (some g)) (hw : readRegistry S disk wPath = .ok (some w))
    (hSg : S.PrintsBack g) (hSw : S.PrintsBack w) :
    let disk' := writeRegistry S (writeRegistry S disk gPath g backup) wPath w backup
    ∃ g' w', readRegistry S disk' gPath = .ok (some g') ∧
      readRegistry S disk' wPath = .ok (some w') ∧
      KeepsMeaning g g' ∧ KeepsMeaning w w' ∧
      (∀ providerId disabled,
        (Registry.effectiveForProvider ⟨g', w'⟩ providerId disabled).map Prod.fst =
          (Registry.effectiveForProvider ⟨g, w⟩ providerId disabled).map Prod.fst) ∧
      ((∀ target disabled, (Registry.effective ⟨g', w'⟩ target disabled).map Prod.fst =
          (Registry.effective ⟨g, w⟩ target disabled).map Prod.fst) ↔
        ∀ name entry, (Registry.mergedServers ⟨g, w⟩).get name = some entry →
          entry.entryMeta.enabled = true → TargetsMatch entry.entryMeta) := by
  intro disk'
  have hrawg : ∀ name entry, g.mcpServers.get name = some entry →
      ∃ raw, entry.entryMeta = .ofRaw raw := fun _ _ he => readRegistry_meta hg he
  have hraww : ∀ name entry, w.mcpServers.get name = some entry →
      ∃ raw, entry.entryMeta = .ofRaw raw := fun _ _ he => readRegistry_meta hw he
  have hraw : ∀ name entry, (Registry.mergedServers ⟨g, w⟩).get name = some entry →
      ∃ raw, entry.entryMeta = .ofRaw raw := by
    intro name entry he
    simp only [Registry.mergedServers, OrdMap.get_extend_entries] at he
    rcases Option.or_eq_some_iff.mp he with he | ⟨_, he⟩
    · exact hraww name entry he
    · exact hrawg name entry he
  -- with one path for both files, the second write puts the same text down again
  have htextw : disk'.files wPath = some (registryText S w) := by
    rw [writeRegistry_files, if_pos rfl]
  have htextg : disk'.files gPath = some (registryText S g) := by
    rw [writeRegistry_files, writeRegistry_files, if_pos rfl]
    split_ifs with hpath
    · rw [hpath, hw] at hg
      cases hg
      rfl
    · rfl
  refine ⟨g.migrated, w.migrated, readRegistry_text hSg htextg, readRegistry_text hSw htextw,
    keepsMeaning_migrated hrawg, keepsMeaning_migrated hraww, ?_, ?_⟩
  · intro providerId disabled
    rw [Registry.effectiveForProvider, mergedServers_migrated]
    refine names_filter_map fun e he => ?_
    obtain ⟨raw, hraw⟩ := hraw e.1 e.2 (OrdMap.get_eq_some.mpr he)
    cases providerId with
    | none => rfl
    | some pid =>
      simp only [allowsProvider_migrated hraw]
      rfl
  · simp only [Registry.effective, mergedServers_migrated]
    constructor
    · intro hsame name entry he henabled
      obtain ⟨raw, hraw⟩ := hraw name entry he
      refine (allows_migrated_iff hraw).mp fun target => ?_
      have hmem := congrArg (name ∈ ·) (hsame target [])
      simp only [eq_iff_iff] at hmem
      rw [mem_names_filter he, mem_names_filter (by rw [OrdMap.get_map, he]; rfl)] at hmem
      have henabled' : (migrated entry).entryMeta.enabled = true := henabled
      simp only [henabled, henabled', Bool.true_and, List.contains_nil, Bool.not_false,
        Bool.and_true] at hmem
      exact Bool.eq_iff_iff.mpr hmem
    · intro hmatch target disabled
      refine names_filter_map fun e he => ?_
      have hget := OrdMap.get_eq_some.mpr he
      obtain ⟨raw, hraw⟩ := hraw e.1 e.2 hget
      have henabled : (migrated e.2).entryMeta.enabled = e.2.entryMeta.enabled := rfl
      cases hen : e.2.entryMeta.enabled with
      | false => simp [henabled, hen]
      | true =>
        have hallows := (allows_migrated_iff hraw).mpr (hmatch e.1 e.2 hget hen) target
        simp only [henabled, hen, hallows]

/-! ## An entry for the session only -/

def sessionOnlyText : String :=
  "\x7b\"mcpServers\":\x7b\"linear\":\x7b\"type\":\"http\",\"url\":\"linear.app\"," ++
    "\"x-tethys\":\x7b\"targets\":[\"session\"]\x7d\x7d\x7d\x7d"

def sessionOnlyNode : Node :=
  .object [("mcpServers", .object [("linear", .object [("type", .string "http"),
    ("url", .string "linear.app"),
    ("x-tethys", .object [("targets", .array [.string "session"])])])])]

def sessionOnly : RegistryEntry where
  transport := .http
  url := some "linear.app"
  entryMeta := { targets := some [.session] }

def sessionOnlyFile : RegistryFile where
  mcpServers := OrdMap.empty.insert "linear" sessionOnly

/-- The file after it is rewritten. -/
def rewrittenText : String :=
  "\x7b\n  \"version\": 2,\n  \"mcpServers\": \x7b\n    \"linear\": \x7b\n" ++
    "      \"type\": \"http\",\n      \"command\": null,\n      \"args\": [],\n" ++
    "      \"env\": \x7b\x7d,\n      \"url\": \"linear.app\",\n" ++
    "      \"headers\": \x7b\x7d,\n      \"x-tethys\": \x7b\n" ++
    "        \"scope\": null,\n        \"providers\": null,\n" ++
    "        \"enabled\": true,\n        \"legacy\": false\n      \x7d\n    \x7d\n" ++
    "  \x7d\n\x7d"

/-- `serde_json` on the two texts. -/
def twoTexts : SerdeJson where
  parse text :=
    if text = sessionOnlyText then some sessionOnlyNode
    else if text = rewrittenText ++ "\n" then some (encodeFile sessionOnlyFile)
    else none
  toStringPretty _ := rewrittenText
  message _ := "expected value at line 1 column 1"

def sessionOnlyDisk : Disk where
  files _ := some sessionOnlyText
  backups _ := .empty
  pathHash _ := "00000000"

theorem readRegistry_sessionOnlyDisk (path : String) :
    readRegistry twoTexts sessionOnlyDisk path = .ok (some sessionOnlyFile) := by
  change readRegistry twoTexts sessionOnlyDisk "" = _
  decide +kernel

-- only the first piece of each text is evaluated: the two differ in their second character
theorem rewrittenText_front :
    "\x7b\n  \"version\": 2,\n  \"mcpServers\": \x7b\n    \"linear\": \x7b\n".toList <+:
      (rewrittenText ++ "\n").toList := by
  delta rewrittenText
  simp only [String.toList_append, List.append_assoc]
  exact List.prefix_append _ _

theorem sessionOnlyText_front :
    "\x7b\"mcpServers\":\x7b\"linear\":\x7b\"type\":\"http\",\"url\":\"linear.app\",".toList <+:
      sessionOnlyText.toList := by
  delta sessionOnlyText
  simp only [String.toList_append]
  exact List.prefix_append _ _

theorem rewrittenText_ne : rewrittenText ++ "\n" ≠ sessionOnlyText := by
  intro h
  have hfront := sessionOnlyText_front
  rw [← h] at hfront
  rcases List.prefix_or_prefix_of_prefix rewrittenText_front hfront with hlt | hlt
  · exact absurd hlt (by decide +kernel)
  · exact absurd hlt (by decide +kernel)

theorem twoTexts_printsBack : twoTexts.PrintsBack sessionOnlyFile where
  parse := by
    have hne : registryText twoTexts sessionOnlyFile ≠ sessionOnlyText := rewrittenText_ne
    simp only [twoTexts] at hne ⊢
    rw [if_neg hne, if_pos (by rfl)]
    rfl
  visible := by
    obtain ⟨rest, hrest⟩ := rewrittenText_front
    change (rewrittenText ++ "\n").toList.all isWhitespace = false
    rw [← hrest, List.all_append, Bool.and_eq_false_iff]
    exact .inl (by decide +kernel)

/-- Rewritten, the entry for the session only is open to Codex. -/
theorem registry_rewrite_widens :
    ∃ file', readRegistry twoTexts sessionOnlyDisk "mcp.json" = .ok (some sessionOnlyFile) ∧
      readRegistry twoTexts
        (writeRegistry twoTexts sessionOnlyDisk "mcp.json" sessionOnlyFile none) "mcp.json" =
          .ok (some file') ∧
      sessionOnlyFile.mcpServers.get "linear" = some sessionOnly ∧
      file'.mcpServers.get "linear" = some (migrated sessionOnly) ∧
      sessionOnly.entryMeta.allows .codex = false ∧
      (migrated sessionOnly).entryMeta.allows .codex = true := by
  refine ⟨sessionOnlyFile.migrated, readRegistry_sessionOnlyDisk "mcp.json", ?_, ?_, ?_, ?_, ?_⟩
  · refine readRegistry_text twoTexts_printsBack ?_
    rw [writeRegistry_files, if_pos rfl]
  all_goals decide +kernel

theorem registry_rewrite_meaning_sessionOnly :
    ∃ file', readRegistry twoTexts
        (writeRegistry twoTexts
          (writeRegistry twoTexts sessionOnlyDisk "mcp.json" sessionOnlyFile none)
          "workspace.json" sessionOnlyFile none) "mcp.json" = .ok (some file') ∧
      KeepsMeaning sessionOnlyFile file' := by
  obtain ⟨g', _, hg, _, hmeaning, _⟩ := registry_rewrite_meaning twoTexts sessionOnlyDisk
    "mcp.json" "workspace.json" sessionOnlyFile sessionOnlyFile none
    (readRegistry_sessionOnlyDisk "mcp.json") (readRegistry_sessionOnlyDisk "workspace.json")
    twoTexts_printsBack twoTexts_printsBack
  exact ⟨g', hg, hmeaning⟩

end Tethys.Sync
