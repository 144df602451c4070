import Tethys.Sync.Idempotence

/-!
# Writing an entry and reading it back

The JSON projectors write an entry with one field mapping and read it with another: Claude
Code keeps command and arguments apart, OpenCode has one list, and both put the name of a
variable in place of a secret. `inject_round_trip` says that the reader undoes the writer, up
to the keychain account of a secret, and that the rest of the document stays.
-/

namespace Tethys.Sync

open Schema Lib

/-! ## Values -/

/-- What is read where a value was written under a key: a secret is known by the key. -/
def readBack (key : String) : RegistryValue → RegistryValue
  | .plain text => .plain text
  | .secret _ => .secret ("keychain:tethys/" ++ key)

/-- A text of the form `${...}` or `{env:...}`. -/
def LooksLikeReference (text : String) : Prop :=
  ∃ inner : String, text = "$\x7b" ++ inner ++ "\x7d" ∨ text = "\x7benv:" ++ inner ++ "\x7d"

theorem reference_eq_some {opening text : String} {inner : List Char} :
    reference opening text = some inner ↔ text.toList = opening.toList ++ inner ++ ['\x7d'] := by
  unfold reference
  rw [Option.bind_eq_some_iff]
  constructor
  · rintro ⟨rest, hrest, hinner⟩
    obtain ⟨opening', htext, hopening⟩ := List.dropPrefix?_eq_some_iff.mp hrest
    split_ifs at hinner with hlast
    obtain rfl := Option.some.inj hinner
    rw [htext, eq_of_beq hopening, List.append_assoc, List.dropLast_append_getLast? _ hlast]
  · intro htext
    refine ⟨inner ++ ['\x7d'], ?_, by simp⟩
    rw [htext, List.append_assoc]
    exact List.dropPrefix?_append_of_beq _ (beq_self_eq_true _)

theorem reference_eq_none {opening text : String}
    (h : ∀ inner : String, text ≠ opening ++ inner ++ "\x7d") : reference opening text = none := by
  cases href : reference opening text with
  | none => rfl
  | some inner =>
    refine absurd ?_ (h (String.ofList inner))
    rw [← String.toList_inj, reference_eq_some.mp href]
    simp

/-- The name of a variable without a default is read whole. -/
theorem untilDefault_eq_self {cs : List Char} (h : ¬ [':', '-'] <:+: cs) :
    untilDefault cs = cs := by
  fun_induction untilDefault cs with
  | case1 rest => exact absurd ⟨[], rest, rfl⟩ h
  | case2 c cs hne ih =>
    rw [ih fun hin => h (hin.trans (List.suffix_cons c cs).isInfix)]
  | case3 => rfl

/-- A value that can be read back under its key: a text that is no reference, or a secret
whose key has no default mark. -/
def Renders (key : String) : RegistryValue → Prop
  | .plain text => ¬ LooksLikeReference text
  | .secret _ => ¬ [':', '-'] <:+: key.toList

theorem importValue_plain {text : String} (h : ¬ LooksLikeReference text) :
    importValue text = .plain text := by
  have hclaude : reference "$\x7b" text = none :=
    reference_eq_none fun inner heq => h ⟨inner, .inl heq⟩
  have henv : reference "\x7benv:" text = none :=
    reference_eq_none fun inner heq => h ⟨inner, .inr heq⟩
  simp [importValue, hclaude, henv]

theorem importValue_claudeRef {key : String} {value : RegistryValue} (h : Renders key value) :
    importValue (claudeRef key value) = readBack key value := by
  cases value with
  | plain text => exact importValue_plain h
  | secret secretRef =>
    have href : reference "$\x7b" ("$\x7b" ++ key ++ "\x7d") = some key.toList :=
      reference_eq_some.mpr (by simp)
    simp [importValue, claudeRef, href, untilDefault_eq_self h, readBack]

theorem importValue_opencodeRef {key : String} {value : RegistryValue} (h : Renders key value) :
    importValue (opencodeRef key value) = readBack key value := by
  cases value with
  | plain text => exact importValue_plain h
  | secret secretRef =>
    have hclaude : reference "$\x7b" ("\x7benv:" ++ key ++ "\x7d") = none := by
      refine reference_eq_none fun inner heq => ?_
      have hhead := congrArg (fun text => text.toList.head?) heq
      simp at hhead
    have href : reference "\x7benv:" ("\x7benv:" ++ key ++ "\x7d") = some key.toList :=
      reference_eq_some.mpr (by simp)
    simp [importValue, opencodeRef, hclaude, href, readBack]

/-- The values of a map, written as references and read back. -/
theorem stringMap_refObject {ref : String → RegistryValue → String}
    (href : ∀ key value, Renders key value → importValue (ref key value) = readBack key value)
    {m : OrdMap String RegistryValue} (h : ∀ e ∈ m.entries, Renders e.1 e.2) :
    stringMap (some (refObject ref m)) = m.mapKeyed readBack := by
  have hmembers : m.entries.map (fun e => (e.1, Node.string (ref e.1 e.2))) =
      (m.mapKeyed fun key value => Node.string (ref key value)).entries := rfl
  have hread : (m.mapKeyed fun key value => Node.string (ref key value)).entries.filterMap
      (fun e => e.2.asStr.map fun text => (e.1, importValue text)) =
        (m.mapKeyed readBack).entries := by
    simp only [OrdMap.mapKeyed, List.filterMap_map]
    rw [← List.filterMap_eq_map]
    refine List.filterMap_congr fun e he => ?_
    simp [Node.asStr, href e.1 e.2 (h e he)]
  simp only [stringMap, refObject, Node.asObject, Option.bind_some]
  rw [hmembers, OrdMap.ofList_entries, hread, OrdMap.ofList_entries]

/-! ## Entries -/

/-- An entry with no fields but those of its transport, and with values that can be read
back. -/
def OwnFields (entry : RegistryEntry) : Prop :=
  match entry.transport with
  | .stdio => entry.url = none ∧ entry.headers = .empty ∧
      ∀ e ∈ entry.env.entries, Renders e.1 e.2
  | .http => entry.command = none ∧ entry.args = [] ∧ entry.env = .empty ∧
      ∀ e ∈ entry.headers.entries, Renders e.1 e.2
  | .sse => False

/-- The entry names what its transport runs or calls. -/
def Complete (entry : RegistryEntry) : Prop :=
  match entry.transport with
  | .stdio => entry.command.isSome
  | .http => entry.url.isSome
  | .sse => False

/-- What is read where an entry was written. -/
def entryBack (entry : RegistryEntry) : RegistryEntry where
  transport := entry.transport
  command := entry.command
  args := entry.args
  env := entry.env.mapKeyed readBack
  url := entry.url
  headers := entry.headers.mapKeyed readBack

theorem stringList_strings (items : List String) :
    stringList (some (.array (items.map .string))) = items := by
  change (items.map Node.string).filterMap Node.asStr = items
  rw [List.filterMap_map]
  exact List.filterMap_some

theorem mapKeyed_of_isEmpty {m : OrdMap String RegistryValue} (h : m.entries.isEmpty = true) :
    m.mapKeyed readBack = .empty := by
  obtain ⟨entries, sorted⟩ := m
  obtain rfl : entries = [] := by simpa using h
  rfl

/-- A map that is written as a field unless it is empty. -/
theorem stringMap_optional {ref : String → RegistryValue → String}
    (href : ∀ key value, Renders key value → importValue (ref key value) = readBack key value)
    {m : OrdMap String RegistryValue} (h : ∀ e ∈ m.entries, Renders e.1 e.2) :
    stringMap (if m.entries.isEmpty then none else some (refObject ref m)) =
      m.mapKeyed readBack := by
  split_ifs with hempty
  · exact (mapKeyed_of_isEmpty hempty).symm
  · exact stringMap_refObject href h

theorem stringList_optional (items : List String) :
    stringList (if items.isEmpty then none else some (.array (items.map .string))) = items := by
  split_ifs with hempty
  · exact (List.isEmpty_iff.mp hempty).symm
  · exact stringList_strings items

theorem claudeCode_entryBack {entry : RegistryEntry} (h : OwnFields entry)
    (hcomplete : Complete entry) :
    ∃ value, ClaudeCode.entryValue entry = .ok value ∧
      ClaudeCode.entryFromValue value = some (entryBack entry) := by
  obtain ⟨transport, command, args, env, url, headers, entryMeta⟩ := entry
  cases transport with
  | stdio =>
    obtain ⟨hurl, hheaders, hvalues⟩ := h
    obtain ⟨command, rfl⟩ := Option.isSome_iff_exists.mp hcomplete
    dsimp only at hurl hheaders hvalues
    subst hurl hheaders
    refine ⟨_, rfl, ?_⟩
    have hread : ClaudeCode.entryFromValue (.object (("type", .string "stdio") ::
        ("command", .string command) ::
        ((if args.isEmpty then [] else [("args", .array (args.map .string))]) ++
          if env.entries.isEmpty then [] else [("env", refObject claudeRef env)]))) =
        some ⟨.stdio, some command,
          stringList (if args.isEmpty then none else some (.array (args.map .string))),
          stringMap (if env.entries.isEmpty then none else some (refObject claudeRef env)),
          none, .empty, {}⟩ := by
      split_ifs <;> rfl
    rw [stringMap_optional (fun _ _ => importValue_claudeRef) hvalues, stringList_optional] at hread
    exact hread
  | http =>
    obtain ⟨hcommand, hargs, henv, hvalues⟩ := h
    obtain ⟨url, rfl⟩ := Option.isSome_iff_exists.mp hcomplete
    dsimp only at hcommand hargs henv hvalues
    subst hcommand hargs henv
    refine ⟨_, rfl, ?_⟩
    have hread : ClaudeCode.entryFromValue (.object (("type", .string "http") ::
        ("url", .string url) ::
          if headers.entries.isEmpty then [] else [("headers", refObject claudeRef headers)])) =
        some ⟨.http, none, [], .empty, some url,
          stringMap (if headers.entries.isEmpty then none else some (refObject claudeRef headers)),
          {}⟩ := by
      split_ifs <;> rfl
    rw [stringMap_optional (fun _ _ => importValue_claudeRef) hvalues] at hread
    exact hread
  | sse => cases h

theorem openCode_entryBack {entry : RegistryEntry} (h : OwnFields entry)
    (hcomplete : Complete entry) :
    ∃ value, OpenCode.entryValue entry = .ok value ∧
      OpenCode.entryFromValue value = some (entryBack entry) := by
  obtain ⟨transport, command, args, env, url, headers, entryMeta⟩ := entry
  cases transport with
  | stdio =>
    obtain ⟨hurl, hheaders, hvalues⟩ := h
    obtain ⟨command, rfl⟩ := Option.isSome_iff_exists.mp hcomplete
    dsimp only at hurl hheaders hvalues
    subst hurl hheaders
    refine ⟨_, rfl, ?_⟩
    have hread : OpenCode.entryFromValue (.object (("type", .string "local") ::
        ("command", .array (.string command :: args.map .string)) ::
          if env.entries.isEmpty then [] else [("environment", refObject opencodeRef env)])) =
        some ⟨.stdio, some command, stringList (some (.array (args.map .string))),
          stringMap (if env.entries.isEmpty then none else some (refObject opencodeRef env)),
          none, .empty, {}⟩ := by
      split_ifs <;> rfl
    rw [stringMap_optional (fun _ _ => importValue_opencodeRef) hvalues, stringList_strings] at hread
    exact hread
  | http =>
    obtain ⟨hcommand, hargs, henv, hvalues⟩ := h
    obtain ⟨url, rfl⟩ := Option.isSome_iff_exists.mp hcomplete
    dsimp only at hcommand hargs henv hvalues
    subst hcommand hargs henv
    refine ⟨_, rfl, ?_⟩
    have hread : OpenCode.entryFromValue (.object (("type", .string "remote") ::
        ("url", .string url) ::
          if headers.entries.isEmpty then [] else [("headers", refObject opencodeRef headers)])) =
        some ⟨.http, none, [], .empty, some url,
          stringMap (if headers.entries.isEmpty then none else some (refObject opencodeRef headers)),
          {}⟩ := by
      split_ifs <;> rfl
    rw [stringMap_optional (fun _ _ => importValue_opencodeRef) hvalues] at hread
    exact hread
  | sse => cases h

/-! ## Documents -/

/-- The members of a JSON document outside of the server table: those of the root, and for
OpenCode those beside the table. -/
def outside (target : ProjectionTarget) (root : Members) : Members × Members :=
  match target with
  | .claudeCode => (root.filter (·.1 ≠ "mcpServers"), [])
  | .openCode =>
    (root.filter (·.1 ≠ "mcp"), ((JsonCst.object root "mcp").getD []).filter (·.1 ≠ "servers"))
  | .codex => (root.filter (·.1 ≠ "mcp_servers"), [])

section
variable {F : Formats} {target : ProjectionTarget} {text name : String} {entry : RegistryEntry}
  {root : Members} {value : Node}

/-- A put into a JSON document leaves what is outside of the server table. -/
theorem outside_putDoc (htarget : target ≠ .codex) (name : String) (value : Node)
    (root : Members) :
    ∃ root', putDoc target name value (.object root) = .ok (.object root') ∧
      outside target root' = outside target root := by
  cases target with
  | claudeCode => exact ⟨_, rfl, congrArg (·, []) filter_edit_of_ne⟩
  | openCode =>
    refine ⟨_, rfl, ?_⟩
    have hmcp : JsonCst.object (OpenCode.servers root fun servers => JsonCst.set servers name value)
        "mcp" = some (JsonCst.objectOrSet ((JsonCst.object root "mcp").getD []) "servers"
          fun servers => JsonCst.set servers name value) := by
      simp [JsonCst.object, OpenCode.servers, JsonCst.objectOrSet, lookup_edit, Node.asObject]
    simp only [outside, hmcp, Option.getD_some]
    exact congrArg₂ Prod.mk filter_edit_of_ne filter_edit_of_ne
  | codex => exact absurd rfl htarget

theorem entryNode_back (htarget : target ≠ .codex) (h : OwnFields entry)
    (hcomplete : Complete entry) :
    ∃ value, entryNode target entry = .ok value ∧
      readNode target value = some (entryBack entry) := by
  cases target with
  | claudeCode => exact claudeCode_entryBack h hcomplete
  | openCode => exact openCode_entryBack h hcomplete
  | codex => exact absurd rfl htarget

/-- A complete entry has a value, and only a complete one has. -/
theorem entryNode_iff_complete : (∃ value, entryNode target entry = .ok value) ↔ Complete entry := by
  obtain ⟨transport, command, args, env, url, headers, entryMeta⟩ := entry
  cases transport with
  | stdio =>
    cases command with
    | none => cases target <;> exact iff_of_false nofun nofun
    | some command => cases target <;> exact iff_of_true ⟨_, rfl⟩ rfl
  | http =>
    cases url with
    | none => cases target <;> exact iff_of_false nofun nofun
    | some url => cases target <;> exact iff_of_true ⟨_, rfl⟩ rfl
  | sse => cases target <;> exact iff_of_false nofun nofun

theorem OwnFields.transport_ne (h : OwnFields entry) : entry.transport ≠ .sse := by
  intro hsse
  simp [OwnFields, hsse] at h

theorem inject_of_put (htarget : target ≠ .codex) (hsse : entry.transport ≠ .sse)
    (hdoc : openDoc F target text = .ok (.object root))
    (hvalue : entryNode target entry = .ok value) {doc' : Node}
    (hput : putDoc target name value (.object root) = .ok doc') :
    (projectors F target).inject text name entry = .ok (printDoc F target text doc') := by
  cases target with
  | claudeCode =>
    have hparse : JsonCst.parse F (jsonSource text) false = .ok (.object root) := hdoc
    have hvalue : ClaudeCode.entryValue entry = .ok value := hvalue
    obtain rfl := Except.ok.inj hput
    simp [projectors, claudeCode, ClaudeCode.inject, injectJson, hsse, hparse, hvalue,
      JsonCst.rootObject, printDoc, bind, Except.bind, pure, Except.pure]
  | openCode =>
    have hparse : JsonCst.parse F (jsonSource text) true = .ok (.object root) := hdoc
    have hvalue : OpenCode.entryValue entry = .ok value := hvalue
    obtain rfl := Except.ok.inj hput
    simp [projectors, openCode, OpenCode.inject, injectJson, hsse, hparse, hvalue,
      JsonCst.rootObject, printDoc, bind, Except.bind, pure, Except.pure]
  | codex => exact absurd rfl htarget

/-- A JSON projector writes the complete entries and no others. It reads an entry back as it
wrote it, with the keychain account of the key for each secret, reads every other name as
before, and leaves every member outside of the server table. Only the table has to have each
name once. That the printed tree is parsed as the same tree is what the editor promises. -/
theorem inject_round_trip (hF : F.Sound) (htarget : target ≠ .codex)
    (hdoc : openDoc F target text = .ok (.object root))
    (hdistinct : ((serversOf target (.object root)).map Prod.fst).Nodup)
    (hlegacy : name ∉ (legacyOf target (.object root)).map Prod.fst) (hentry : OwnFields entry)
    (hback : ∀ value doc', entryNode target entry = .ok value →
      putDoc target name value (.object root) = .ok doc' →
      openDoc F target (printDoc F target text doc') = .ok doc') :
    ((∃ text', (projectors F target).inject text name entry = .ok text') ↔ Complete entry) ∧
    ∀ text', (projectors F target).inject text name entry = .ok text' →
      ∃ root' before after,
        (projectors F target).readEntries text = .ok before ∧
        (projectors F target).readEntries text' = .ok after ∧
        after.get name = some (entryBack entry) ∧
        (∀ x ≠ name, after.get x = before.get x) ∧
        openDoc F target text' = .ok (.object root') ∧
        outside target root' = outside target root := by
  refine ⟨⟨?_, ?_⟩, ?_⟩
  · rintro ⟨text', hinject⟩
    obtain ⟨doc, value, doc', -, hvalue, -, -⟩ := inject_eq_ok hinject
    exact entryNode_iff_complete.mp ⟨_, hvalue⟩
  · intro hcomplete
    obtain ⟨value, hvalue, -⟩ := entryNode_back htarget hentry hcomplete
    obtain ⟨root', hput, -⟩ := outside_putDoc htarget name value root
    exact ⟨_, inject_of_put htarget hentry.transport_ne hdoc hvalue hput⟩
  intro text' hinject
  obtain ⟨doc, value, doc', hdoc', hvalue, hput, rfl⟩ := inject_eq_ok hinject
  obtain rfl : Node.object root = doc := Except.ok.inj (hdoc.symm.trans hdoc')
  obtain ⟨value', hvalue', hread⟩ :=
    entryNode_back htarget hentry (entryNode_iff_complete.mp ⟨_, hvalue⟩)
  obtain rfl : value = value' := Except.ok.inj (hvalue.symm.trans hvalue')
  obtain ⟨root', hput', houtside⟩ := outside_putDoc htarget name value root
  obtain rfl : doc' = .object root' := Except.ok.inj (hput.symm.trans hput')
  have hopen := hback value (.object root') hvalue hput
  obtain ⟨before, hbefore, hgetBefore⟩ := readEntries_eq hF hdoc
  obtain ⟨after, hafter, hgetAfter⟩ := readEntries_eq hF hopen
  have hservers := distinctServers_of_openDoc hF hdoc
  have hclear : ¬ Shadowed target (.object root) name := by
    rintro (hshadow | hhidden)
    · obtain ⟨entry', hlookup⟩ := Option.isSome_iff_exists.mp hshadow
      obtain ⟨l₁, l₂, heq, -⟩ := List.lookup_eq_some_iff.mp hlookup
      refine hlegacy (List.mem_map.mpr ⟨(name, entry'), ?_, rfl⟩)
      rw [← List.mem_reverse, heq]
      exact List.mem_append_right _ List.mem_cons_self
    · rw [hidden_of_nodup hdistinct] at hhidden
      cases hhidden
  refine ⟨root', before, after, hbefore, hafter, ?_, ?_, hopen, houtside⟩
  · rw [hgetAfter, (docRead_putDoc hservers hput).2 hclear, hread]
  · intro x hx
    rw [hgetAfter, hgetBefore, docRead_putDoc_of_ne hservers hput hx]

end

/-! ## A Claude Code file -/

/-- A file with a theme and no servers. -/
def themed : String := "\x7b\n  \"theme\": \"dark\"\n\x7d"

/-- The file after `github` was written, from its second line on. -/
def githubLines : String :=
  "  \"theme\": \"dark\",\n  \"mcpServers\": \x7b\n    \"github\": \x7b\n" ++
  "      \"type\": \"stdio\",\n      \"command\": \"github-mcp-server\",\n" ++
  "      \"args\": [\"stdio\"],\n      \"env\": \x7b\n" ++
  "        \"GITHUB_TOKEN\": \"$\x7bGITHUB_TOKEN\x7d\"\n      \x7d\n    \x7d\n  \x7d\n\x7d"

def themedWithGithub : String := "\x7b\n" ++ githubLines

def githubEntry : RegistryEntry where
  transport := .stdio
  command := some "github-mcp-server"
  args := ["stdio"]
  env := OrdMap.empty.insert "GITHUB_TOKEN" (.secret "keychain:tethys/github")

/-- The document of `themedWithGithub`. -/
def themedDocument : Node :=
  .object [("theme", .string "dark"), ("mcpServers", .object [("github", .object [
    ("type", .string "stdio"), ("command", .string "github-mcp-server"),
    ("args", .array [.string "stdio"]),
    ("env", refObject claudeRef githubEntry.env)])])]

/-- The formats on a JSON file before and after an edit. -/
def editedFormats (original printed : String) (doc doc' : Node) : Formats where
  json _ := {
    parse := fun text =>
      if text = original then .ok doc
      else if text = printed then .ok doc'
      else if text = "\x7b\x7d" then .ok (.object [])
      else .error "unexpected token"
    print := fun _ _ => printed }
  toml := ⟨fun _ => .error "no document", fun text _ => text⟩
  patch _ after := after

section
variable {original printed : String} {doc doc' : Node}

theorem editedFormats_sound (horiginal : original ≠ "\x7b\x7d") (hprinted : printed ≠ "\x7b\x7d") :
    (editedFormats original printed doc doc').Sound where
  emptyObject _ := by simp [editedFormats, horiginal.symm, hprinted.symm]
  distinctKeys _ _ h := nomatch h
  lossless _ _ h := nomatch h

theorem openDoc_original (hblank : blank original = false) :
    openDoc (editedFormats original printed doc doc') .claudeCode original = .ok doc := by
  simp [openDoc, JsonCst.parse, jsonSource, hblank, editedFormats, Except.mapError]

theorem openDoc_printed (hblank : blank printed = false) (hne : printed ≠ original) :
    openDoc (editedFormats original printed doc doc') .claudeCode printed = .ok doc' := by
  simp [openDoc, JsonCst.parse, jsonSource, hblank, hne, editedFormats, Except.mapError]

end

theorem blank_append (text rest : String) : blank (text ++ rest) = (blank text && blank rest) := by
  simp [blank]

def themedFormats : Formats :=
  editedFormats themed themedWithGithub (.object [("theme", .string "dark")]) themedDocument

theorem inject_round_trip_github :
    ((∃ text', (projectors themedFormats .claudeCode).inject themed "github" githubEntry =
      .ok text') ↔ Complete githubEntry) ∧
    ∀ text', (projectors themedFormats .claudeCode).inject themed "github" githubEntry =
        .ok text' →
      ∃ root' before after,
        (projectors themedFormats .claudeCode).readEntries themed = .ok before ∧
        (projectors themedFormats .claudeCode).readEntries text' = .ok after ∧
        after.get "github" = some (entryBack githubEntry) ∧
        (∀ x ≠ "github", after.get x = before.get x) ∧
        openDoc themedFormats .claudeCode text' = .ok (.object root') ∧
        outside .claudeCode root' = outside .claudeCode [("theme", .string "dark")] := by
  have hsound : themedFormats.Sound :=
    editedFormats_sound (by decide +kernel) (by decide +kernel)
  have hentry : OwnFields githubEntry := by
    refine ⟨rfl, rfl, fun e he => ?_⟩
    obtain rfl := List.mem_singleton.mp he
    change ¬ [':', '-'] <:+: "GITHUB_TOKEN".toList
    decide +kernel
  refine inject_round_trip hsound (by decide) (openDoc_original (by decide +kernel))
    List.nodup_nil List.not_mem_nil hentry ?_
  intro value doc' hvalue hput
  obtain rfl := Except.ok.inj hvalue
  obtain rfl := Except.ok.inj hput
  have hbrace : blank "\x7b\n" = false := by decide +kernel
  have hblank : blank themedWithGithub = false :=
    (blank_append _ _).trans (Bool.and_eq_false_imp.mpr fun h => nomatch hbrace.symm.trans h)
  exact openDoc_printed hblank (by decide +kernel)

end Tethys.Sync
