import Tethys.Sync.Ownership

/-!
# What is read back

`read_entries` of each projector, seen as a reading of the document, and what it gives after
an injection. A reader goes by names: the last object of a name counts, and for OpenCode an
entry of the flat legacy shape comes before one in `servers`. Such an entry shadows the one
that an injection writes.
-/

namespace Tethys.Sync

open Schema Lib

/-- What the format libraries promise about the texts they accept: an empty object is one,
a TOML table has each key once, and a document that is printed unchanged keeps its text. -/
structure Formats.Sound (F : Formats) : Prop where
  emptyObject : ∀ loose, (F.json loose).parse "\x7b\x7d" = .ok (.object [])
  distinctKeys : ∀ text doc, F.toml.parse text = .ok doc →
    doc.Pairwise (fun a b => a.1 < b.1) ∧
    ∀ servers, doc.lookup "mcp_servers" = some (.table servers) →
      servers.Pairwise fun a b => a.1 < b.1
  lossless : ∀ text doc, F.toml.parse text = .ok doc → F.toml.print text doc = text

/-! ## The entries of a document -/

/-- The server table that a target reads. -/
def serversOf (target : ProjectionTarget) (doc : Node) : Members :=
  match target with
  | .claudeCode => (doc.asObject.bind (JsonCst.object · "mcpServers")).getD []
  | .openCode =>
    ((doc.asObject.bind (JsonCst.object · "mcp")).bind (JsonCst.object · "servers")).getD []
  | .codex => ((doc.asTable.bind (·.lookup "mcp_servers")).bind Node.asTable).getD []

/-- The flat entries that come before those of the server table. -/
def legacyOf (target : ProjectionTarget) (doc : Node) : List (String × RegistryEntry) :=
  match target with
  | .openCode => OpenCode.legacyEntries ((doc.asObject.bind (JsonCst.object · "mcp")).getD [])
  | _ => []

/-- The entry that a target reads under a name of a document. -/
def docRead (target : ProjectionTarget) (doc : Node) (name : String) : Option RegistryEntry :=
  ((legacyOf target doc).reverse.lookup name).or
    (lastRead (readNode target) name (serversOf target doc))

/-- What is written under the name is not what is read under it. -/
def Shadowed (target : ProjectionTarget) (doc : Node) (name : String) : Prop :=
  ((legacyOf target doc).reverse.lookup name).isSome ∨
    hidden (readNode target) name (serversOf target doc) = true

theorem get_ofList_readable (target : ProjectionTarget) (servers : Members) (name : String) :
    (OrdMap.ofList (servers.filterMap fun e =>
      (readNode target e.2).map fun entry => (e.1, entry))).get name =
      lastRead (readNode target) name servers := by
  rw [OrdMap.ofList, OrdMap.get_extend, OrdMap.get_empty, Option.or_none]
  rfl

section Read
variable {F : Formats} {target : ProjectionTarget} {text name x : String}
  {doc doc' value : Node}

/-- A blank text opens as a document without entries. -/
theorem docRead_of_blank (hF : F.Sound) (hblank : blank text)
    (hdoc : openDoc F target text = .ok doc) (name : String) : docRead target doc name = none := by
  cases target with
  | claudeCode | openCode =>
    simp only [openDoc, jsonSource, hblank, if_true, JsonCst.parse, hF.emptyObject] at hdoc
    obtain rfl := Except.ok.inj hdoc
    rfl
  | codex =>
    simp only [openDoc, Codex.document, hblank, if_true, Except.map] at hdoc
    obtain rfl := Except.ok.inj hdoc
    rfl

/-- Reading a text gives the entries of its document. -/
theorem readEntries_of_visible (hblank : blank text = false)
    (hdoc : openDoc F target text = .ok doc) :
    ∃ entries, (projectors F target).readEntries text = .ok entries ∧
      ∀ name, entries.get name = docRead target doc name := by
  cases target with
  | claudeCode =>
    simp only [openDoc, jsonSource, hblank, Bool.false_eq_true, if_false] at hdoc
    simp only [projectors, claudeCode, ClaudeCode.readEntries, hblank, Bool.false_eq_true, if_false,
      hdoc, bind, Except.bind, docRead, serversOf, legacyOf]
    cases doc.asObject.bind (JsonCst.object · "mcpServers") with
    | none => exact ⟨.empty, rfl, fun _ => rfl⟩
    | some servers => exact ⟨_, rfl, get_ofList_readable .claudeCode servers⟩
  | openCode =>
    simp only [openDoc, jsonSource, hblank, Bool.false_eq_true, if_false] at hdoc
    simp only [projectors, openCode, OpenCode.readEntries, hblank, Bool.false_eq_true, if_false,
      hdoc, bind, Except.bind, docRead, serversOf, legacyOf]
    cases doc.asObject.bind (JsonCst.object · "mcp") with
    | none => exact ⟨.empty, rfl, fun _ => rfl⟩
    | some mcp =>
      refine ⟨_, rfl, fun name => ?_⟩
      rw [OrdMap.get_extend]
      congr 1
      exact get_ofList_readable .openCode _ name
  | codex =>
    obtain ⟨root, hroot, rfl⟩ := map_eq_ok hdoc
    simp only [Codex.document, hblank, Bool.false_eq_true, if_false] at hroot
    simp only [projectors, codex, Codex.readEntries, hblank, Bool.false_eq_true, if_false,
      hroot, bind, Except.bind, docRead, serversOf, legacyOf, Node.asTable, Option.bind]
    cases root.lookup "mcp_servers" with
    | none => exact ⟨.empty, rfl, fun _ => rfl⟩
    | some value =>
      cases value with
      | table servers =>
        refine ⟨_, rfl, fun name => ?_⟩
        refine Eq.trans ?_ (get_ofList_readable .codex servers name)
        congr 3
        funext e
        cases e.2 <;> rfl
      | _ => exact ⟨.empty, rfl, fun _ => rfl⟩

theorem readEntries_eq (hF : F.Sound) (hdoc : openDoc F target text = .ok doc) :
    ∃ entries, (projectors F target).readEntries text = .ok entries ∧
      ∀ name, entries.get name = docRead target doc name := by
  cases hblank : blank text with
  | true =>
    refine ⟨.empty, readEntries_of_blank hblank, fun name => ?_⟩
    rw [docRead_of_blank hF hblank hdoc, OrdMap.get_empty]
  | false => exact readEntries_of_visible hblank hdoc

theorem entriesRead_get (hF : F.Sound) (hdoc : openDoc F target text = .ok doc) (name : String) :
    (entriesRead F target text).get name = docRead target doc name := by
  obtain ⟨entries, hread, hget⟩ := readEntries_eq hF hdoc
  rw [entriesRead, hread]
  exact hget name

/-- A text that can be read can be opened. -/
theorem openDoc_of_readEntries {entries : OrdMap String RegistryEntry} (hF : F.Sound)
    (h : (projectors F target).readEntries text = .ok entries) :
    ∃ doc, openDoc F target text = .ok doc := by
  cases hblank : blank text with
  | true =>
    cases target <;>
      simp [openDoc, jsonSource, hblank, JsonCst.parse, hF.emptyObject, Except.mapError,
        Codex.document, Except.map]
  | false =>
    cases target with
    | claudeCode =>
      simp only [projectors, claudeCode, ClaudeCode.readEntries, hblank, Bool.false_eq_true,
        if_false] at h
      obtain ⟨doc, hdoc, _⟩ := bind_eq_ok h
      exact ⟨doc, by simpa [openDoc, jsonSource, hblank] using hdoc⟩
    | openCode =>
      simp only [projectors, openCode, OpenCode.readEntries, hblank, Bool.false_eq_true,
        if_false] at h
      obtain ⟨doc, hdoc, _⟩ := bind_eq_ok h
      exact ⟨doc, by simpa [openDoc, jsonSource, hblank] using hdoc⟩
    | codex =>
      simp only [projectors, codex, Codex.readEntries, hblank, Bool.false_eq_true, if_false] at h
      obtain ⟨doc, hdoc, _⟩ := bind_eq_ok h
      exact ⟨.table doc, by simp [openDoc, Codex.document, hblank, hdoc, Except.map]⟩

/-! ## Reading after an injection -/

/-- Put a value under a name of a server table, as the format of the target does. -/
def putServer (target : ProjectionTarget) (name : String) (value : Node) (servers : Members) :
    Members :=
  match target with
  | .codex => insertSorted name value servers
  | _ => edit name (fun _ => value) servers

theorem serversOf_putDoc (h : putDoc target name value doc = .ok doc') :
    serversOf target doc' = putServer target name value (serversOf target doc) := by
  unfold putDoc at h
  split at h
  case h_1 root =>
    obtain rfl := Except.ok.inj h
    simp [serversOf, putServer, Node.asObject, JsonCst.object, ClaudeCode.servers,
      JsonCst.objectOrSet, JsonCst.set, lookup_edit]
  case h_2 root =>
    obtain rfl := Except.ok.inj h
    cases hmcp : (root.lookup "mcp").bind Node.asObject <;>
      simp [serversOf, putServer, Node.asObject, JsonCst.object, OpenCode.servers,
        JsonCst.objectOrSet, JsonCst.set, lookup_edit, hmcp]
  case h_3 root =>
    obtain ⟨root', hroot, rfl⟩ := map_eq_ok h
    unfold Toml.tableOrInsert at hroot
    split at hroot
    case h_1 hnone =>
      obtain rfl := Except.ok.inj hroot
      simp [serversOf, putServer, Node.asTable, hnone]
    case h_2 table hsome =>
      obtain rfl := Except.ok.inj hroot
      simp [serversOf, putServer, Node.asTable, hsome]
    case h_3 => cases hroot
  case h_4 => cases h

/-- An injection leaves the flat entries. -/
theorem legacyOf_putDoc (h : putDoc target name value doc = .ok doc') :
    legacyOf target doc' = legacyOf target doc := by
  unfold putDoc at h
  split at h
  case h_1 | h_3 => rfl
  case h_2 root =>
    obtain rfl := Except.ok.inj h
    have hmcp : JsonCst.object (OpenCode.servers root fun servers => JsonCst.set servers name value)
        "mcp" = some (JsonCst.objectOrSet ((JsonCst.object root "mcp").getD []) "servers"
          fun servers => JsonCst.set servers name value) := by
      simp [JsonCst.object, OpenCode.servers, JsonCst.objectOrSet, lookup_edit, Node.asObject]
    simp only [legacyOf, Node.asObject, Option.bind_some, hmcp, Option.getD_some,
      OpenCode.legacyEntries, JsonCst.objectOrSet, filter_edit_of_ne]
  case h_4 => exact nomatch h

/-- The keys of a Codex server table are distinct. -/
def DistinctServers (target : ProjectionTarget) (doc : Node) : Prop :=
  target = .codex → (serversOf target doc).Pairwise fun a b => a.1 < b.1

theorem distinctServers_of_openDoc (hF : F.Sound) (hdoc : openDoc F target text = .ok doc) :
    DistinctServers target doc := by
  rintro rfl
  obtain ⟨root, hroot, rfl⟩ := map_eq_ok hdoc
  unfold Codex.document at hroot
  split_ifs at hroot
  · obtain rfl := Except.ok.inj hroot
    exact .nil
  · have hparse : F.toml.parse text = .ok root := by
      unfold Toml.parse at hroot
      cases hp : F.toml.parse text with
      | error message => rw [hp] at hroot; exact nomatch hroot
      | ok doc => rw [hp] at hroot; exact congrArg _ (Except.ok.inj hroot)
    change (((root.lookup "mcp_servers").bind Node.asTable).getD []).Pairwise _
    cases hs : root.lookup "mcp_servers" with
    | none => exact .nil
    | some value =>
      cases value with
      | table servers => exact (hF.distinctKeys text root hparse).2 servers hs
      | _ => exact .nil

theorem docRead_putDoc_of_ne (hs : DistinctServers target doc)
    (h : putDoc target name value doc = .ok doc') (hx : x ≠ name) :
    docRead target doc' x = docRead target doc x := by
  rw [docRead, docRead, legacyOf_putDoc h, serversOf_putDoc h]
  congr 1
  cases target with
  | codex =>
    rw [putServer, lastRead_insertSorted (hs rfl), if_neg hx]
  | _ => exact lastRead_edit_of_ne hx

theorem shadowed_putDoc_of_ne (hs : DistinctServers target doc)
    (h : putDoc target name value doc = .ok doc') (hx : x ≠ name) :
    Shadowed target doc' x ↔ Shadowed target doc x := by
  rw [Shadowed, Shadowed, legacyOf_putDoc h, serversOf_putDoc h]
  cases target with
  | codex =>
    rw [putServer, hidden_of_sorted (hs rfl), hidden_of_sorted (pairwise_insertSorted _ _ (hs rfl))]
  | _ => rw [putServer, hidden_edit_of_ne hx]; nofun

/-- What is read under the name of an injection: its value, or what shadows it. -/
theorem docRead_putDoc (hs : DistinctServers target doc)
    (h : putDoc target name value doc = .ok doc') :
    (Shadowed target doc name → docRead target doc' name = docRead target doc name) ∧
      (¬ Shadowed target doc name → docRead target doc' name = readNode target value) := by
  rw [docRead, docRead, legacyOf_putDoc h, serversOf_putDoc h, Shadowed]
  cases hlegacy : (legacyOf target doc).reverse.lookup name with
  | some entry => simp
  | none =>
    cases target with
    | codex =>
      rw [putServer, lastRead_insertSorted (hs rfl), hidden_of_sorted (hs rfl)]
      simp
    | claudeCode | openCode =>
      rw [putServer, lastRead_edit]
      · grind
      · simp

end Read

end Tethys.Sync
