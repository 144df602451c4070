import Tethys.Lib.Results
import Tethys.Sync.Projection

/-!
# What an injection changes

The `inject` of each projector, seen as an edit of the document: it changes the one server
entry it finds under its name, or adds one, and leaves every other entry of the file where
and as it is.
-/

namespace Tethys.Sync

open Schema Lib

/-- The document that the projector of a target edits. -/
def openDoc (F : Formats) (target : ProjectionTarget) (text : String) : Except SyncError Node :=
  match target with
  | .claudeCode => JsonCst.parse F (jsonSource text) false
  | .openCode => JsonCst.parse F (jsonSource text) true
  | .codex => (Codex.document F text).map .table

/-- The text of an edited document. -/
def printDoc (F : Formats) (target : ProjectionTarget) (text : String) (doc : Node) : String :=
  match target with
  | .claudeCode => (F.json false).print (jsonSource text) doc
  | .openCode => (F.json true).print (jsonSource text) doc
  | .codex => F.toml.print text (doc.asTable.getD [])

/-- The value a target writes for an entry. -/
def entryNode (target : ProjectionTarget) (entry : RegistryEntry) : Except SyncError Node :=
  match target with
  | .claudeCode => ClaudeCode.entryValue entry
  | .openCode => OpenCode.entryValue entry
  | .codex => (Codex.entryTable entry).map .table

/-- Put a value under a name of the server table. -/
def putDoc (target : ProjectionTarget) (name : String) (value doc : Node) : Except SyncError Node :=
  match target, doc with
  | .claudeCode, .object root =>
    .ok (.object (ClaudeCode.servers root fun servers => JsonCst.set servers name value))
  | .openCode, .object root =>
    .ok (.object (OpenCode.servers root fun servers => JsonCst.set servers name value))
  | .codex, .table root =>
    (Toml.tableOrInsert root "mcp_servers" fun servers =>
      .ok (insertSorted name value servers)).map .table
  | _, _ => .error (.registry "root must be a JSON object")

theorem injectJson_eq_ok {F : Formats} {loose : Bool} {label : String}
    {place : Members → (Members → Members) → Members}
    {entryValue : RegistryEntry → Except SyncError Node} {text name text' : String}
    {entry : RegistryEntry}
    (h : injectJson F loose label place entryValue text name entry = .ok text') :
    ∃ root value, JsonCst.parse F (jsonSource text) loose = .ok (.object root) ∧
      entryValue entry = .ok value ∧
      text' = (F.json loose).print (jsonSource text)
        (.object (place root fun servers => JsonCst.set servers name value)) := by
  unfold injectJson at h
  split_ifs at h with hsse
  obtain ⟨doc, hdoc, h⟩ := bind_eq_ok h
  obtain ⟨root, hroot, h⟩ := bind_eq_ok h
  obtain ⟨value, hvalue, h⟩ := bind_eq_ok h
  cases doc with
  | object members =>
    obtain rfl := Except.ok.inj hroot
    exact ⟨members, value, hdoc, hvalue, (Except.ok.inj h).symm⟩
  | _ => exact nomatch hroot

theorem tableOrInsert_eq_ok {doc doc' : Members} {key name : String}
    {table : Except SyncError Members}
    (h : Toml.tableOrInsert doc key (fun servers =>
      table.map fun table => insertSorted name (.table table) servers) = .ok doc') :
    ∃ members, table = .ok members ∧
      Toml.tableOrInsert doc key (fun servers => .ok (insertSorted name (.table members) servers)) =
        .ok doc' := by
  cases table with
  | ok members => exact ⟨members, rfl, h⟩
  | error error =>
    unfold Toml.tableOrInsert at h
    split at h <;> exact nomatch h

/-- An injection opens the document, puts the value of the entry and prints the result. -/
theorem inject_eq_ok {F : Formats} {target : ProjectionTarget} {text name text' : String}
    {entry : RegistryEntry} (h : (projectors F target).inject text name entry = .ok text') :
    ∃ doc value doc', openDoc F target text = .ok doc ∧ entryNode target entry = .ok value ∧
      putDoc target name value doc = .ok doc' ∧ text' = printDoc F target text doc' := by
  cases target with
  | claudeCode =>
    obtain ⟨root, value, hparse, hvalue, rfl⟩ := injectJson_eq_ok h
    exact ⟨.object root, value, _, hparse, hvalue, rfl, rfl⟩
  | openCode =>
    obtain ⟨root, value, hparse, hvalue, rfl⟩ := injectJson_eq_ok h
    exact ⟨.object root, value, _, hparse, hvalue, rfl, rfl⟩
  | codex =>
    change Codex.inject F text name entry = .ok text' at h
    unfold Codex.inject at h
    split_ifs at h with hsse
    obtain ⟨doc, hdoc, h⟩ := bind_eq_ok h
    obtain ⟨doc', hdoc', h⟩ := bind_eq_ok h
    obtain ⟨table, htable, hput⟩ := tableOrInsert_eq_ok hdoc'
    refine ⟨.table doc, .table table, .table doc', ?_, ?_, ?_, (Except.ok.inj h).symm⟩
    · simp [openDoc, hdoc, Except.map]
    · simp [entryNode, htable, Except.map]
    · simp [putDoc, hput, Except.map]

/-! ## The server entries of a document -/

/-- Where an entry stands: by its index on each level of a JSON document, also among the
legacy entries of OpenCode, or by its key in a TOML document. -/
inductive Place where
  | index (path : List Nat)
  | legacy (path : List Nat)
  | key (name : String)
  deriving DecidableEq

/-- The server table of Codex, however it is written. -/
def codexServers (root : Members) : Members :=
  match root.lookup "mcp_servers" with
  | some (.table servers) | some (.object servers) => servers
  | _ => []

/-- Name and value of the server entry at a place. -/
def entryOf (target : ProjectionTarget) (doc : Node) (place : Place) : Option (String × Node) :=
  match target, doc, place with
  | .claudeCode, .object root, .index path => entryAt Node.asObject ["mcpServers"] root path
  | .openCode, .object root, .index path => entryAt Node.asObject ["mcp", "servers"] root path
  | .openCode, .object root, .legacy path =>
    (entryAt Node.asObject ["mcp"] root path).filter fun e => e.1 ≠ "servers"
  | .codex, .table root, .key name => ((codexServers root).lookup name).map fun v => (name, v)
  | _, _, _ => none

/-- The place of the entry that an injection under this name changes. -/
def slotOf (target : ProjectionTarget) (doc : Node) (name : String) : Option Place :=
  match target, doc with
  | .claudeCode, .object root => (slotAt Node.asObject name ["mcpServers"] root).map .index
  | .openCode, .object root => (slotAt Node.asObject name ["mcp", "servers"] root).map .index
  | .codex, .table root => ((codexServers root).lookup name).map fun _ => .key name
  | _, _ => none

section Frame
variable {target : ProjectionTarget} {name x : String} {value doc doc' : Node} {place : Place}
  {e : String × Node}

theorem asObject_object (members : Members) : (Node.object members).asObject = some members := rfl

theorem claudeCode_servers (root : Members) (name : String) (value : Node) :
    ClaudeCode.servers root (fun servers => JsonCst.set servers name value) =
      editAt Node.asObject .object name (fun _ => value) ["mcpServers"] root := rfl

theorem openCode_servers (root : Members) (name : String) (value : Node) :
    OpenCode.servers root (fun servers => JsonCst.set servers name value) =
      editAt Node.asObject .object name (fun _ => value) ["mcp", "servers"] root := rfl

/-- Seen from the legacy entries, an injection changes the member `servers`. -/
theorem openCode_mcp (root : Members) (name : String) (value : Node) :
    OpenCode.servers root (fun servers => JsonCst.set servers name value) =
      editAt Node.asObject .object "servers"
        (fun v => .object (JsonCst.set ((v.bind Node.asObject).getD []) name value)) ["mcp"] root :=
  rfl

theorem entryOf_slotOf (h : slotOf target doc name = some place) :
    ∃ v, entryOf target doc place = some (name, v) := by
  unfold slotOf at h
  split at h
  case h_1 | h_2 =>
    obtain ⟨path, hpath, rfl⟩ := Option.map_eq_some_iff.mp h
    exact entryAt_slotAt hpath
  case h_3 =>
    obtain ⟨v, hv, rfl⟩ := Option.map_eq_some_iff.mp h
    exact ⟨v, by simp [entryOf, hv]⟩
  case h_4 => exact nomatch h

/-- A Codex document after a successful put. -/
theorem putDoc_codex {root : Members} (h : putDoc .codex name value (.table root) = .ok doc') :
    ∃ root', doc' = .table root' ∧
      codexServers root' = insertSorted name value (codexServers root) := by
  obtain ⟨root', hroot, rfl⟩ := map_eq_ok h
  refine ⟨root', rfl, ?_⟩
  unfold Toml.tableOrInsert at hroot
  split at hroot
  case h_1 hnone =>
    obtain rfl := Except.ok.inj hroot
    simp [codexServers, hnone]
  case h_2 table hsome =>
    obtain rfl := Except.ok.inj hroot
    simp [codexServers, hsome]
  case h_3 => exact nomatch hroot

/-- A put changes the entry it finds under its name and no other. -/
theorem entryOf_putDoc (h : putDoc target name value doc = .ok doc')
    (he : entryOf target doc place = some e) :
    entryOf target doc' place =
      some (if slotOf target doc name = some place then (name, value) else e) := by
  unfold entryOf at he
  split at he
  case h_1 root path =>
    obtain rfl := Except.ok.inj h
    simpa [entryOf, slotOf, claudeCode_servers] using
      entryAt_editAt (k := name) (f := fun _ => value) asObject_object he
  case h_2 root path =>
    obtain rfl := Except.ok.inj h
    simpa [entryOf, slotOf, openCode_servers] using
      entryAt_editAt (k := name) (f := fun _ => value) asObject_object he
  case h_3 root path =>
    obtain rfl := Except.ok.inj h
    obtain ⟨hentry, hname⟩ := Option.filter_eq_some_iff.mp he
    have hother : slotAt Node.asObject "servers" ["mcp"] root ≠ some path := by
      intro hslot
      obtain ⟨v, hv⟩ := entryAt_slotAt hslot
      simp [Option.some.inj (hentry.symm.trans hv)] at hname
    have hkept := entryAt_editAt (k := "servers")
      (f := fun v => .object (JsonCst.set ((v.bind Node.asObject).getD []) name value))
      asObject_object hentry
    rw [if_neg hother, ← openCode_mcp] at hkept
    simp only [entryOf, hkept]
    simpa [slotOf] using hname
  case h_4 root key =>
    obtain ⟨root', rfl, hservers⟩ := putDoc_codex h
    obtain ⟨v, hv, rfl⟩ := Option.map_eq_some_iff.mp he
    by_cases hkey : key = name
    · subst hkey
      simp [entryOf, slotOf, hservers, hv]
    · simp [entryOf, slotOf, hservers, hkey, hv, Ne.symm hkey]
  case h_5 => cases he

/-- A put leaves every entry that later ones would find where it is. -/
theorem slotOf_putDoc (h : putDoc target name value doc = .ok doc')
    (hx : slotOf target doc x = some place) : slotOf target doc' x = some place := by
  unfold slotOf at hx
  split at hx
  case h_1 root =>
    obtain rfl := Except.ok.inj h
    obtain ⟨path, hpath, rfl⟩ := Option.map_eq_some_iff.mp hx
    exact congrArg (Option.map Place.index) (slotAt_editAt asObject_object hpath)
  case h_2 root =>
    obtain rfl := Except.ok.inj h
    obtain ⟨path, hpath, rfl⟩ := Option.map_eq_some_iff.mp hx
    exact congrArg (Option.map Place.index) (slotAt_editAt asObject_object hpath)
  case h_3 root =>
    obtain ⟨root', rfl, hservers⟩ := putDoc_codex h
    obtain ⟨v, hv, rfl⟩ := Option.map_eq_some_iff.mp hx
    by_cases hkey : x = name <;> simp [slotOf, hservers, hkey, hv]
  case h_4 => exact nomatch hx

/-- A put makes no other old entry the one that later ones would find. -/
theorem slotOf_of_putDoc (h : putDoc target name value doc = .ok doc')
    (hx : slotOf target doc' x = some place) (he : entryOf target doc place = some e) :
    slotOf target doc x = some place := by
  unfold entryOf at he
  split at he
  case h_1 root path =>
    obtain rfl := Except.ok.inj h
    obtain ⟨path', hpath, hplace⟩ := Option.map_eq_some_iff.mp hx
    obtain rfl := Place.index.inj hplace
    exact congrArg (Option.map Place.index) (slotAt_of_editAt asObject_object hpath he)
  case h_2 root path =>
    obtain rfl := Except.ok.inj h
    obtain ⟨path', hpath, hplace⟩ := Option.map_eq_some_iff.mp hx
    obtain rfl := Place.index.inj hplace
    exact congrArg (Option.map Place.index) (slotAt_of_editAt asObject_object hpath he)
  case h_3 root path =>
    obtain rfl := Except.ok.inj h
    simp [slotOf] at hx
  case h_4 root key =>
    obtain ⟨root', rfl, -⟩ := putDoc_codex h
    obtain ⟨v, hv, -⟩ := Option.map_eq_some_iff.mp he
    obtain ⟨-, -, hplace⟩ := Option.map_eq_some_iff.mp hx
    obtain rfl := Place.key.inj hplace
    simp [slotOf, hv]
  case h_5 => cases he

end Frame

end Tethys.Sync
