import Mathlib.Data.List.Permutation
import Tethys.Core.Mcp
import Tethys.Lib.Updates

/-!
# Concurrent registry updates

`mcp_registry_set`, `mcp_registry_delete` and `mcp_import_apply` read the whole registry file,
change it in memory and write it back. Only the write is atomic: nothing holds the file
between the two, and nothing compares it with what was read, as `projection::apply` does. So
a call also writes back every entry that it only read. `registry_updates_in_order` says when
that does no harm.
-/

namespace Tethys.Core

open Schema Lib Sync

/-! ## The calls -/

/-- What `apply_import` uses of a candidate. -/
structure ImportCandidate where
  name : String
  entry : RegistryEntry

/-- A call that changes a registry file. -/
inductive RegistryUpdate where
  | mcpRegistrySet (name : String) (entry : RegistryEntry) (scope : Scope)
  | mcpRegistryDelete (name : String)
  | mcpImportApply (selection : List ImportCandidate) (scope : Scope)

inductive UpdateReply where
  | set
  | removed (removed : Bool)
  | imported (names : List String)
  deriving DecidableEq

/-- What `read_registry` gives on a file. -/
abbrev RegistryRead := Except SyncError (Option RegistryFile)

abbrev UpdateStage := Stage RegistryRead ApiError UpdateReply

/-- What is read after `write_registry`. -/
def written (file : RegistryFile) : RegistryRead := .ok (some file.migrated)

theorem readRegistry_writeRegistry {S : SerdeJson} {file : RegistryFile} (hS : S.PrintsBack file)
    (disk : Disk) (path : String) (backup : Option Nat) :
    readRegistry S (writeRegistry S disk path file backup) path = written file := by
  refine readRegistry_text hS ?_
  rw [writeRegistry_files, if_pos rfl]

def mcpRegistrySet (name : String) (entry : RegistryEntry) (scope : Scope)
    (read : Option RegistryFile) : UpdateStage :=
  let file := read.getD {}
  let entry := { entry with entryMeta.scope := some scope }
  .writing (written { file with mcpServers := file.mcpServers.insert name entry }) .set

/-- An entry that is not there leaves the file unwritten. -/
def mcpRegistryDelete (name : String) (read : Option RegistryFile) : UpdateStage :=
  match read with
  | none => .returned (.ok (.removed false))
  | some file =>
    if (file.mcpServers.get name).isSome then
      .writing (written { file with mcpServers := file.mcpServers.erase name }) (.removed true)
    else .returned (.ok (.removed false))

/-- The entry that a candidate is stored as. -/
def ImportCandidate.stored (scope : Scope) (candidate : ImportCandidate) : RegistryEntry :=
  { candidate.entry with
    entryMeta := { candidate.entry.entryMeta with scope := some scope, enabled := true } }

def applyImport (selection : List ImportCandidate) (scope : Scope) (read : Option RegistryFile) :
    UpdateStage :=
  let file := read.getD {}
  let servers := file.mcpServers.extend (selection.map fun c => (c.name, c.stored scope))
  .writing (written { file with mcpServers := servers }) (.imported (selection.map (·.name)))

/-- What a call does with what it reads. -/
def afterRead (update : RegistryUpdate) : RegistryRead → UpdateStage
  | .error error => .returned (.error (.internal error))
  | .ok read =>
    match update with
    | .mcpRegistrySet name entry scope => mcpRegistrySet name entry scope read
    | .mcpRegistryDelete name => mcpRegistryDelete name read
    | .mcpImportApply selection scope => applyImport selection scope read

/-- The registry file and the calls on it. -/
abbrev RegistryCalls := Updating RegistryRead RegistryUpdate ApiError UpdateReply

/-! ## What a call leaves alone -/

namespace RegistryUpdate

/-- The names that a call sets or removes. -/
def names : RegistryUpdate → List String
  | .mcpRegistrySet name _ _ => [name]
  | .mcpRegistryDelete name => [name]
  | .mcpImportApply selection _ => selection.map (·.name)

/-- The servers after a call. -/
def change (servers : OrdMap String RegistryEntry) : RegistryUpdate → OrdMap String RegistryEntry
  | .mcpRegistrySet name entry scope =>
    servers.insert name { entry with entryMeta.scope := some scope }
  | .mcpRegistryDelete name => servers.erase name
  | .mcpImportApply selection scope =>
    servers.extend (selection.map fun c => (c.name, c.stored scope))

variable {update : RegistryUpdate} {name : String} {servers servers' : OrdMap String RegistryEntry}

theorem get_change_of_not_mem (h : name ∉ update.names) :
    (update.change servers).get name = servers.get name := by
  cases update with
  | mcpRegistrySet x entry scope =>
    have hne : ¬ name = x := by simpa [names] using h
    simp [change, hne]
  | mcpRegistryDelete x =>
    have hne : ¬ name = x := by simpa [names] using h
    simp [change, hne]
  | mcpImportApply selection scope =>
    have hlookup : (selection.map fun c => (c.name, c.stored scope)).reverse.lookup name = none := by
      rw [List.lookup_eq_none_iff]
      intro e he
      obtain ⟨c, hc, rfl⟩ := List.mem_map.mp (List.mem_reverse.mp he)
      exact bne_iff_ne.mpr fun heq => h (List.mem_map.mpr ⟨c, hc, heq.symm⟩)
    rw [change, OrdMap.get_extend, hlookup, Option.none_or]

theorem get_change_of_mem (h : name ∈ update.names) :
    (update.change servers).get name = (update.change servers').get name := by
  cases update with
  | mcpRegistrySet x entry scope =>
    obtain rfl : name = x := by simpa [names] using h
    simp [change]
  | mcpRegistryDelete x =>
    obtain rfl : name = x := by simpa [names] using h
    simp [change]
  | mcpImportApply selection scope =>
    obtain ⟨c, hc, rfl⟩ := List.mem_map.mp h
    have hlookup : ((selection.map fun c => (c.name, c.stored scope)).reverse.lookup c.name).isSome := by
      rw [Option.isSome_iff_ne_none, Ne, List.lookup_eq_none_iff]
      intro hnone
      have hc' := hnone (c.name, c.stored scope)
        (List.mem_reverse.mpr (List.mem_map.mpr ⟨c, hc, rfl⟩))
      simp at hc'
    obtain ⟨entry, hentry⟩ := Option.isSome_iff_exists.mp hlookup
    rw [change, change, OrdMap.get_extend, OrdMap.get_extend, hentry, Option.some_or,
      Option.some_or]

end RegistryUpdate

/-! ## Writes that lose nothing -/

/-- The servers of a registry that was read. -/
def serversRead : RegistryRead → OrdMap String RegistryEntry
  | .ok (some file) => file.mcpServers
  | _ => .empty

/-- Where a call writes, the file has every entry that the call neither sets nor removes as the
call is about to write it back. -/
def Fresh (s : RegistryCalls) : UpdateAct RegistryUpdate ApiError → Prop
  | .write i => ∀ update next reply, s.callers[i]? = some (update, .writing next reply) →
      ∀ name ∉ update.names,
        (serversRead next).get name = ((serversRead s.value).get name).map migrated
  | _ => True

/-- A call that is about to write has changed some servers that it read. The file exists since
for a delete, and is in the form of the second version if the entry is gone. -/
def Held (update : RegistryUpdate) (next value : RegistryRead) : Prop :=
  ∃ servers read, next = written ⟨registryVersion, update.change servers⟩ ∧ value = .ok read ∧
    ∀ name, update = .mcpRegistryDelete name → ∃ file, read = some file ∧
      (file.migrated = file ∨ (file.mcpServers.get name).isSome)

theorem migrated_migrated (file : RegistryFile) : file.migrated.migrated = file.migrated := by
  have hservers : (file.mcpServers.map migrated).map migrated = file.mcpServers.map migrated := by
    refine OrdMap.ext_get fun name => ?_
    simp only [OrdMap.get_map, Option.map_map]
    rfl
  simp only [RegistryFile.migrated, hservers]

section
variable {update : RegistryUpdate} {next value : RegistryRead} {reply : UpdateReply}

theorem held_of_afterRead (h : afterRead update value = .writing next reply) :
    Held update next value := by
  cases value with
  | error error => cases h
  | ok read =>
    cases update with
    | mcpRegistrySet name entry scope =>
      obtain ⟨rfl, -⟩ := Stage.writing.inj h
      exact ⟨_, read, rfl, rfl, nofun⟩
    | mcpRegistryDelete name =>
      change mcpRegistryDelete name read = _ at h
      unfold mcpRegistryDelete at h
      split at h
      · cases h
      · next file =>
        split_ifs at h with hname
        obtain ⟨rfl, -⟩ := Stage.writing.inj h
        refine ⟨file.mcpServers, some file, rfl, rfl, ?_⟩
        rintro x ⟨⟩
        exact ⟨file, rfl, .inr hname⟩
    | mcpImportApply selection scope =>
      obtain ⟨rfl, -⟩ := Stage.writing.inj h
      exact ⟨_, read, rfl, rfl, nofun⟩

theorem Held.written {update' : RegistryUpdate} {next' : RegistryRead}
    (h : Held update next value) (h' : Held update' next' value) : Held update next next' := by
  obtain ⟨servers, read, hnext, -, -⟩ := h
  obtain ⟨servers', -, rfl, -, -⟩ := h'
  exact ⟨servers, _, hnext, rfl, fun _ _ => ⟨_, rfl, .inl (migrated_migrated _)⟩⟩

/-- A call that is about to write would also write, or find nothing to do, on the file that is
there now. -/
theorem Held.alone (h : Held update next value) :
    Updating.alone afterRead value update =
      Core.written ⟨registryVersion, update.change (serversRead value)⟩ := by
  obtain ⟨-, read, -, rfl, hdelete⟩ := h
  cases update with
  | mcpRegistrySet name entry scope => cases read <;> rfl
  | mcpImportApply selection scope => cases read <;> rfl
  | mcpRegistryDelete name =>
    obtain ⟨file, rfl, hfile⟩ := hdelete name rfl
    by_cases hname : (file.mcpServers.get name).isSome
    · simp [Updating.alone, afterRead, mcpRegistryDelete, hname, serversRead,
        RegistryUpdate.change, Core.written, RegistryFile.migrated]
    · have hmigrated : file.migrated = file := hfile.resolve_right hname
      have herase : file.mcpServers.erase name = file.mcpServers := by
        refine OrdMap.ext_get fun x => ?_
        rw [OrdMap.get_erase]
        split_ifs with hx
        · rw [hx]
          exact (Option.not_isSome_iff_eq_none.mp hname).symm
        · rfl
      have hchange : Core.written ⟨registryVersion,
          RegistryUpdate.change file.mcpServers (.mcpRegistryDelete name)⟩ = .ok (some file) := by
        rw [RegistryUpdate.change, herase]
        change Except.ok (some file.migrated) = _
        rw [hmigrated]
      simp [Updating.alone, afterRead, mcpRegistryDelete, hname, serversRead, hchange]

/-- The call writes what it would leave on the file that is there now exactly when the entries
that it does not name are the same. -/
theorem Held.current_iff (h : Held update next value) :
    next = Updating.alone afterRead value update ↔
      ∀ name ∉ update.names,
        (serversRead next).get name = ((serversRead value).get name).map migrated := by
  rw [h.alone]
  obtain ⟨servers, -, rfl, -, -⟩ := h
  constructor
  · intro heq name hname
    rw [heq]
    change ((update.change (serversRead value)).map migrated).get name = _
    rw [OrdMap.get_map, RegistryUpdate.get_change_of_not_mem hname]
  · intro hget
    have hservers : (update.change servers).map migrated =
        (update.change (serversRead value)).map migrated := by
      refine OrdMap.ext_get fun name => ?_
      by_cases hname : name ∈ update.names
      · rw [OrdMap.get_map, OrdMap.get_map, RegistryUpdate.get_change_of_mem hname]
      · have hentry : ((update.change servers).map migrated).get name = _ := hget name hname
        rw [hentry, OrdMap.get_map, RegistryUpdate.get_change_of_not_mem hname]
    simp only [Core.written, RegistryFile.migrated, hservers]

end

/-- Along every run, a write is fresh exactly when it is current. -/
theorem fresh_iff_current {s : RegistryCalls} (hs : s.AllHeld Held)
    (a : UpdateAct RegistryUpdate ApiError) : Fresh s a ↔ s.Current afterRead a := by
  cases a with
  | write i =>
    refine forall₄_congr fun update next reply hget => ?_
    exact (hs update next reply (List.mem_of_getElem? hget)).current_iff.symm
  | call u => rfl
  | read i => rfl
  | fail i error => rfl

/-- The registry is what the acknowledged calls leave one after the other, in the order in
which they took effect and in every state of a run, if and only if every write of the run is
fresh: no entry that the call only carries along has changed since its read. -/
theorem registry_updates_in_order (start : RegistryRead)
    (as : List (UpdateAct RegistryUpdate ApiError)) :
    (Meets (Updating.step afterRead) Fresh ⟨start, [], []⟩ as →
      Always (Updating.step afterRead) (Updating.Serial afterRead start) ⟨start, [], []⟩ as) ∧
    (Always (Updating.step afterRead) (Updating.InOrder afterRead start) ⟨start, [], []⟩ as ↔
      Meets (Updating.step afterRead) Fresh ⟨start, [], []⟩ as) := by
  have hinit : Updating.AllHeld Held (⟨start, [], []⟩ : RegistryCalls) :=
    fun _ _ _ hmem => absurd hmem List.not_mem_nil
  have hheld : ∀ (s : RegistryCalls) a t, s.AllHeld Held → s.step afterRead a = some t →
      t.AllHeld Held := fun s a t hs h =>
    Updating.allHeld_step (fun _ _ _ _ => held_of_afterRead)
      (fun _ _ _ _ _ hu hu' => hu.written hu') h hs
  have hmeets : Meets (Updating.step afterRead) (Updating.Current afterRead) ⟨start, [], []⟩ as ↔
      Meets (Updating.step afterRead) Fresh ⟨start, [], []⟩ as :=
    ⟨meets_of_meets (fun _ a _ hs hcurrent _ => (fresh_iff_current hs a).mpr hcurrent)
      (fun s a t hs _ h => hheld s a t hs h) hinit,
    meets_of_meets (fun _ a _ hs hfresh _ => (fresh_iff_current hs a).mp hfresh)
      (fun s a t hs _ h => hheld s a t hs h) hinit⟩
  have hiff : Always (Updating.step afterRead) (Updating.InOrder afterRead start) ⟨start, [], []⟩ as ↔
      Meets (Updating.step afterRead) Fresh ⟨start, [], []⟩ as :=
    (Updating.inOrder_iff start as).trans hmeets
  exact ⟨fun hfresh => (hiff.mpr hfresh).imp fun _ h => h.serial, hiff⟩

/-! ## Two sets at once -/

/-- A stdio server with a command. -/
def commandEntry (command : String) : RegistryEntry where
  transport := .stdio
  command := some command

/-- Two sets of different names that both read the file before either writes it. -/
def twoSets : List (UpdateAct RegistryUpdate ApiError) :=
  [.call (.mcpRegistrySet "github" (commandEntry "gh") .global),
    .call (.mcpRegistrySet "linear" (commandEntry "linear") .global),
    .read 0, .read 1, .write 0, .write 1]

/-- Both calls are acknowledged, and the first server is missing. -/
theorem set_lost :
    ∃ s : RegistryCalls, run (Updating.step afterRead) ⟨.ok none, [], []⟩ twoSets = some s ∧
      s.acknowledged.length = 2 ∧ (serversRead s.value).get "github" = none ∧
      ¬ Updating.Serial afterRead (.ok none) s := by
  refine ⟨_, rfl, rfl, rfl, ?_⟩
  rintro ⟨order, hperm, hfold⟩
  have hgithub := congrArg (fun read => (serversRead read).get "github") hfold
  rcases List.perm_pair.mp hperm with rfl | rfl <;> cases hgithub

end Tethys.Core
