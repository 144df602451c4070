import Tethys.Core.Mcp

/-!
# The cheap check of a projection

`verify` of `projection.rs` compares the digest of the whole file with the one of the last apply,
where a plan compares entry by entry. Both are followed over runs of registry edits, plans,
applies, rollbacks and edits of the file by others. `in_sync_never_conflicts` says that the
cheap check is sound for the plan.
-/

namespace Tethys.Sync

open Schema Lib

inductive VerifyStatus where
  | inSync | drifted | missing
  deriving DecidableEq

variable {Hash : Type} [DecidableEq Hash]

/-- Cheap verification: whole-file hash against the last apply. -/
def verify (D : Digests Hash) (disk : Disk) (path : String) (applied : Applied Hash) : VerifyStatus :=
  match disk.files path with
  | none => .missing
  | some text => if D.file text = applied.fileHash then .inSync else .drifted

omit [DecidableEq Hash] in
/-- What an apply records is what it read back. -/
theorem get_applied {D : Digests Hash} {planned : ProjectionPlan Hash}
    {readBack : OrdMap String RegistryEntry} {name : String} {hash : Hash}
    (h : (applied D planned readBack).entries.get name = some hash) :
    ∃ current, readBack.get name = some current ∧ hash = entryDigest D current := by
  obtain ⟨projection, -, hrecord⟩ := List.mem_filterMap.mp (OrdMap.mem_of_get_ofList h)
  obtain ⟨current, hcurrent, heq⟩ := Option.map_eq_some_iff.mp hrecord
  obtain ⟨rfl, rfl⟩ := Prod.mk.inj heq
  exact ⟨current, hcurrent, rfl⟩

/-- A rollback that is not forced restores only a file with the recorded digest. -/
theorem file_of_rollback {D : Digests Hash} {record : Applied Hash} {disk disk' : Disk}
    (h : rollback D record disk false = (.ok (), disk')) :
    ∃ text, disk.files record.path = some text ∧ D.file text = record.fileHash := by
  unfold rollback at h
  cases hfile : disk.files record.path with
  | none => simp [hfile] at h
  | some text =>
    refine ⟨text, rfl, ?_⟩
    by_contra hdrifted
    simp [hfile, hdrifted] at h

end Tethys.Sync

namespace Tethys.Core

open Schema Lib Sync

inductive RollbackError where
  | notFound (what : String)
  | internal (error : SyncError)
  | store
  deriving DecidableEq

/-- A call on the service, or an edit of the target file by somebody else. -/
inductive ServiceAct (Hash : Type) where
  | call (act : McpAct Hash)
  /-- Roll the last apply back; `removed` says whether the row can be deleted. -/
  | rollback (removed : Bool)
  | edit (text : Option String)

namespace Mcp

variable {Hash : Type} [DecidableEq Hash] (D : Digests Hash) (F : Formats)
  (target : ProjectionTarget) (path : String)

def projectionVerify (s : Mcp Hash) : VerifyStatus :=
  match s.row with
  | none => .missing
  | some applied => verify D s.disk path applied

def projectionRollback (s : Mcp Hash) (removed : Bool) : Except RollbackError Unit × Mcp Hash :=
  match s.row with
  | none => (.error (.notFound ("projection " ++ path)), s)
  | some applied =>
    match rollback D applied s.disk false with
    | (.error error, disk) => (.error (.internal error), { s with disk := disk })
    | (.ok (), disk) =>
      if removed then (.ok (), { s with disk := disk, row := none })
      else (.error .store, { s with disk := disk })

def serviceStep (s : Mcp Hash) : ServiceAct Hash → Option (Mcp Hash)
  | .call act => s.step D F target path act
  | .rollback removed => some (s.projectionRollback D path removed).2
  | .edit text =>
    some { s with disk := { s.disk with files := fun p => if p = path then text else s.disk.files p } }

/-- The row records a text that was written, and the entries that were read back from it. -/
def RecordsText (s : Mcp Hash) : Prop :=
  ∀ record, s.row = some record → record.path = path ∧
    ∃ content, record.fileHash = D.file content ∧
      ∀ name hash, record.entries.get name = some hash →
        ∃ current, (entriesRead F target content).get name = some current ∧
          hash = entryDigest D current

/-- No plan reports an entry of the row as a conflict. -/
def OwnedClear (s : Mcp Hash) : Prop :=
  ∀ workspace scope planned, s.buildProjectionPlan D F target path workspace scope = .ok planned →
    ∀ projection ∈ planned.entries, (s.owned.get projection.name).isSome →
      projection.state ≠ .conflict

variable {D F target path} {s t : Mcp Hash}

/-! ### One step -/

omit [DecidableEq Hash] in
theorem RecordsText.of_row (hs : s.RecordsText D F target path) (h : t.row = s.row) :
    t.RecordsText D F target path := by
  intro record hrow
  exact hs record (h ▸ hrow)

theorem recordsText_step {act : McpAct Hash} (hs : s.RecordsText D F target path)
    (h : s.step D F target path act = some t) : t.RecordsText D F target path := by
  cases act with
  | registrySet workspace name entry written =>
    refine hs.of_row ?_
    cases written <;> cases workspace <;> (cases h; rfl)
  | registryDelete workspace name written =>
    refine hs.of_row ?_
    cases written with
    | false => cases h; rfl
    | true =>
      simp only [step, registryDelete, if_true] at h
      split_ifs at h
      · cases workspace <;> (cases h; rfl)
      · cases h; rfl
  | projectionPlan workspace scope =>
    cases h
    exact hs
  | projectionApply workspace scope given now io stored =>
    rcases projectionApply_cases s workspace scope given now io stored (Option.some.inj h) with
      ⟨-, hrow, -⟩ | ⟨fresh, hfresh, -, -, -, -, -, ⟨readBack, hread, hrow⟩ | ⟨-, -, hrow⟩⟩
    · exact hs.of_row hrow
    · cases stored with
      | false => exact hs.of_row hrow
      | true =>
        obtain ⟨-, -, hpath, -⟩ := buildProjectionPlan_eq_ok hfresh
        intro record hrecord
        obtain rfl := Option.some.inj (hrow.symm.trans hrecord)
        refine ⟨hpath, fresh.content, rfl, fun name hash hget => ?_⟩
        rw [entriesRead, hread]
        exact get_applied hget
    · exact hs.of_row hrow

theorem recordsText_serviceStep {act : ServiceAct Hash} (hs : s.RecordsText D F target path)
    (h : s.serviceStep D F target path act = some t) : t.RecordsText D F target path := by
  cases act with
  | call act => exact recordsText_step hs h
  | edit text =>
    obtain rfl := Option.some.inj h
    exact hs.of_row rfl
  | rollback removed =>
    obtain rfl := Option.some.inj h
    unfold projectionRollback
    split
    · exact hs
    · split
      · exact hs.of_row rfl
      · split_ifs
        · intro record hrecord
          cases hrecord
        · exact hs.of_row rfl

/-! ### What the check says -/

/-- The file is in sync when it has the text that the row records. -/
theorem RecordsText.file_of_inSync (hD : Function.Injective D.file)
    (hs : s.RecordsText D F target path) (h : s.projectionVerify D path = .inSync) :
    ∃ record content, s.row = some record ∧ s.disk.files path = some content ∧
      ∀ name hash, record.entries.get name = some hash →
        ∃ current, (entriesRead F target content).get name = some current ∧
          hash = entryDigest D current := by
  unfold projectionVerify verify at h
  split at h
  case h_1 => cases h
  case h_2 record hrow =>
    split at h
    case h_1 => cases h
    case h_2 text hfile =>
      split_ifs at h with hhash
      obtain ⟨-, content, hcontent, hentries⟩ := hs record hrow
      obtain rfl := hD (hhash.trans hcontent)
      exact ⟨record, text, hrow, hfile, hentries⟩

/-- Where the check finds the file in sync, the plan finds every entry of the row as recorded. -/
theorem RecordsText.ownedClear (hD : Function.Injective D.file)
    (hs : s.RecordsText D F target path) (h : s.projectionVerify D path = .inSync) :
    s.OwnedClear D F target path := by
  obtain ⟨record, content, hrow, hfile, hentries⟩ := hs.file_of_inSync hD h
  have howned : s.owned = record.entries := by rw [owned, hrow]
  intro workspace scope planned hplan projection hprojection hsome
  obtain ⟨-, -, -, -, -, -, hprojections⟩ := buildProjectionPlan_eq_ok hplan
  rw [hprojections] at hprojection
  obtain ⟨⟨name, entry⟩, -, rfl⟩ := List.mem_map.mp hprojection
  rw [project_name] at hsome
  obtain ⟨hash, hhash⟩ := Option.isSome_iff_exists.mp hsome
  obtain ⟨current, hcurrent, rfl⟩ := hentries name hash (howned ▸ hhash)
  by_cases hsse : entry.transport = .sse
  · simp [project, hsse]
  · rw [project_state hsse]
    intro hconflict
    have hrefuses := (entryState_refuses target.targetId _ _ hsse).mp hconflict
    have honFile : (s.onFile F target path).get name = some current := by
      rw [onFile, hfile]
      exact hcurrent
    simp [refuses, honFile, hhash] at hrefuses

/-- A rollback that succeeds found the file in sync, and leaves nothing to check. -/
theorem verify_of_rollback (hs : s.RecordsText D F target path) {removed : Bool}
    (h : (s.projectionRollback D path removed).1 = .ok ()) :
    s.projectionVerify D path = .inSync ∧
      (s.projectionRollback D path removed).2.projectionVerify D path = .missing := by
  cases hrow : s.row with
  | none => simp [projectionRollback, hrow] at h
  | some record =>
    obtain ⟨hpath, -⟩ := hs record hrow
    cases hrollback : rollback D record s.disk false with
    | mk result disk =>
      cases result with
      | error error => simp [projectionRollback, hrow, hrollback] at h
      | ok _ =>
        obtain ⟨text, hfile, hhash⟩ := file_of_rollback hrollback
        rw [hpath] at hfile
        cases removed with
        | false => simp [projectionRollback, hrow, hrollback] at h
        | true =>
          constructor
          · simp [projectionVerify, verify, hrow, hfile, hhash]
          · simp [projectionVerify, projectionRollback, hrow, hrollback]

end Mcp

/-- Over every run of registry edits, plans, applies, rollbacks and edits of the file by others,
with any failures: where the cheap check finds the file in sync, no plan reports an entry of the
manifest as changed, and a rollback succeeds only there. -/
theorem in_sync_never_conflicts {Hash : Type} [DecidableEq Hash] (D : Digests Hash) (F : Formats)
    (target : ProjectionTarget) (path : String) (hD : Function.Injective D.file) (s : Mcp Hash)
    (hstart : s.row = none) (acts : List (ServiceAct Hash)) :
    Always (Mcp.serviceStep D F target path)
      (fun s => (s.projectionVerify D path = .inSync → s.OwnedClear D F target path) ∧
        ∀ removed, (s.projectionRollback D path removed).1 = .ok () →
          s.projectionVerify D path = .inSync ∧
            (s.projectionRollback D path removed).2.projectionVerify D path = .missing)
      s acts := by
  refine always_of_run (I := fun s => s.RecordsText D F target path)
    (fun s hs => ⟨hs.ownedClear hD, fun removed => Mcp.verify_of_rollback hs⟩)
    (fun s act t hs => Mcp.recordsText_serviceStep hs) ?_
  intro record hrow
  rw [hstart] at hrow
  cases hrow

/-- A server is added, applied, edited by hand and rolled back. -/
theorem in_sync_never_conflicts_edited :
    Always (Mcp.serviceStep exactDigests oneServerFormats .codex "config.toml")
      (fun s => (s.projectionVerify exactDigests "config.toml" = .inSync →
          s.OwnedClear exactDigests oneServerFormats .codex "config.toml") ∧
        ∀ removed, (s.projectionRollback exactDigests "config.toml" removed).1 = .ok () →
          s.projectionVerify exactDigests "config.toml" = .inSync ∧
            (s.projectionRollback exactDigests "config.toml" removed).2.projectionVerify
              exactDigests "config.toml" = .missing)
      nothingYet (addServer.map .call ++ [.edit (some ""), .rollback true]) :=
  in_sync_never_conflicts exactDigests oneServerFormats .codex "config.toml" (fun _ _ h => Sum.inr.inj h)
    nothingYet rfl _

end Tethys.Core
