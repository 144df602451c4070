import Tethys.Sync.Edits

/-!
# What plan and apply write

`plan` injects a desired entry unless it finds a conflict or the entry in sync, and `apply`
writes the content of the plan. The values that are written last under each name decide what
the server entries of the file are in the end.
-/

namespace Tethys.Sync

open Schema Lib

/-- What an injection of an entry of the list prints is read back as what it printed. -/
def PrintsBack (F : Formats) (target : ProjectionTarget) (desired : List (String × RegistryEntry)) :
    Prop :=
  ∀ name entry, (name, entry) ∈ desired → ∀ text doc value doc', openDoc F target text = .ok doc →
    entryNode target entry = .ok value → putDoc target name value doc = .ok doc' →
    openDoc F target (printDoc F target text doc') = .ok doc'

/-- The entries that a target reads from a text. -/
def entriesRead (F : Formats) (target : ProjectionTarget) (text : String) :
    OrdMap String RegistryEntry :=
  match (projectors F target).readEntries text with
  | .ok entries => entries
  | .error _ => .empty

section Spec
variable {Hash : Type} [DecidableEq Hash] (D : Digests Hash)

/-- The entry is written over what is on disk under its name: its secrets are omitted, or
nothing on disk was read as an entry of this name, or what was read has the recorded digest
and the entry has another one. -/
def writes (target : TargetId) (owned : Option Hash) (onDisk : Option RegistryEntry)
    (entry : RegistryEntry) : Bool :=
  decide (entry.transport ≠ .sse) && (omitsSecrets target entry ||
    match onDisk, owned with
    | none, _ => true
    | some _, none => false
    | some current, some hash =>
      decide (entryDigest D current = hash) && decide (entryDigest D entry ≠ hash))

/-- The entry is refused: what was read under its name is foreign or has another digest than
the recorded one. -/
def refuses (target : TargetId) (owned : Option Hash) (onDisk : Option RegistryEntry)
    (entry : RegistryEntry) : Bool :=
  decide (entry.transport ≠ .sse) && !omitsSecrets target entry &&
    match onDisk, owned with
    | none, _ => false
    | some _, none => true
    | some current, some hash => decide (entryDigest D current ≠ hash)

/-- The preview of an entry. -/
def project (tag : TargetId) (owned : OrdMap String Hash) (onDisk : OrdMap String RegistryEntry)
    (e : String × RegistryEntry) : EntryProjection :=
  if e.2.transport = .sse then ⟨e.1, .unsupported, false, ["sse transport is import-only"]⟩
  else
    let (state, notes) := entryState D tag (owned.get e.1) (onDisk.get e.1) e.2
    ⟨e.1, state, state ≠ .conflict, notes⟩

/-- The values that are written under a name, in order. -/
def writtenValues (target : ProjectionTarget) (owned : OrdMap String Hash)
    (onDisk : OrdMap String RegistryEntry) (desired : List (String × RegistryEntry))
    (name : String) : List Node :=
  desired.filterMap fun e =>
    if e.1 = name ∧ writes D target.targetId (owned.get name) (onDisk.get name) e.2 then
      (entryNode target e.2).toOption
    else none

end Spec

/-! ## What a plan writes -/

section Plan
variable {Hash : Type} [DecidableEq Hash] {D : Digests Hash} {F : Formats}
  {target : ProjectionTarget} {owned : OrdMap String Hash} {onDisk : OrdMap String RegistryEntry}
  {desired : List (String × RegistryEntry)}

@[simp] theorem projectors_target : (projectors F target).target = target.targetId := by
  cases target <;> rfl

@[simp] theorem project_name {tag : TargetId} (e : String × RegistryEntry) :
    (project D tag owned onDisk e).name = e.1 := by
  unfold project
  split_ifs <;> rfl

theorem project_state {tag : TargetId} {e : String × RegistryEntry} (hsse : e.2.transport ≠ .sse) :
    (project D tag owned onDisk e).state =
      (entryState D tag (owned.get e.1) (onDisk.get e.1) e.2).1 := by
  simp [project, hsse]

/-- An entry is injected if and only if it `writes`. -/
theorem entryState_writes (tag : TargetId) (hash : Option Hash) (current : Option RegistryEntry)
    {entry : RegistryEntry} (hsse : entry.transport ≠ .sse) :
    ((entryState D tag hash current entry).1 ≠ .conflict ∧
      (entryState D tag hash current entry).1 ≠ .inSync) ↔ writes D tag hash current entry := by
  cases homits : omitsSecrets tag entry with
  | true => simp [entryState, writes, homits, hsse]
  | false =>
    cases hash with
    | none => cases current <;> simp [entryState, ownedState, writes, homits, hsse]
    | some hash =>
      cases current with
      | none => simp [entryState, ownedState, writes, homits, hsse]
      | some current =>
        by_cases hcurrent : entryDigest D current = hash <;>
          by_cases hentry : entryDigest D entry = hash <;>
          simp [entryState, ownedState, writes, homits, hsse, hcurrent, hentry]

/-- An entry is in conflict if and only if it is refused. -/
theorem entryState_refuses (tag : TargetId) (hash : Option Hash) (current : Option RegistryEntry)
    {entry : RegistryEntry} (hsse : entry.transport ≠ .sse) :
    (entryState D tag hash current entry).1 = .conflict ↔ refuses D tag hash current entry := by
  cases homits : omitsSecrets tag entry with
  | true => simp [entryState, refuses, homits]
  | false =>
    cases hash with
    | none => cases current <;> simp [entryState, ownedState, refuses, homits, hsse]
    | some hash =>
      cases current with
      | none => simp [entryState, ownedState, refuses, homits]
      | some current =>
        by_cases hcurrent : entryDigest D current = hash <;>
          by_cases hentry : entryDigest D entry = hash <;>
          simp [entryState, ownedState, refuses, homits, hsse, hcurrent, hentry]

/-- One round of the loop injects the entry if it `writes`, and reports it. -/
theorem planEntry_eq (projector : Projector) (content : String) (e : String × RegistryEntry) :
    planEntry D projector owned onDisk content e.1 e.2 =
      (if writes D projector.target (owned.get e.1) (onDisk.get e.1) e.2 then
        projector.inject content e.1 e.2 else .ok content).map
          fun content => (content, project D projector.target owned onDisk e) := by
  by_cases hsse : e.2.transport = .sse
  · simp [planEntry, project, writes, hsse, Except.map]
  · have hwrites := entryState_writes (D := D) projector.target (owned.get e.1)
      (onDisk.get e.1) hsse
    unfold planEntry project
    rw [if_neg hsse, if_neg hsse]
    generalize entryState D projector.target (owned.get e.1) (onDisk.get e.1) e.2 = state
      at hwrites
    dsimp only
    by_cases hw : writes D projector.target (owned.get e.1) (onDisk.get e.1) e.2 = true
    · rw [if_pos (hwrites.mpr hw), if_pos hw]
    · rw [if_neg (mt hwrites.mp hw), if_neg hw]

/-- One round of the loop: the content after it and the state it reports. -/
theorem planEntry_eq_ok {projector : Projector} {content name content' : String}
    {entry : RegistryEntry} {projection : EntryProjection}
    (h : planEntry D projector owned onDisk content name entry = .ok (content', projection)) :
    (if writes D projector.target (owned.get name) (onDisk.get name) entry then
        projector.inject content name entry = .ok content'
      else content' = content) ∧
      (refuses D projector.target (owned.get name) (onDisk.get name) entry →
        projection.state = .conflict ∧ projection.name = name) := by
  rw [planEntry_eq projector content (name, entry)] at h
  obtain ⟨content'', hcontent, heq⟩ := map_eq_ok h
  obtain ⟨rfl, rfl⟩ := Prod.mk.inj heq
  refine ⟨?_, fun hrefused => ?_⟩
  · split_ifs at hcontent ⊢
    · exact hcontent
    · exact (Except.ok.inj hcontent).symm
  · have hsse : entry.transport ≠ .sse := by
      rintro hsse
      simp [refuses, hsse] at hrefused
    rw [project, if_neg hsse]
    exact ⟨(entryState_refuses _ _ _ hsse).mpr hrefused, rfl⟩

theorem writtenValues_cons (name : String) (e : String × RegistryEntry) :
    writtenValues D target owned onDisk (e :: desired) name =
      (if e.1 = name ∧ writes D target.targetId (owned.get name) (onDisk.get name) e.2 then
        (entryNode target e.2).toOption else none).toList ++
        writtenValues D target owned onDisk desired name := by
  unfold writtenValues
  rw [List.filterMap_cons]
  split <;> simp_all

/-- The entry at a place after the loop: the one that injections find has the value written
last, every other one is as before. -/
theorem planEntries_entry {content content' name : String} {projections : List EntryProjection}
    {doc value : Node} {place : Place} (hF : PrintsBack F target desired)
    (h : planEntries D (projectors F target) owned onDisk content desired =
      .ok (content', projections))
    (hdoc : openDoc F target content = .ok doc)
    (he : entryOf target doc place = some (name, value)) :
    ∃ doc', openDoc F target content' = .ok doc' ∧
      entryOf target doc' place = some (name, if slotOf target doc name = some place then
        (writtenValues D target owned onDisk desired name).getLast?.getD value else value) := by
  induction desired generalizing content doc value projections with
  | nil =>
    obtain ⟨rfl, -⟩ := Prod.mk.inj (Except.ok.inj h)
    exact ⟨doc, hdoc, by simpa [writtenValues] using he⟩
  | cons e desired ih =>
    obtain ⟨x, entry⟩ := e
    obtain ⟨⟨content₁, projection⟩, hround, h⟩ := bind_eq_ok h
    obtain ⟨⟨content₂, projections₂⟩, hrest, h⟩ := bind_eq_ok h
    obtain ⟨rfl, -⟩ := Prod.mk.inj (Except.ok.inj h)
    have hF' : PrintsBack F target desired := fun name entry hmem =>
      hF name entry (List.mem_cons_of_mem _ hmem)
    have hcontent := (planEntry_eq_ok hround).1
    rw [projectors_target] at hcontent
    rw [writtenValues_cons]
    by_cases hw : writes D target.targetId (owned.get x) (onDisk.get x) entry
    · rw [if_pos hw] at hcontent
      obtain ⟨doc₀, v, doc₁, hopen, hv, hput, rfl⟩ := inject_eq_ok hcontent
      obtain rfl := Except.ok.inj (hdoc.symm.trans hopen)
      have hopen₁ := hF x entry List.mem_cons_self content doc v doc₁ hdoc hv hput
      have he₁ := entryOf_putDoc hput he
      by_cases hslot : slotOf target doc x = some place
      · obtain ⟨w, hw'⟩ := entryOf_slotOf hslot
        obtain rfl : name = x := congrArg Prod.fst (Option.some.inj (he.symm.trans hw'))
        rw [if_pos hslot] at he₁
        obtain ⟨doc', hdoc', hlast⟩ := ih hF' hrest hopen₁ he₁
        rw [if_pos (slotOf_putDoc hput hslot)] at hlast
        refine ⟨doc', hdoc', ?_⟩
        simp [hlast, hslot, hw, hv, Except.toOption, List.getLast?_cons]
      · rw [if_neg hslot] at he₁
        obtain ⟨doc', hdoc', hlast⟩ := ih hF' hrest hopen₁ he₁
        refine ⟨doc', hdoc', ?_⟩
        by_cases hname : slotOf target doc name = some place
        · have hne : x ≠ name := fun heq => hslot (heq ▸ hname)
          simpa [hname, slotOf_putDoc hput hname, hne] using hlast
        · have hname₁ : slotOf target doc₁ name ≠ some place := fun hname₁ =>
            hname (slotOf_of_putDoc hput hname₁ he)
          simpa [hname, hname₁] using hlast
    · rw [if_neg hw] at hcontent
      subst hcontent
      obtain ⟨doc', hdoc', hlast⟩ := ih hF' hrest hdoc he
      refine ⟨doc', hdoc', ?_⟩
      have hskip :
          ¬ (x = name ∧ writes D target.targetId (owned.get name) (onDisk.get name) entry) := by
        rintro ⟨rfl, hw'⟩
        exact hw hw'
      simpa [hskip] using hlast

/-- A refused entry is in the plan as a conflict. -/
theorem mem_conflicts_of_refuses {content content' name : String}
    {projections : List EntryProjection} {entry : RegistryEntry}
    (h : planEntries D (projectors F target) owned onDisk content desired =
      .ok (content', projections))
    (hmem : (name, entry) ∈ desired)
    (hrefuses : refuses D target.targetId (owned.get name) (onDisk.get name) entry) :
    ∃ projection ∈ projections, projection.state = .conflict ∧ projection.name = name := by
  induction desired generalizing content projections with
  | nil => simp at hmem
  | cons e desired ih =>
    obtain ⟨x, entry'⟩ := e
    obtain ⟨⟨content₁, projection⟩, hround, h⟩ := bind_eq_ok h
    obtain ⟨⟨content₂, projections₂⟩, hrest, h⟩ := bind_eq_ok h
    obtain ⟨rfl, rfl⟩ := Prod.mk.inj (Except.ok.inj h)
    rcases List.mem_cons.mp hmem with heq | hmem
    · obtain ⟨rfl, rfl⟩ := Prod.mk.inj heq
      rw [← projectors_target (F := F)] at hrefuses
      exact ⟨projection, List.mem_cons_self, (planEntry_eq_ok hround).2 hrefuses⟩
    · obtain ⟨found, hfound, hstate⟩ := ih hrest hmem
      exact ⟨found, List.mem_cons_of_mem _ hfound, hstate⟩

theorem readEntries_of_blank {text : String} (h : blank text) :
    (projectors F target).readEntries text = .ok .empty := by
  cases target <;>
    simp [projectors, claudeCode, openCode, codex, ClaudeCode.readEntries, OpenCode.readEntries,
      Codex.readEntries, h]

theorem plan_eq_ok {path : String} {scope : Scope} {original : Option String}
    {planned : ProjectionPlan Hash}
    (h : plan D F ⟨projectors F target, path, scope, original, desired, owned⟩ = .ok planned) :
    planEntries D (projectors F target) owned (entriesRead F target (original.getD ""))
      (original.getD "") desired = .ok (planned.content, planned.entries) ∧
      planned.path = path := by
  unfold plan at h
  obtain ⟨onDisk, honDisk, h⟩ := bind_eq_ok h
  obtain ⟨⟨content, entries⟩, hentries, h⟩ := bind_eq_ok h
  obtain rfl := Except.ok.inj h
  have hread : (projectors F target).readEntries (original.getD "") = .ok onDisk := by
    by_cases hblank : blank (original.getD "")
    · rw [readEntries_of_blank hblank]
      simpa [entriesOnDisk, hblank] using honDisk
    · simpa [entriesOnDisk, hblank] using honDisk
  refine ⟨?_, rfl⟩
  rw [entriesRead, hread]
  exact hentries

theorem plan_baseHash {request : PlanRequest Hash} {planned : ProjectionPlan Hash}
    (h : plan D F request = .ok planned) :
    planned.baseHash = D.file (request.original.getD "") := by
  unfold plan at h
  obtain ⟨onDisk, -, h⟩ := bind_eq_ok h
  obtain ⟨⟨content, entries⟩, -, h⟩ := bind_eq_ok h
  obtain rfl := Except.ok.inj h
  rfl

end Plan

/-! ## What apply writes -/

section Apply
variable {Hash : Type} [DecidableEq Hash] {D : Digests Hash} {projector : Projector}
  {planned : ProjectionPlan Hash} {disk disk' : Disk} {now : Nat} {io : Io}

/-- With a conflict in the plan apply fails and writes nothing. -/
theorem apply_of_conflict (h : conflicts planned ≠ []) :
    ∃ error, apply D projector planned disk now io = (.error error, disk) ∧
      ((∃ message, error = .conflict message) ∨ error = .stalePlan planned.path ∨
        ∃ message, io = .read message) := by
  unfold apply
  split
  case h_1 message => exact ⟨_, rfl, .inr (.inr ⟨message, rfl⟩)⟩
  case h_2 =>
    split_ifs with hstale
    · exact ⟨_, rfl, .inr (.inl rfl)⟩
    · exact ⟨_, rfl, .inl ⟨_, rfl⟩⟩

variable (projector now io) in
/-- An apply of a plan that is not stale fails and leaves the files, or writes the content of
the plan and reads it back. -/
theorem apply_cases (hbase : D.file ((disk.files planned.path).getD "") = planned.baseHash) :
    (¬ (io = .ok ∧ conflicts planned = []) ∧
      ∃ error disk', apply D projector planned disk now io = (.error error, disk') ∧
        disk'.files = disk.files) ∨
    ((io = .ok ∧ conflicts planned = []) ∧
      ∃ disk', disk'.files planned.path = some planned.content ∧
        apply D projector planned disk now io =
          ((projector.readEntries planned.content).map (applied D planned), disk')) := by
  by_cases hc : conflicts planned = []
  · cases io with
    | ok =>
      right
      refine ⟨⟨rfl, hc⟩, (disk.backupFile planned.path now).writeAtomic planned.path planned.content,
        by simp [Disk.writeAtomic], ?_⟩
      cases hread : projector.readEntries planned.content <;>
        simp [apply, hbase, hc, hread, Except.map]
    | read message => exact .inl ⟨nofun, _, _, rfl, rfl⟩
    | backup message =>
      exact .inl ⟨nofun, .io message, disk, by simp [apply, hbase, hc], rfl⟩
    | write message =>
      exact .inl ⟨nofun, .io message, disk.backupFile planned.path now,
        by simp [apply, hbase, hc], Disk.backupFile_files _ _ _⟩
  · obtain ⟨error, heq, -⟩ := apply_of_conflict hc
    exact .inl ⟨fun h => hc h.2, error, disk, heq, rfl⟩

/-- What a successful apply leaves and returns. -/
theorem apply_ok_cases {record : Applied Hash}
    (h : apply D projector planned disk now io = (.ok record, disk')) :
    conflicts planned = [] ∧
      disk' = (disk.backupFile planned.path now).writeAtomic planned.path planned.content ∧
      ∃ readBack, projector.readEntries planned.content = .ok readBack ∧
        record = applied D planned readBack := by
  unfold apply at h
  split at h
  case h_1 => simp at h
  case h_2 =>
    split_ifs at h with hstale hconflicts
    · simp at h
    · simp at h
    · split at h
      case h_3 =>
        split at h
        case h_1 => simp at h
        case h_2 readBack hread =>
          obtain ⟨hrecord, rfl⟩ := Prod.mk.inj h
          exact ⟨not_not.mp hconflicts, rfl, readBack, hread, (Except.ok.inj hrecord).symm⟩
      all_goals simp at h

theorem apply_eq_ok {record : Applied Hash}
    (h : apply D projector planned disk now io = (.ok record, disk')) :
    disk'.files planned.path = some planned.content := by
  obtain ⟨_, rfl, _⟩ := apply_ok_cases h
  simp [Disk.writeAtomic]

end Apply

end Tethys.Sync
