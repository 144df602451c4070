import Tethys.Lib.Runs
import Tethys.Sync.Idempotence
import Tethys.Sync.Migration

/-!
# Rolling an apply back

`rollback` of `projection.rs` over whole runs. Applies, rollbacks, writes of registry files
and edits by hand come in any order, on any paths, with any clock. All backups live under one
home: the directory of a path is named after the path and the start of its hash, a backup in
it after the time it was taken, and the newest one is the last in the order of the names.
`Projections` remembers the latest apply on each path and what the file was before it.
-/

namespace Tethys.Sync

open Schema Lib

namespace Disk

variable (disk : Disk) (path p content : String) (now : Nat)

@[simp] theorem encodePath_backupFile :
    (disk.backupFile path now).encodePath p = disk.encodePath p := by
  unfold backupFile
  split <;> rfl

@[simp] theorem newestBackup_writeAtomic :
    (disk.writeAtomic path content).newestBackup p = disk.newestBackup p := rfl

/-- The newest backup in the directory of the path has a later name than a backup taken now. -/
def Overtaken : Prop :=
  ∃ e, (disk.backups (disk.encodePath path)).entries.getLast? = some e ∧
    toString now ++ ".bak" < e.1

theorem getLast?_prune (backups : OrdMap String String) :
    (prune backups).entries.getLast? = backups.entries.getLast? := by
  obtain ⟨entries, sorted⟩ := backups
  cases entries with
  | nil => rfl
  | cons e l =>
    have hlt : ¬ (e :: l).length ≤ (e :: l).length - backupRetention := by
      simp only [List.length_cons, backupRetention]
      omega
    simp only [prune, List.getLast?_drop, if_neg hlt]

variable {disk path p now}

theorem backupFile_of_none (h : disk.files path = none) : disk.backupFile path now = disk := by
  simp [backupFile, h]

theorem newestBackup_backupFile_of_ne (h : disk.encodePath p ≠ disk.encodePath path) :
    (disk.backupFile path now).newestBackup p = disk.newestBackup p := by
  rw [newestBackup, encodePath_backupFile, backupFile]
  cases disk.files path with
  | none => rfl
  | some text => simp [newestBackup, h]

/-- After a backup the newest one is that backup, unless it is overtaken. -/
theorem newestBackup_backupFile {text : String} (now : Nat) (hfile : disk.files path = some text)
    (hdir : disk.encodePath p = disk.encodePath path) :
    (disk.Overtaken path now → (disk.backupFile path now).newestBackup p = disk.newestBackup p) ∧
      (¬ disk.Overtaken path now → (disk.backupFile path now).newestBackup p = some text) := by
  have hnewest : (disk.backupFile path now).newestBackup p =
      ((disk.backups (disk.encodePath path)).insert (toString now ++ ".bak")
        text).entries.getLast?.map Prod.snd := by
    rw [newestBackup, encodePath_backupFile, hdir]
    simp only [backupFile, hfile, if_pos, getLast?_prune]
  rw [hnewest, newestBackup, hdir]
  constructor
  · rintro ⟨e, hlast, hlt⟩
    rw [OrdMap.getLast?_insert_of_lt hlast hlt, hlast]
  · intro hnot
    rw [OrdMap.getLast?_insert_of_not_lt fun e hlast hlt => hnot ⟨e, hlast, hlt⟩]
    rfl

end Disk

/-- A plan of the file as it was read, and its application. -/
structure ApplyCall (Hash : Type) where
  target : ProjectionTarget
  path : String
  scope : Scope
  original : Option String
  desired : List (String × RegistryEntry)
  owned : OrdMap String Hash

inductive ProjectionAct (Hash : Type) where
  | apply (call : ApplyCall Hash) (now : Nat) (io : Io)
  | rollback (path : String)
  | writeRegistry (path : String) (file : RegistryFile) (now : Nat)
  | edit (path : String) (text : Option String)

/-- The disk, and for each path the record of the latest apply with the file before it, as
long as nothing else has written the file. -/
structure Projections (Hash : Type) where
  disk : Disk
  last : String → Option (Applied Hash × Option String)

section Machine
variable {Hash : Type} [DecidableEq Hash] (D : Digests Hash) (F : Formats) (S : SerdeJson)

def ApplyCall.plan (call : ApplyCall Hash) : Except SyncError (ProjectionPlan Hash) :=
  Sync.plan D F ⟨projectors F call.target, call.path, call.scope, call.original, call.desired,
    call.owned⟩

/-- The apply gets to the backup of the file. -/
def reaches (planned : ProjectionPlan Hash) (disk : Disk) : Io → Bool
  | .read _ | .backup _ => false
  | .ok | .write _ =>
    D.file ((disk.files planned.path).getD "") = planned.baseHash ∧ conflicts planned = []

namespace Projections

/-- The records after `path` got a new one, or lost its own. -/
def record (s : Projections Hash) (path : String) (r : Option (Applied Hash × Option String)) :
    String → Option (Applied Hash × Option String) :=
  fun p => if p = path then r else s.last p

/-- A file that is written and then cannot be read back has no record. -/
def apply (s : Projections Hash) (call : ApplyCall Hash) (now : Nat) (io : Io) :
    Projections Hash :=
  match call.plan D F with
  | .error _ => s
  | .ok planned =>
    match Sync.apply D (projectors F call.target) planned s.disk now io with
    | (.ok applied, disk) => ⟨disk, s.record call.path (some (applied, s.disk.files call.path))⟩
    | (.error _, disk) =>
      ⟨disk, if reaches D planned s.disk io ∧ io = .ok then s.record call.path none else s.last⟩

def step (s : Projections Hash) : ProjectionAct Hash → Option (Projections Hash)
  | .apply call now io => some (s.apply D F call now io)
  | .rollback path =>
    match s.last path with
    | none => some s
    | some (applied, _) =>
      match Sync.rollback D applied s.disk false with
      | (.ok _, disk) => some ⟨disk, s.record path none⟩
      | (.error _, _) => some s
  | .writeRegistry path file now =>
    some ⟨Sync.writeRegistry S s.disk path file (some now), s.record path none⟩
  | .edit path text =>
    some ⟨{ s.disk with files := fun p => if p = path then text else s.disk.files p },
      s.record path none⟩

/-! ## What should hold, and when it does -/

/-- Rolling back the latest apply on any path brings its file back, and touches no other. -/
def Restorable (s : Projections Hash) : Prop :=
  ∀ path applied before, s.last path = some (applied, before) →
    ∃ disk, Sync.rollback D applied s.disk false = (.ok (), disk) ∧
      disk.files path = before ∧ ∀ p ≠ path, disk.files p = s.disk.files p

/-- A backup of `path` that is taken now does not come between the path `p` and its backup
with the text `before`: the directories differ, or it is not the newest, or has that text. -/
def Clear (disk : Disk) (path : String) (now : Nat) (p : String) (before : Option String) : Prop :=
  disk.encodePath p = disk.encodePath path → ∀ text, disk.files path = some text →
    disk.Overtaken path now ∨ before = some text

/-- A step that leaves every latest apply restorable. An apply that succeeds finds no file
where its plan was made from a blank text, and a file where it was not, and its backup is the
newest. Any other backup leaves the paths with a record of their own backup alone. -/
def Safe (s : Projections Hash) : ProjectionAct Hash → Prop
  | .apply call now io => ∀ planned, call.plan D F = .ok planned → reaches D planned s.disk io →
      (∀ p applied before, s.last p = some (applied, before) → (p = call.path → io ≠ .ok) →
        applied.created = false → Clear s.disk call.path now p before) ∧
      ∀ applied, (Sync.apply D (projectors F call.target) planned s.disk now io).1 = .ok applied →
        (s.disk.files call.path = none ↔ blank (call.original.getD "")) ∧
        ∀ text, s.disk.files call.path = some text → s.disk.Overtaken call.path now →
          s.disk.newestBackup call.path = some text
  | .writeRegistry path _ now =>
      ∀ p applied before, s.last p = some (applied, before) → p ≠ path →
        applied.created = false → Clear s.disk path now p before
  | .rollback _ | .edit _ _ => True

end Projections

/-! ## One apply, and one rollback -/

variable {D F S}

theorem apply_of_not_reaches {projector : Projector} {planned : ProjectionPlan Hash} {disk : Disk}
    {now : Nat} {io : Io} (h : ¬ reaches D planned disk io) :
    ∃ error, Sync.apply D projector planned disk now io = (.error error, disk) := by
  cases io with
  | read message => exact ⟨_, rfl⟩
  | backup message =>
    unfold Sync.apply
    dsimp only
    split_ifs <;> exact ⟨_, rfl⟩
  | ok | write _ =>
    unfold Sync.apply
    dsimp only
    split_ifs with hstale hconflicts
    · exact ⟨_, rfl⟩
    · exact ⟨_, rfl⟩
    · exact absurd (by simpa [reaches] using ⟨not_not.mp hstale, not_not.mp hconflicts⟩) h

theorem apply_of_reaches {projector : Projector} {planned : ProjectionPlan Hash} {disk : Disk}
    {now : Nat} {io : Io} (h : reaches D planned disk io) :
    (io = .ok ∧ Sync.apply D projector planned disk now io =
      ((projector.readEntries planned.content).map (applied D planned),
        (disk.backupFile planned.path now).writeAtomic planned.path planned.content)) ∨
    ∃ message, io = .write message ∧ Sync.apply D projector planned disk now io =
      (.error (.io message), disk.backupFile planned.path now) := by
  cases io with
  | read message => cases h
  | backup message => cases h
  | ok =>
    obtain ⟨hbase, hconflicts⟩ := of_decide_eq_true h
    refine .inl ⟨rfl, ?_⟩
    cases hread : projector.readEntries planned.content <;>
      simp [Sync.apply, hbase, hconflicts, hread, Except.map]
  | write message =>
    obtain ⟨hbase, hconflicts⟩ := of_decide_eq_true h
    exact .inr ⟨message, rfl, by simp [Sync.apply, hbase, hconflicts]⟩

/-- The record of an apply and the backups agree with the file before it. -/
def Held (disk : Disk) (path : String) (applied : Applied Hash) (before : Option String) : Prop :=
  if applied.created then before = none else before ≠ none ∧ disk.newestBackup path = before

/-- The file of a record is as the apply left it. -/
structure Untouched (D : Digests Hash) (disk : Disk) (path : String) (applied : Applied Hash) :
    Prop where
  named : applied.path = path
  text : ∃ content, disk.files path = some content ∧ D.file content = applied.fileHash

omit [DecidableEq Hash] in
theorem Untouched.congr {disk disk' : Disk} {path : String} {applied : Applied Hash}
    (h : Untouched D disk path applied) (hfile : disk'.files path = disk.files path) :
    Untouched D disk' path applied :=
  ⟨h.named, hfile ▸ h.text⟩

/-- What a rollback does to a file that nobody touched since the apply. -/
theorem rollback_restores_iff {disk : Disk} {path : String} {applied : Applied Hash}
    {before : Option String} (h : Untouched D disk path applied) :
    (∃ disk', Sync.rollback D applied disk false = (.ok (), disk') ∧
      disk'.files path = before ∧ ∀ p ≠ path, disk'.files p = disk.files p) ↔
      Held disk path applied before := by
  obtain ⟨rfl, content, hfile, hhash⟩ := h
  simp only [Sync.rollback, hfile, hhash, ne_eq, not_true_eq_false, false_and, if_false, Held]
  by_cases hc : applied.created = true
  · simp only [hc, if_true]
    constructor
    · rintro ⟨disk', heq, hbefore, -⟩
      obtain ⟨-, rfl⟩ := Prod.mk.inj heq
      simpa [Disk.removeFile, eq_comm] using hbefore
    · rintro rfl
      exact ⟨_, rfl, by simp [Disk.removeFile], fun p hp => by simp [Disk.removeFile, hp]⟩
  · simp only [hc]
    cases hnewest : disk.newestBackup applied.path with
    | none =>
      constructor
      · rintro ⟨disk', heq, -⟩
        cases (Prod.mk.inj heq).1
      · rintro ⟨hne, heq⟩
        exact absurd heq.symm hne
    | some contents =>
      constructor
      · rintro ⟨disk', heq, hbefore, -⟩
        obtain ⟨-, rfl⟩ := Prod.mk.inj heq
        have hbefore : some contents = before := by simpa [Disk.writeAtomic] using hbefore
        exact ⟨hbefore ▸ Option.some_ne_none contents, hbefore⟩
      · rintro ⟨-, rfl⟩
        exact ⟨_, rfl, by simp [Disk.writeAtomic], fun p hp => by simp [Disk.writeAtomic, hp]⟩

omit [DecidableEq Hash] in
/-- When a backup of some file leaves a path with its own backup. -/
theorem held_backupFile_iff {disk : Disk} {path p : String} {now : Nat} {applied : Applied Hash}
    {before : Option String} (h : Held disk p applied before) :
    Held (disk.backupFile path now) p applied before ↔
      (applied.created = false → Projections.Clear disk path now p before) := by
  unfold Held at h ⊢
  by_cases hc : applied.created = true
  · simpa [hc] using h
  · rw [if_neg hc] at h ⊢
    simp only [Bool.not_eq_true] at hc
    simp only [hc, forall_const, h.1, ne_eq, not_false_eq_true, true_and]
    cases hfile : disk.files path with
    | none => simp [Projections.Clear, Disk.backupFile_of_none hfile, hfile, h.2]
    | some text =>
      by_cases hdir : disk.encodePath p = disk.encodePath path
      · obtain ⟨hover, hnot⟩ := Disk.newestBackup_backupFile now hfile hdir
        by_cases hovertaken : disk.Overtaken path now
        · simp [Projections.Clear, hover hovertaken, hovertaken, h.2]
        · simp [Projections.Clear, hnot hovertaken, hovertaken, hdir, hfile, eq_comm]
      · simp [Projections.Clear, Disk.newestBackup_backupFile_of_ne hdir, hdir, h.2]

theorem ApplyCall.plan_eq_ok {call : ApplyCall Hash} {planned : ProjectionPlan Hash}
    (h : call.plan D F = .ok planned) :
    planned.path = call.path ∧ planned.created = blank (call.original.getD "") := by
  unfold ApplyCall.plan Sync.plan at h
  obtain ⟨onDisk, -, h⟩ := bind_eq_ok h
  obtain ⟨⟨content, entries⟩, -, h⟩ := bind_eq_ok h
  obtain rfl := Except.ok.inj h
  exact ⟨rfl, rfl⟩

namespace Projections

variable {s t : Projections Hash}

/-- An apply does nothing, or takes a backup and fails to write, or writes the file and
records the apply if it can read the file back. -/
theorem apply_cases {call : ApplyCall Hash} {now : Nat} {io : Io}
    (h : s.apply D F call now io = t) :
    (t = s ∧ ∀ planned, call.plan D F = .ok planned → ¬ reaches D planned s.disk io) ∨
    ∃ planned, call.plan D F = .ok planned ∧ reaches D planned s.disk io ∧
      ((io ≠ .ok ∧ t = ⟨s.disk.backupFile call.path now, s.last⟩ ∧
        ∃ error, (Sync.apply D (projectors F call.target) planned s.disk now io).1 = .error error) ∨
      (io = .ok ∧
        t.disk = (s.disk.backupFile call.path now).writeAtomic call.path planned.content ∧
        ((∃ readBack, (Sync.apply D (projectors F call.target) planned s.disk now io).1 =
            .ok (applied D planned readBack) ∧
          t.last = s.record call.path
            (some (applied D planned readBack, s.disk.files call.path))) ∨
        ∃ error, (Sync.apply D (projectors F call.target) planned s.disk now io).1 =
            .error error ∧ t.last = s.record call.path none))) := by
  unfold Projections.apply at h
  cases hplan : call.plan D F with
  | error error =>
    rw [hplan] at h
    exact .inl ⟨h.symm, nofun⟩
  | ok planned =>
    obtain ⟨hpath, -⟩ := ApplyCall.plan_eq_ok hplan
    simp only [hplan] at h
    by_cases hreach : reaches D planned s.disk io = true
    · refine .inr ⟨planned, rfl, hreach, ?_⟩
      rcases apply_of_reaches hreach with ⟨rfl, heq⟩ | ⟨message, rfl, heq⟩
      · rw [heq, hpath] at h ⊢
        refine .inr ⟨rfl, ?_⟩
        cases hread : (projectors F call.target).readEntries planned.content with
        | error error =>
          simp only [hread, Except.map, hreach, and_self, if_true] at h
          exact ⟨h ▸ rfl, .inr ⟨error, rfl, h ▸ rfl⟩⟩
        | ok readBack =>
          simp only [hread, Except.map] at h
          exact ⟨h ▸ rfl, .inl ⟨readBack, rfl, h ▸ rfl⟩⟩
      · rw [heq, hpath] at h ⊢
        refine .inl ⟨nofun, ?_, _, rfl⟩
        simpa using h.symm
    · obtain ⟨error, heq⟩ := apply_of_not_reaches hreach
      refine .inl ⟨?_, fun planned' hplanned' => Except.ok.inj hplanned' ▸ hreach⟩
      rw [heq] at h
      simpa [hreach] using h.symm

/-- The files of all records are as their applies left them. -/
def Standing (D : Digests Hash) (s : Projections Hash) : Prop :=
  ∀ path applied before, s.last path = some (applied, before) → Untouched D s.disk path applied

theorem restorable_iff_held (hs : s.Standing D) :
    s.Restorable D ↔ ∀ path applied before, s.last path = some (applied, before) →
      Held s.disk path applied before := by
  refine forall_congr' fun path => forall_congr' fun applied => forall_congr' fun before => ?_
  exact forall_congr' fun hlast => rollback_restores_iff (hs path applied before hlast)

omit [DecidableEq Hash] in
/-- The records after a change: those of the other paths, and the new one. -/
theorem forall_record_iff {path : String} {r : Option (Applied Hash × Option String)}
    {Q : String → Applied Hash → Option String → Prop} :
    (∀ p applied before, s.record path r p = some (applied, before) → Q p applied before) ↔
      (∀ p applied before, s.last p = some (applied, before) → p ≠ path → Q p applied before) ∧
        ∀ applied before, r = some (applied, before) → Q path applied before := by
  unfold record
  constructor
  · intro h
    exact ⟨fun p applied before hp hne => h p applied before (by rw [if_neg hne, hp]),
      fun applied before hr => h path applied before (by rw [if_pos rfl, hr])⟩
  · rintro ⟨hothers, hown⟩ p applied before hp
    split_ifs at hp with heq
    · exact heq ▸ hown applied before hp
    · exact hothers p applied before hp heq

/-- A rollback writes the one file and takes no backup. -/
theorem rollback_frame {applied : Applied Hash} {disk disk' : Disk} {result : Except SyncError Unit}
    (h : Sync.rollback D applied disk false = (result, disk')) :
    (∀ p ≠ applied.path, disk'.files p = disk.files p) ∧
      ∀ p, disk'.newestBackup p = disk.newestBackup p := by
  unfold Sync.rollback at h
  have hsame : disk = disk' → (∀ p ≠ applied.path, disk'.files p = disk.files p) ∧
      ∀ p, disk'.newestBackup p = disk.newestBackup p := by
    rintro rfl
    exact ⟨fun _ _ => rfl, fun _ => rfl⟩
  split at h
  · exact hsame (Prod.mk.inj h).2
  · split_ifs at h
    · exact hsame (Prod.mk.inj h).2
    · obtain ⟨-, rfl⟩ := Prod.mk.inj h
      exact ⟨fun p hp => if_neg hp, fun _ => rfl⟩
    · split at h
      · exact hsame (Prod.mk.inj h).2
      · obtain ⟨-, rfl⟩ := Prod.mk.inj h
        exact ⟨fun p hp => if_neg hp, fun _ => rfl⟩

omit [DecidableEq Hash] in
/-- A step that forgets the record of the one file it writes keeps the others standing. -/
theorem Standing.forget {path : String} (hs : s.Standing D)
    (hfiles : ∀ p ≠ path, t.disk.files p = s.disk.files p) (hlast : t.last = s.record path none) :
    t.Standing D := by
  rw [Standing, hlast, forall_record_iff]
  exact ⟨fun p applied before hp hne => (hs p applied before hp).congr (hfiles p hne), nofun⟩

theorem Standing.apply (hs : s.Standing D) (call : ApplyCall Hash) (now : Nat) (io : Io) :
    (s.apply D F call now io).Standing D := by
  generalize ht : s.apply D F call now io = t
  have hwrite : ∀ content p, p ≠ call.path →
      ((s.disk.backupFile call.path now).writeAtomic call.path content).files p =
        s.disk.files p := by
    intro content p hp
    simp [Disk.writeAtomic, hp]
  rcases apply_cases ht with ⟨rfl, -⟩ | ⟨planned, hplan, -, ⟨-, rfl, -⟩ |
    ⟨-, hdisk, ⟨readBack, -, hlast⟩ | ⟨-, -, hlast⟩⟩⟩
  · exact hs
  · intro p applied before hp
    exact (hs p applied before hp).congr (congrFun (Disk.backupFile_files ..) p)
  · rw [Standing, hlast, forall_record_iff]
    refine ⟨fun p record before hp hne => ?_, fun record before hr => ?_⟩
    · exact (hs p record before hp).congr (hdisk ▸ hwrite planned.content p hne)
    · obtain ⟨rfl, rfl⟩ := Prod.mk.inj (Option.some.inj hr)
      refine ⟨(ApplyCall.plan_eq_ok hplan).1, planned.content, ?_, rfl⟩
      simp [hdisk, Disk.writeAtomic]
  · exact hs.forget (fun p hp => hdisk ▸ hwrite planned.content p hp) hlast

theorem Standing.step {act : ProjectionAct Hash} (hs : s.Standing D)
    (hst : s.step D F S act = some t) : t.Standing D := by
  cases act with
  | apply call now io =>
    obtain rfl := Option.some.inj hst
    exact hs.apply call now io
  | rollback path =>
    cases hlast : s.last path with
    | none =>
      simp only [Projections.step, hlast] at hst
      exact Option.some.inj hst ▸ hs
    | some r =>
      obtain ⟨applied, before⟩ := r
      rcases hroll : Sync.rollback D applied s.disk false with ⟨result, disk⟩
      simp only [Projections.step, hlast, hroll] at hst
      cases result with
      | error error => exact Option.some.inj hst ▸ hs
      | ok _ =>
        obtain rfl := Option.some.inj hst
        have hpath := (hs path applied before hlast).named
        exact hs.forget (hpath ▸ (rollback_frame hroll).1) rfl
  | writeRegistry path file now =>
    obtain rfl := Option.some.inj hst
    refine hs.forget (fun p hp => ?_) rfl
    simp [writeRegistry, Disk.writeAtomic, hp]
  | edit path text =>
    obtain rfl := Option.some.inj hst
    exact hs.forget (fun p hp => if_neg hp) rfl

omit [DecidableEq Hash] in
/-- Records and backups agree for the path of an apply itself. -/
theorem held_own_iff {disk : Disk} {path : String} {now : Nat} {applied : Applied Hash} :
    Held (disk.backupFile path now) path applied (disk.files path) ↔
      (disk.files path = none ↔ applied.created = true) ∧
      ∀ text, disk.files path = some text → disk.Overtaken path now →
        disk.newestBackup path = some text := by
  unfold Held
  cases hfile : disk.files path with
  | none => by_cases hc : applied.created = true <;> simp [hc]
  | some text =>
    obtain ⟨hover, hnot⟩ := Disk.newestBackup_backupFile now hfile rfl
    by_cases hc : applied.created = true
    · simp [hc]
    · by_cases hovertaken : disk.Overtaken path now
      · simp [hc, hover hovertaken, hovertaken]
      · simp [hc, hnot hovertaken, hovertaken]

omit [DecidableEq Hash] in
theorem held_congr {disk disk' : Disk} {path : String} {applied : Applied Hash}
    {before : Option String} (h : disk'.newestBackup path = disk.newestBackup path) :
    Held disk' path applied before ↔ Held disk path applied before := by
  rw [Held, Held, h]

theorem restorable_apply_iff (hs : s.Standing D) (hr : s.Restorable D) (call : ApplyCall Hash)
    (now : Nat) (io : Io) :
    (s.apply D F call now io).Restorable D ↔ s.Safe D F (.apply call now io) := by
  have ht' : (s.apply D F call now io).Standing D := hs.apply call now io
  generalize ht : s.apply D F call now io = t at ht'
  rw [restorable_iff_held hs] at hr
  rw [restorable_iff_held ht']
  rcases apply_cases ht with ⟨rfl, hnot⟩ | ⟨planned, hplan, hreach, hrest⟩
  · exact iff_of_true hr fun planned hplan hreach => absurd hreach (hnot planned hplan)
  obtain ⟨-, hcreated⟩ := ApplyCall.plan_eq_ok hplan
  refine Iff.trans ?_ (show _ ↔ s.Safe D F (.apply call now io) from
    ⟨fun h planned' hplan' _ => Except.ok.inj (hplan.symm.trans hplan') ▸ h,
      fun h => h planned hplan hreach⟩)
  -- a record that is kept is held if and only if the new backup is clear of it
  have hkept : ∀ p applied before, s.last p = some (applied, before) →
      (Held (s.disk.backupFile call.path now) p applied before ↔
        (applied.created = false → Clear s.disk call.path now p before)) :=
    fun p applied before hp => held_backupFile_iff (hr p applied before hp)
  rcases hrest with ⟨hio, rfl, error, herror⟩ | ⟨rfl, hdisk, hresult⟩
  · simp only [herror]
    constructor
    · intro h
      exact ⟨fun p applied before hp _ => (hkept p applied before hp).mp (h p applied before hp),
        nofun⟩
    · rintro ⟨hclear, -⟩ p applied before hp
      exact (hkept p applied before hp).mpr (hclear p applied before hp fun _ => hio)
  · have hheld : ∀ p (record : Applied Hash) before,
        Held t.disk p record before ↔ Held (s.disk.backupFile call.path now) p record before :=
      fun p record before => held_congr (hdisk ▸ rfl)
    have hothers : (∀ p record before, s.last p = some (record, before) → p ≠ call.path →
          Held t.disk p record before) ↔
        ∀ p record before, s.last p = some (record, before) → (p = call.path → Io.ok ≠ .ok) →
          record.created = false → Clear s.disk call.path now p before := by
      refine forall_congr' fun p => forall_congr' fun record => forall_congr' fun before => ?_
      refine forall_congr' fun hp => imp_congr ⟨fun hne heq => absurd heq hne,
        fun hne heq => hne heq rfl⟩ ?_
      rw [hheld, hkept p record before hp]
    rcases hresult with ⟨readBack, hok, hlast⟩ | ⟨error, herror, hlast⟩
    · rw [hlast, forall_record_iff, hothers]
      refine and_congr_right' ?_
      simp only [hok, Except.ok.injEq, forall_eq', ← hcreated]
      have hown := (hheld call.path (applied D planned readBack) (s.disk.files call.path)).trans
        held_own_iff
      refine Iff.trans ⟨fun h => h _ _ rfl, ?_⟩ hown
      rintro h _ _ ⟨⟩
      exact h
    · rw [hlast, forall_record_iff, hothers]
      refine and_congr_right' (iff_of_true nofun ?_)
      simp only [herror]
      exact nofun

theorem restorable_step_iff {act : ProjectionAct Hash} (hs : s.Standing D) (hr : s.Restorable D)
    (hst : s.step D F S act = some t) : t.Restorable D ↔ s.Safe D F act := by
  have ht := hs.step hst
  cases act with
  | apply call now io =>
    obtain rfl := Option.some.inj hst
    exact restorable_apply_iff hs hr call now io
  | rollback path =>
    refine iff_of_true ?_ trivial
    cases hlast : s.last path with
    | none =>
      simp only [Projections.step, hlast] at hst
      exact Option.some.inj hst ▸ hr
    | some r =>
      rcases hroll : Sync.rollback D r.1 s.disk false with ⟨result, disk⟩
      simp only [Projections.step, hlast, hroll] at hst
      cases result with
      | error error => exact Option.some.inj hst ▸ hr
      | ok _ =>
        obtain rfl := Option.some.inj hst
        rw [restorable_iff_held hs] at hr
        rw [restorable_iff_held ht, forall_record_iff]
        refine ⟨fun p applied before hp _ => ?_, nofun⟩
        exact (held_congr ((rollback_frame hroll).2 p)).mpr (hr p applied before hp)
  | writeRegistry path file now =>
    obtain rfl := Option.some.inj hst
    rw [restorable_iff_held hs] at hr
    rw [restorable_iff_held ht, forall_record_iff]
    refine (and_iff_left nofun).trans ?_
    refine forall_congr' fun p => forall_congr' fun applied => forall_congr' fun before => ?_
    refine forall_congr' fun hp => imp_congr Iff.rfl ?_
    exact held_backupFile_iff (hr p applied before hp)
  | edit path text =>
    obtain rfl := Option.some.inj hst
    rw [restorable_iff_held hs] at hr
    rw [restorable_iff_held ht, forall_record_iff]
    exact iff_of_true ⟨fun p applied before hp _ => hr p applied before hp, nofun⟩ trivial

/-! ## Whole runs -/

variable (D F S) in
/-- In every state of a run the latest apply on each path can be rolled back to the file
before it, if and only if every step of the run is safe. -/
theorem rollback_restores_run (disk : Disk) (acts : List (ProjectionAct Hash)) :
    Always (step D F S) (Restorable D) ⟨disk, fun _ => none⟩ acts ↔
      Meets (step D F S) (Safe D F) ⟨disk, fun _ => none⟩ acts := by
  refine always_iff_meets (I := fun s => s.Standing D ∧ s.Restorable D) (fun _ h => h.2) ?_ ?_
    ⟨nofun, nofun⟩
  · intro s act t h hsafe hst
    exact ⟨h.1.step hst, (restorable_step_iff h.1 h.2 hst).mpr hsafe⟩
  · intro s act t h hst ht
    exact (restorable_step_iff h.1 h.2 hst).mp ht

/-- One server for a Codex file that is empty. -/
def fillEmpty : ProjectionAct (RegistryEntry ⊕ String) :=
  .apply ⟨.codex, "config.toml", .global, some "", oneServer {}, .empty⟩ 0 .ok

/-- A file that is there and empty is deleted by the rollback. -/
theorem empty_file_deleted :
    ¬ Always (step exactDigests oneServerFormats twoTexts) (Restorable exactDigests)
      ⟨oneFile "config.toml" "", fun _ => none⟩ [fillEmpty] := by
  intro h
  obtain ⟨disk, hroll, hfile, -⟩ := h.last rfl "config.toml" _ _ rfl
  obtain ⟨-, rfl⟩ := Prod.mk.inj hroll
  cases hfile

end Projections

end Machine

end Tethys.Sync
