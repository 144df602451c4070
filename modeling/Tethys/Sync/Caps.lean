import Tethys.Lib.Tally
import Tethys.Sync.Jail

/-!
# The caps of an archive

`extract_zip` and `extract_tar` count the declared sizes of the entries in 64 bits, which a release
build lets wrap, and compare the total after each addition. `archiveCapped_iff` says which archives
cannot get around the cap: those without a size that leads from within the cap past 2^64.
-/

namespace Tethys.Sync

open Lib

/-! ## Runs with any answers -/

/-- The system answers an operation in any way. -/
def anyAnswer {Hash : Type} : Unit → (op : ImportOp Hash) → op.Res → Unit → Prop := fun _ _ _ _ => True

/-- The program can end well. -/
def Succeeds {Hash : Type} (p : ImportProgram Hash Unit) : Prop := p.Runs anyAnswer () (.ok ()) ()

section Succeeds
variable {Hash : Type} {path : Path} {next : ImportProgram Hash Unit}

theorem succeeds_done : Succeeds (.ret (.ok ()) : ImportProgram Hash Unit) := .ret _ _

theorem not_succeeds_fail (e : SkillError) : ¬ Succeeds (fail e : ImportProgram Hash Unit) := nofun

theorem succeeds_call {op : ImportOp Hash} {rest : op.Res → ImportProgram Hash Unit} :
    Succeeds (.call op rest) ↔ ∃ r, Succeeds (rest r) := by
  constructor
  · rintro (_ | ⟨-, hrest⟩)
    exact ⟨_, hrest⟩
  · rintro ⟨r, hrest⟩
    exact .call trivial hrest

theorem succeeds_createDirAll : Succeeds (createDirAll path fail next) ↔ Succeeds next := by
  rw [createDirAll, succeeds_call]
  simp [not_succeeds_fail]

end Succeeds

/-! ## Zip -/

/-- The mode says that the entry is a link. -/
def isSymlink (entry : ZipEntry) : Bool := entry.unixMode.any fun mode => mode &&& 0o170000 = 0o120000

/-- The entry is not refused for itself. -/
def ZipClean (enclosedName : String → Option String) : Except String ZipEntry → Prop
  | .ok entry => (enclosedName entry.name).isSome ∧ (entry.isDir = true ∨ isSymlink entry = false)
  | .error _ => False

/-- The declared size of a file. -/
def zipFileSize : Except String ZipEntry → Option Nat
  | .ok entry => if entry.isDir then none else some entry.size
  | .error _ => none

instance (enclosedName : String → Option String) : DecidablePred (ZipClean enclosedName) := fun entry =>
  match entry with
  | .ok _ => inferInstanceAs (Decidable (_ ∧ _))
  | .error _ => inferInstanceAs (Decidable False)

/-- The sizes of the files before the first entry that is refused for itself. -/
def zipSizes (enclosedName : String → Option String) : Archive ZipEntry → List Nat
  | .error _ => []
  | .ok entries =>
    if maxArchiveEntries < entries.length then []
    else (entries.takeWhile fun entry => decide (ZipClean enclosedName entry)).filterMap zipFileSize

section Zip
variable {Hash : Type} {enclosedName : String → Option String} {destination : Path}

/-- The loop ends well if no entry is refused and no total is above the cap. -/
theorem succeeds_extractZipEntries {entries : List (Except String ZipEntry)} {total : Nat} :
    Succeeds (extractZipEntries enclosedName destination fail (.ret (.ok ()) : ImportProgram Hash Unit)
      total entries) ↔ (∀ entry ∈ entries, ZipClean enclosedName entry) ∧
        Passes maxArchiveBytes (2 ^ 64) total (entries.filterMap zipFileSize) := by
  induction entries generalizing total with
  | nil => simp [extractZipEntries, succeeds_done, Passes]
  | cons entry entries ih =>
    cases entry with
    | error message => simp [extractZipEntries, not_succeeds_fail, ZipClean]
    | ok entry =>
      rw [extractZipEntries, List.forall_mem_cons]
      cases hname : enclosedName entry.name with
      | none => simp [not_succeeds_fail, ZipClean, hname]
      | some relative =>
        dsimp only
        split_ifs with hdir hlink hcap
        · rw [succeeds_createDirAll, ih]
          simp [ZipClean, zipFileSize, hname, hdir]
        · have hsymlink : isSymlink entry = true := hlink
          simp [not_succeeds_fail, ZipClean, hdir, hsymlink]
        · simp only [not_succeeds_fail, false_iff]
          rintro ⟨-, hpasses⟩
          simp only [List.filterMap_cons, zipFileSize, if_neg hdir, Passes] at hpasses
          omega
        · have hsymlink : isSymlink entry = false := by simpa [isSymlink] using hlink
          have hwrite : Succeeds (.call (.createFile (destination.join (.parse relative))) fun ok =>
              if ok then
                extractZipEntries enclosedName destination fail (.ret (.ok ()))
                  ((total + entry.size) % 2 ^ 64) entries
              else fail .io : ImportProgram Hash Unit) ↔
              (ZipClean enclosedName (.ok entry) ∧ ∀ entry ∈ entries, ZipClean enclosedName entry) ∧
                Passes maxArchiveBytes (2 ^ 64) total ((.ok entry :: entries).filterMap zipFileSize) := by
            rw [succeeds_call]
            simp only [Bool.exists_bool, Bool.false_eq_true, if_false, if_true, not_succeeds_fail,
              false_or, ih]
            simp [ZipClean, zipFileSize, hname, hdir, hsymlink, Passes]
            omega
          split
          · rw [succeeds_createDirAll, hwrite]
          · exact hwrite

end Zip

/-! ## Tar -/

/-- The entry is not refused for itself. -/
def TarClean : Except String TarEntry → Prop
  | .ok entry => entry.kind ≠ .other ∧ (Path.parse entry.path).absolute = false ∧
      .parent ∉ (Path.parse entry.path).components
  | .error _ => False

instance : DecidablePred TarClean := fun entry =>
  match entry with
  | .ok _ => inferInstanceAs (Decidable (_ ∧ _))
  | .error _ => inferInstanceAs (Decidable False)

/-- The declared size of an entry; those of directories count as well. -/
def tarSize : Except String TarEntry → Option Nat
  | .ok entry => some entry.size
  | .error _ => none

def tarFileSize : Except String TarEntry → Option Nat
  | .ok entry => if entry.kind = .file then some entry.size else none
  | .error _ => none

/-- The sizes of the entries before the first one that is refused for itself. The loop adds the size
of one entry more than it takes. -/
def tarSizes : Archive TarEntry → List Nat
  | .error _ => []
  | .ok entries =>
    ((entries.takeWhile fun entry => decide (TarClean entry)).filterMap tarSize).take
      (maxArchiveEntries + 1)

theorem sum_tarFileSize_le (entries : List (Except String TarEntry)) :
    (entries.filterMap tarFileSize).sum ≤ (entries.filterMap tarSize).sum := by
  induction entries with
  | nil => exact Nat.le_refl _
  | cons entry entries ih =>
    cases entry with
    | error message => exact ih
    | ok entry =>
      by_cases hkind : entry.kind = .file
      · simpa [tarFileSize, tarSize, hkind] using ih
      · simp only [List.filterMap_cons, tarFileSize, tarSize, if_neg hkind, List.sum_cons]
        omega

section Tar
variable {Hash : Type} {destination : Path}

theorem succeeds_extractTarEntries {entries : List (Except String TarEntry)} {count total : Nat} :
    Succeeds (extractTarEntries destination fail (.ret (.ok ()) : ImportProgram Hash Unit) count total
      entries) ↔ (∀ entry ∈ entries, TarClean entry) ∧
        (entries = [] ∨ count + entries.length ≤ maxArchiveEntries) ∧
        Passes maxArchiveBytes (2 ^ 64) total (entries.filterMap tarSize) := by
  induction entries generalizing count total with
  | nil => simp [extractTarEntries, succeeds_done, Passes]
  | cons entry entries ih =>
    cases entry with
    | error message => simp [extractTarEntries, not_succeeds_fail, TarClean]
    | ok entry =>
      rw [extractTarEntries, List.forall_mem_cons]
      split_ifs with hkind hunsafe hcap
      · simp [not_succeeds_fail, TarClean, hkind]
      · simp only [not_succeeds_fail, false_iff, TarClean]
        rintro ⟨⟨⟨-, habsolute, hparent⟩, -⟩, -⟩
        exact hunsafe.elim (by simp [habsolute]) hparent
      · simp only [not_succeeds_fail, false_iff]
        rintro ⟨-, hcount, hpasses⟩
        simp only [List.filterMap_cons, tarSize, Passes] at hpasses
        simp only [false_or, List.length_cons] at hcount
        omega
      · have hclean : TarClean (.ok entry) := by
          simp only [not_or, Bool.not_eq_true] at hunsafe
          exact ⟨hkind, hunsafe.1, hunsafe.2⟩
        rw [succeeds_call]
        simp only [List.filterMap_cons, tarSize, Passes, List.length_cons, false_or]
        constructor
        · rintro ⟨r, hrest⟩
          cases r with
          | error message => exact absurd hrest (not_succeeds_fail _)
          | ok _ =>
            obtain ⟨hall, hcount, hpasses⟩ := ih.mp hrest
            refine ⟨⟨hclean, hall⟩, ?_, by omega, hpasses⟩
            rcases hcount with rfl | hcount
            · rw [List.length_nil]
              omega
            · omega
        · rintro ⟨⟨-, hall⟩, hcount, -, hpasses⟩
          exact ⟨.ok (), ih.mpr ⟨hall, .inr (by omega), hpasses⟩⟩

end Tar

/-! ## The caps -/

/-- An archive is taken within the caps only, and the total is exact when it is compared. -/
structure Capped (accepted : Prop) (entries : Nat) (fileSizes sizes : List Nat) : Prop where
  bounded : accepted → fileSizes.sum ≤ maxArchiveBytes ∧ entries ≤ maxArchiveEntries
  exact : ∀ a ∈ tally maxArchiveBytes (2 ^ 64) 0 sizes, a.1 + a.2 < 2 ^ 64

def Archive.entries {Entry : Type} : Archive Entry → List (Except String Entry)
  | .error _ => []
  | .ok entries => entries

section Capped
variable {Hash : Type} (enclosedName : String → Option String) (destination : Path)

def ZipCapped (Hash : Type) (archive : Archive ZipEntry) : Prop :=
  Capped (Succeeds (extractZip enclosedName archive destination fail (.ret (.ok ()) : ImportProgram Hash Unit)))
    archive.entries.length (archive.entries.filterMap zipFileSize) (zipSizes enclosedName archive)

def TarCapped (Hash : Type) (archive : Archive TarEntry) : Prop :=
  Capped (Succeeds (extractTar archive destination fail (.ret (.ok ()) : ImportProgram Hash Unit)))
    archive.entries.length (archive.entries.filterMap tarFileSize) (tarSizes archive)

theorem zipCapped_iff (archive : Archive ZipEntry) : ZipCapped enclosedName destination Hash archive ↔
    NoLeap maxArchiveBytes (2 ^ 64) 0 (zipSizes enclosedName archive) := by
  rw [← tally_lt_iff (Nat.zero_le _)]
  refine ⟨(·.exact), fun hexact => ⟨fun haccepted => ?_, hexact⟩⟩
  cases archive with
  | error message => exact absurd haccepted (not_succeeds_fail _)
  | ok entries =>
    rw [extractZip] at haccepted
    split_ifs at haccepted with hlength
    · exact absurd haccepted (not_succeeds_fail _)
    · obtain ⟨hclean, hpasses⟩ := succeeds_extractZipEntries.mp haccepted
      have hall : entries.takeWhile (fun entry => decide (ZipClean enclosedName entry)) = entries :=
        List.takeWhile_eq_self_iff.mpr fun entry hentry => decide_eq_true (hclean entry hentry)
      rw [zipSizes, if_neg hlength, hall, tally_lt_iff (Nat.zero_le _)] at hexact
      have hsum := sum_le_of_passes (Nat.zero_le _) hpasses hexact
      rw [Nat.zero_add] at hsum
      exact ⟨hsum, not_lt.mp hlength⟩

theorem tarCapped_iff (archive : Archive TarEntry) : TarCapped destination Hash archive ↔
    NoLeap maxArchiveBytes (2 ^ 64) 0 (tarSizes archive) := by
  rw [← tally_lt_iff (Nat.zero_le _)]
  refine ⟨(·.exact), fun hexact => ⟨fun haccepted => ?_, hexact⟩⟩
  cases archive with
  | error message => exact absurd haccepted (not_succeeds_fail _)
  | ok entries =>
    obtain ⟨hclean, hcount, hpasses⟩ := succeeds_extractTarEntries.mp haccepted
    have hlength : entries.length ≤ maxArchiveEntries := by
      rcases hcount with rfl | hcount
      · exact Nat.zero_le _
      · omega
    have hall : entries.takeWhile (fun entry => decide (TarClean entry)) = entries :=
      List.takeWhile_eq_self_iff.mpr fun entry hentry => decide_eq_true (hclean entry hentry)
    have hsizes : tarSizes (.ok entries) = entries.filterMap tarSize := by
      rw [tarSizes, hall, List.take_of_length_le]
      exact (List.length_filterMap_le _ _).trans (Nat.le_succ_of_le hlength)
    rw [hsizes, tally_lt_iff (Nat.zero_le _)] at hexact
    have hsum := sum_le_of_passes (Nat.zero_le _) hpasses hexact
    rw [Nat.zero_add] at hsum
    exact ⟨(sum_tarFileSize_le entries).trans hsum, hlength⟩

/-- The caps hold for an archive if and only if no size leads from within the cap past 2^64. -/
theorem archiveCapped_iff (zip : Archive ZipEntry) (tar : Archive TarEntry) :
    (ZipCapped enclosedName destination Hash zip ↔
      NoLeap maxArchiveBytes (2 ^ 64) 0 (zipSizes enclosedName zip)) ∧
    (TarCapped destination Hash tar ↔ NoLeap maxArchiveBytes (2 ^ 64) 0 (tarSizes tar)) :=
  ⟨zipCapped_iff enclosedName destination zip, tarCapped_iff destination tar⟩

end Capped

/-! ## A size that wraps the total -/

/-- Two files, the second of which declares the largest size. -/
def wrappingZip : Archive ZipEntry :=
  .ok [.ok ⟨"SKILL.md", false, none, 1⟩, .ok ⟨"b", false, none, 2 ^ 64 - 1⟩]

/-- The archive is taken, though the sizes are 2^64 bytes together. -/
theorem wrappingZip_taken (destination : Path) :
    Succeeds (extractZip some wrappingZip destination fail (.ret (.ok ()) : ImportProgram Unit Unit)) := by
  rw [wrappingZip, extractZip, if_neg (by decide), succeeds_extractZipEntries]
  simp [ZipClean, isSymlink, zipFileSize, Passes, maxArchiveBytes]

theorem wrappingZip_not_capped : ¬ ZipCapped some (.ofPlace []) Unit wrappingZip := by
  intro hcapped
  have hsum := (hcapped.bounded (wrappingZip_taken _)).1
  simp [Archive.entries, wrappingZip, zipFileSize, maxArchiveBytes] at hsum

end Tethys.Sync
