import Tethys.Git.Summary

/-!
# Reading the records of git

Three formats end their records by NUL: the raw records of `git diff-tree`, its counts, and the
status of a worktree. In each the path stands last, so that it may contain the separators of the
other fields. In a raw record a NUL stands between the fields and the path as well, and the parser
takes two pieces for one record.
-/

namespace Tethys.Git

open Lib

/-! ## The parser -/

/-- The fields of a raw record before its path. -/
structure RawMeta where
  oldMode : String
  newMode : String
  oldOid : String
  newOid : String
  status : DiffFileStatus

/-- A raw `diff-tree` record as it is read. -/
structure RawEntry extends RawMeta where
  path : String

/-- A piece without a leading colon, or with less than five fields, starts no record. -/
def parseMeta : List Char → Option RawMeta
  | ':' :: text =>
    match text.splitOn ' ' with
    | oldMode :: newMode :: oldOid :: newOid :: status :: _ =>
      some {
        oldMode := String.ofList oldMode
        newMode := String.ofList newMode
        oldOid := String.ofList oldOid
        newOid := String.ofList newOid
        status := mapStatus (status.head?.getD '?') }
    | _ => none
  | _ => none

/-- The piece after the fields of a record is its path, whatever it is. -/
def parseChunks : List (List Char) → List RawEntry
  | [] => []
  | chunk :: chunks =>
    match parseMeta chunk with
    | none => parseChunks chunks
    | some fields =>
      match chunks with
      | [] => [⟨fields, ""⟩]
      | path :: chunks => ⟨fields, String.ofList path⟩ :: parseChunks chunks

def parseRawEntries (raw : List Char) : List RawEntry := parseChunks (raw.splitOn nul)

/-! ## The output -/

def DiffFileStatus.letter : DiffFileStatus → Char
  | .added => 'A'
  | .modified => 'M'
  | .deleted => 'D'
  | .renamed => 'R'
  | .copied => 'C'
  | .typeChanged => 'T'
  | .unmerged => 'U'
  | .other => 'X'

@[simp] theorem mapStatus_letter (status : DiffFileStatus) : mapStatus status.letter = status := by
  cases status <;> rfl

theorem DiffFileStatus.letter_ne (status : DiffFileStatus) :
    status.letter ≠ ' ' ∧ status.letter ≠ nul := by
  cases status <;> decide

/-- A raw record; the status is a letter and maybe a score. -/
structure RawRecord where
  oldMode : Word
  newMode : Word
  oldOid : Word
  newOid : Word
  status : DiffFileStatus
  score : Word
  path : Path

namespace RawRecord
variable (r : RawRecord)

def statusChars : List Char := r.status.letter :: r.score.val.toList

/-- The fields before the path. -/
def metaChars : List Char :=
  ':' :: joined ' ' ([r.oldMode, r.newMode, r.oldOid, r.newOid].map fun w => w.val.toList) r.statusChars

/-- The entry that the record stands for. -/
def entry : RawEntry where
  oldMode := r.oldMode.val
  newMode := r.newMode.val
  oldOid := r.oldOid.val
  newOid := r.newOid.val
  status := r.status
  path := r.path.val

/-- The two pieces of a record. -/
def chunks : List (List Char) := [r.metaChars, r.path.val.toList]

end RawRecord

/-- What `git diff-tree --raw -z` prints for the records. -/
def rawOutput (records : List RawRecord) : List Char :=
  (records.flatMap RawRecord.chunks).flatMap (· ++ [nul])

/-! ## Reading back -/

namespace RawRecord
variable (r : RawRecord)

theorem notMem_statusChars : ' ' ∉ r.statusChars ∧ nul ∉ r.statusChars := by
  have hletter := r.status.letter_ne
  have hscore := r.score.property
  simp only [statusChars, List.mem_cons, not_or]
  exact ⟨⟨hletter.1.symm, hscore.1⟩, hletter.2.symm, hscore.2⟩

theorem nul_notMem_chunks : ∀ chunk ∈ r.chunks, nul ∉ chunk := by
  have hmeta : nul ∉ r.metaChars := by
    rw [metaChars, List.mem_cons, not_or]
    exact ⟨by decide, notMem_joined (List.forall_mem_map.mpr fun w _ => w.property.2) (by decide)
      r.notMem_statusChars.2⟩
  simp only [chunks, List.forall_mem_cons]
  exact ⟨hmeta, r.path.property, nofun⟩

/-- The fields come back, as no field has a space. -/
theorem parseMeta_metaChars : parseMeta r.metaChars = some r.entry.toRawMeta := by
  have hwords : ∀ word ∈ [r.oldMode, r.newMode, r.oldOid, r.newOid].map fun w => w.val.toList,
      ' ' ∉ word := List.forall_mem_map.mpr fun w _ => w.property.1
  have hsplit := splitOn_joined hwords r.notMem_statusChars.1
  rw [metaChars, parseMeta, hsplit]
  simp [entry, statusChars]

theorem parseChunks_append (rest : List (List Char)) :
    parseChunks (r.chunks ++ rest) = r.entry :: parseChunks rest := by
  rw [chunks, List.cons_append, List.singleton_append, parseChunks, r.parseMeta_metaChars]
  simp [entry]

end RawRecord

/-- After each record the parser stands at the next one, so that no path is taken for a record. -/
theorem parseChunks_flatMap (records : List RawRecord) (rest : List (List Char)) :
    parseChunks (records.flatMap RawRecord.chunks ++ rest) =
      records.map RawRecord.entry ++ parseChunks rest := by
  induction records with
  | nil => rfl
  | cons r records ih =>
    rw [List.flatMap_cons, List.append_assoc, r.parseChunks_append, ih, List.map_cons,
      List.cons_append]

theorem parseRawEntries_rawOutput (records : List RawRecord) :
    parseRawEntries (rawOutput records) = records.map RawRecord.entry := by
  have hchunks : ∀ chunk ∈ records.flatMap RawRecord.chunks, nul ∉ chunk :=
    List.forall_mem_flatMap.mpr fun r _ => r.nul_notMem_chunks
  rw [parseRawEntries, rawOutput, splitOn_terminated hchunks, parseChunks_flatMap]
  exact List.append_nil _

/-! ## The three formats -/

/-- The counts of the record fit in 32 bits. -/
def NumstatRecord.Fits (r : NumstatRecord) : Prop :=
  ∀ additions deletions, r.counts = some (additions, deletions) →
    additions < 2 ^ 32 ∧ deletions < 2 ^ 32

/-- The counts as they are; a binary file has none. -/
def NumstatRecord.exact (r : NumstatRecord) : String × Counts :=
  match r.counts with
  | none => (r.path.val, 0, 0, true)
  | some (additions, deletions) => (r.path.val, additions, deletions, false)

theorem NumstatRecord.Fits.entry_eq {r : NumstatRecord} (h : r.Fits) : r.entry = r.exact := by
  obtain ⟨counts, path⟩ := r
  rcases counts with _ | ⟨additions, deletions⟩
  · rfl
  · obtain ⟨hadditions, hdeletions⟩ := h additions deletions rfl
    simp only [entry, exact, readCounts, readCount, if_pos hadditions, if_pos hdeletions]

/-- Each parser reads the records that its format was printed for, whatever the paths are. -/
theorem parse_printed (raws : List RawRecord) (stats : List NumstatRecord) (statuses : List StatusRecord)
    (hfits : ∀ r ∈ stats, r.Fits) :
    parseRawEntries (rawOutput raws) = raws.map RawRecord.entry ∧
      parseNumstat (numstatOutput stats) = .ofList (stats.map NumstatRecord.exact) ∧
      parsePorcelainV2 (porcelainV2 statuses) = statuses.map StatusRecord.entry := by
  refine ⟨parseRawEntries_rawOutput raws, ?_, parsePorcelainV2_porcelainV2 statuses⟩
  rw [parseNumstat_numstatOutput, List.map_congr_left fun r hr => (hfits r hr).entry_eq]

theorem word_zeros : ' ' ∉ "0000000000000000000000000000000000000000".toList ∧
    nul ∉ "0000000000000000000000000000000000000000".toList := by
  decide

def zeroOid : Word := ⟨"0000000000000000000000000000000000000000", word_zeros⟩

/-- A path that looks like the beginning of a raw record. -/
def colonPath : Path := ⟨":1 2 3 4 M\t\n", by decide⟩

theorem parse_printed_colonPath :
    parseRawEntries (rawOutput [⟨⟨"000000", by decide⟩, ⟨"100644", by decide⟩, zeroOid, zeroOid, .added,
        ⟨"", by decide⟩, colonPath⟩]) =
      [⟨⟨"000000", "100644", zeroOid.val, zeroOid.val, .added⟩, colonPath.val⟩] ∧
      parseNumstat (numstatOutput [⟨some (7, 0), colonPath⟩, ⟨none, notePath⟩]) =
        .ofList [(colonPath.val, 7, 0, false), (notePath.val, 0, 0, true)] ∧
      parsePorcelainV2 (porcelainV2 [.untracked colonPath]) = [⟨colonPath.val, true, false, true⟩] := by
  refine parse_printed _ _ _ ?_
  rintro r hr additions deletions hcounts
  simp only [List.mem_cons, List.not_mem_nil, or_false] at hr
  rcases hr with rfl | rfl
  · cases hcounts
    decide
  · cases hcounts

end Tethys.Git
