import Tethys.Git.Display
import Tethys.Git.Refs
import Tethys.Lib.Utf8
import Mathlib.Data.List.Dedup
import Mathlib.Data.List.Sort

/-!
# Summary and detail of a diff

`summary` lists the files that differ between two trees, with the counts of `git diff-tree
--numstat`; `file_detail` loads one of them and counts the lines of its own hunks. Both say whether
a file is binary and whether its content is withheld. `viewsAgree_iff` says for which files they
say the same.

The line diff of git is a library as well, of which the contract is known. The content of a blob
stands for its name. Attributes and submodules are left out.
-/

namespace Tethys.Git

open Lib

def collapseBytes : Nat := 1024 * 1024

def collapseLines : Nat := 20000

structure DiffFile where
  path : String
  oldPath : Option String
  status : DiffFileStatus
  additions : Nat
  deletions : Nat
  binary : Bool
  collapsed : Bool

structure DiffSummary where
  files : List DiffFile
  additions : Nat
  deletions : Nat

structure DiffFileDetail where
  path : String
  binary : Bool
  collapsed : Bool
  additions : Nat
  deletions : Nat
  hunks : List DiffHunk

/-- One raw `diff-tree` record. An object that is missing has no name. -/
structure FileEntry where
  path : String
  oldOid : Option Text
  newOid : Option Text
  oldMode : String
  newMode : String
  status : DiffFileStatus

/-- A text file prepared for rendering or patch generation. -/
structure FilePatchContext where
  entry : FileEntry
  oldTokens : List Text
  newTokens : List Text
  hunks : List ComputedHunk

inductive LoadedFile where
  | absent
  | binary (entry : FileEntry) (additions deletions : Nat)
  | collapsed (entry : FileEntry) (additions deletions : Nat)
  | text (context : FilePatchContext)

/-! ## The output of git -/

/-- The line diff of git, which takes texts of any length. -/
structure GitDiff where
  hunks : List Text → List Text → List Change
  changed : ∀ old new, Changed old new 0 0 (hunks old new) old.length new.length

/-- A blob is binary for git if there is a zero byte near its beginning. -/
def gitBinary (bytes : Text) : Bool := (bytes.take 8000).any (· = 0)

def mapStatus : Char → DiffFileStatus
  | 'A' => .added
  | 'M' => .modified
  | 'D' => .deleted
  | 'R' => .renamed
  | 'C' => .copied
  | 'T' => .typeChanged
  | 'U' => .unmerged
  | _ => .other

section Output
variable (git : GitDiff) (old new : Tree)

/-- The paths at which the trees differ, in order. -/
def changedPaths : List Path :=
  ((old.paths ++ new.paths).dedup.mergeSort (· ≤ ·)).filter fun p => old.get p ≠ new.get p

def oidAt (tree : Tree) (p : Path) : Option Text := (tree.get p).map (·.bytes)

/-- The record of `git diff-tree --raw` for a path. -/
def rawEntry (p : Path) : FileEntry where
  path := p.val
  oldOid := oidAt old p
  newOid := oidAt new p
  oldMode := (modeWord (old.get p)).val
  newMode := (modeWord (new.get p)).val
  status := mapStatus (diffCode (old.get p) (new.get p)).letter

/-- The changes between the lines of two blobs, as git finds them. -/
def GitDiff.changes (oldOid newOid : Option Text) : List Change :=
  git.hunks (lineTokens (oldOid.getD [])) (lineTokens (newOid.getD []))

/-- The words of a record of `--numstat`. -/
def numstatWords (oldOid newOid : Option Text) : List (List Char) :=
  if gitBinary (oldOid.getD []) || gitBinary (newOid.getD []) then [['-'], ['-']]
  else
    [Nat.toDigits 10 (added (git.changes oldOid newOid)),
      Nat.toDigits 10 (removed (git.changes oldOid newOid))]

/-- What `git diff-tree --numstat -z` prints for these paths. -/
def numstat (paths : List Path) : List Char :=
  (paths.map fun p => joined '\t' (numstatWords git (oidAt old p) (oidAt new p)) p.val.toList).flatMap
    (· ++ [nul])

end Output

/-! ## Reading the counts -/

/-- Added lines, removed lines, and whether the file is binary. -/
abbrev Counts := Nat × Nat × Bool

def parseCounts (chunk : List Char) : Option (String × Counts) :=
  match splitn '\t' 3 chunk with
  | [additions, deletions, path] =>
    if additions = ['-'] ∨ deletions = ['-'] then some (String.ofList path, 0, 0, true)
    else
      some (String.ofList path, (parseU32 additions).getD 0, (parseU32 deletions).getD 0, false)
  | _ => none

def parseNumstat (raw : List Char) : OrdMap String Counts :=
  .ofList ((raw.splitOn nul).filterMap parseCounts)

/-- The words of the counts of a file; a binary file has dashes. -/
def countWords : Option (Nat × Nat) → List (List Char)
  | none => [['-'], ['-']]
  | some (additions, deletions) => [Nat.toDigits 10 additions, Nat.toDigits 10 deletions]

/-- A number as it is read; out of the range it counts as zero. -/
def readCount (n : Nat) : Nat := if n < 2 ^ 32 then n else 0

/-- What is read of the counts of a file. -/
def readCounts : Option (Nat × Nat) → Counts
  | none => (0, 0, true)
  | some (additions, deletions) => (readCount additions, readCount deletions, false)

/-- A record of `--numstat`. -/
structure NumstatRecord where
  counts : Option (Nat × Nat)
  path : Path

namespace NumstatRecord

def chars (r : NumstatRecord) : List Char := joined '\t' (countWords r.counts) r.path.val.toList

def entry (r : NumstatRecord) : String × Counts := (r.path.val, readCounts r.counts)

end NumstatRecord

/-- What `git diff-tree --numstat -z` prints for the records. -/
def numstatOutput (records : List NumstatRecord) : List Char :=
  (records.map NumstatRecord.chars).flatMap (· ++ [nul])

theorem digits_notMem {c : Char} (hc : c.isDigit = false) (n : Nat) : c ∉ Nat.toDigits 10 n := fun hmem => by
  rw [Nat.isDigit_of_mem_toDigits (by decide) (by decide) hmem] at hc
  cases hc

theorem notMem_countWords {c : Char} (hc : c.isDigit = false) (hdash : c ≠ '-')
    (counts : Option (Nat × Nat)) : ∀ word ∈ countWords counts, c ∉ word := by
  rcases counts with _ | ⟨additions, deletions⟩
  · simp [countWords, hdash]
  · simp [countWords, digits_notMem hc]

theorem parseCounts_chars (r : NumstatRecord) : parseCounts r.chars = some r.entry := by
  have hsplit := splitn_joined (notMem_countWords (c := '\t') (by decide) (by decide) r.counts)
    r.path.val.toList
  have hread : ∀ n, (parseU32 (Nat.toDigits 10 n)).getD 0 = readCount n := fun n => by
    rw [parseU32_toDigits, readCount]
    split_ifs <;> rfl
  have hdash : ∀ n, Nat.toDigits 10 n ≠ ['-'] := fun n heq =>
    digits_notMem (c := '-') (by decide) n (by simp [heq])
  obtain ⟨counts, path⟩ := r
  rcases counts with _ | ⟨additions, deletions⟩
  · change splitn '\t' 3 (NumstatRecord.chars ⟨none, path⟩) = _ at hsplit
    rw [parseCounts, hsplit]
    simp [countWords, NumstatRecord.entry, readCounts]
  · change splitn '\t' 3 (NumstatRecord.chars ⟨some (additions, deletions), path⟩) = _ at hsplit
    rw [parseCounts, hsplit]
    simp [countWords, NumstatRecord.entry, readCounts, hread, hdash]

/-- The parser reads the entries of the records, whatever the paths are. -/
theorem parseNumstat_numstatOutput (records : List NumstatRecord) :
    parseNumstat (numstatOutput records) = .ofList (records.map NumstatRecord.entry) := by
  have hchunks : ∀ chunk ∈ records.map NumstatRecord.chars, nul ∉ chunk :=
    List.forall_mem_map.mpr fun r _ =>
      notMem_joined (notMem_countWords (by decide) (by decide) r.counts) (by decide) r.path.property
  have hparsed : records.filterMap (parseCounts ∘ NumstatRecord.chars) =
      records.map NumstatRecord.entry := by
    rw [← List.filterMap_eq_map]
    exact List.filterMap_congr fun r _ => parseCounts_chars r
  rw [parseNumstat, numstatOutput, splitOn_terminated hchunks, List.filterMap_append,
    List.filterMap_map, hparsed]
  congr 1
  exact List.append_nil _

/-! ## The cache of hunks -/

/-- The text that a blob is read as. -/
def textOf (oid : Option Text) : Text := toStringLossy (oid.getD [])

def cacheCapacity : Nat := 256

/-- Hunks under the names of the two blobs, the oldest first; they are what the diff of these blobs
gives. -/
structure DiffCache (diff : LineDiff) where
  entries : List ((Option Text × Option Text) × List ComputedHunk)
  computed : ∀ e ∈ entries, compute diff (textOf e.1.1) (textOf e.1.2) = some e.2

namespace DiffCache
variable {diff : LineDiff} (cache : DiffCache diff) (key : Option Text × Option Text)

def empty : DiffCache diff := ⟨[], nofun⟩

def get : Option (List ComputedHunk) := cache.entries.lookup key

/-- A full cache drops its oldest entry. -/
def insert (hunks : List ComputedHunk)
    (h : compute diff (textOf key.1) (textOf key.2) = some hunks) : DiffCache diff :=
  if (cache.get key).isSome then cache
  else
    { entries := (if cache.entries.length ≥ cacheCapacity then cache.entries.tail else cache.entries) ++
        [(key, hunks)]
      computed := by
        intro e he
        rcases List.mem_append.mp he with he | he
        · refine cache.computed e ?_
          split_ifs at he
          · exact List.mem_of_mem_tail he
          · exact he
        · obtain rfl := List.mem_singleton.mp he
          exact h }

/-- The hunks of two blobs, from the cache or by the diff, which are then kept. -/
def hunks : Option (List ComputedHunk × DiffCache diff) :=
  match cache.get key with
  | some cached => some (cached, cache)
  | none =>
    match h : compute diff (textOf key.1) (textOf key.2) with
    | some computed => some (computed, cache.insert key computed h)
    | none => none

/-- The hunks are those of the diff, whatever is in the cache. -/
theorem map_fst_hunks :
    (cache.hunks key).map Prod.fst = compute diff (textOf key.1) (textOf key.2) := by
  unfold hunks
  split
  next cached hcached =>
    obtain ⟨l, l', hentries, -⟩ := List.lookup_eq_some_iff.mp hcached
    exact (cache.computed (key, cached) (by simp [hentries])).symm
  next =>
    split
    next computed h => exact h.symm
    next hnone => exact hnone.symm

theorem hunks_eq {computed : List ComputedHunk}
    (h : compute diff (textOf key.1) (textOf key.2) = some computed) :
    ∃ cache', cache.hunks key = some (computed, cache') := by
  obtain ⟨⟨found, cache'⟩, hfound, rfl⟩ := Option.map_eq_some_iff.mp ((cache.map_fst_hunks key).trans h)
  exact ⟨cache', hfound⟩

end DiffCache

/-! ## Loading a file -/

section Loading
variable {diff : LineDiff} (git : GitDiff) (old new : Tree) (path : Path)

/-- The paths below a pathspec that is taken literally. -/
def changedBelow : List Path := (changedPaths old new).filter (names path.val.toList)

/-- Fetches the raw entry for one path, if it changed. -/
def fileEntry : Option FileEntry := ((changedBelow old new path).map (rawEntry old new)).head?

def loadBlobs (entry : FileEntry) : Text × Text := (entry.oldOid.getD [], entry.newOid.getD [])

def numstatFor : Nat × Nat :=
  match (parseNumstat (numstat git old new (changedBelow old new path))).get path.val with
  | some (additions, deletions, _) => (additions, deletions)
  | none => (0, 0)

/-- Loads one path; none if there are too many lines for the diff. -/
def loadFile (cache : DiffCache diff) : Option (LoadedFile × DiffCache diff) :=
  match fileEntry old new path with
  | none => some (.absent, cache)
  | some entry =>
    let (oldBytes, newBytes) := loadBlobs entry
    let (additions, deletions) := numstatFor git old new path
    if looksBinary oldBytes || looksBinary newBytes then some (.binary entry 0 0, cache)
    else if oldBytes.length > collapseBytes ∨ newBytes.length > collapseBytes ∨
        saturatingAdd additions deletions > collapseLines then
      some (.collapsed entry additions deletions, cache)
    else
      (cache.hunks (entry.oldOid, entry.newOid)).map fun (hunks, cache) =>
        (.text ⟨entry, lineTokens (toStringLossy oldBytes), lineTokens (toStringLossy newBytes), hunks⟩,
          cache)

def emptyDetail : DiffFileDetail := ⟨path.val, false, false, 0, 0, []⟩

/-- Full detail for one path. -/
def fileDetail (cache : DiffCache diff) : Option (DiffFileDetail × DiffCache diff) :=
  (loadFile git old new path cache).map fun (loaded, cache) =>
    match loaded with
    | .absent => (emptyDetail path, cache)
    | .binary _ additions deletions => (⟨path.val, true, false, additions, deletions, []⟩, cache)
    | .collapsed _ additions deletions => (⟨path.val, false, true, additions, deletions, []⟩, cache)
    | .text context =>
      let (additions, deletions) := countChanges context.hunks
      (⟨path.val, false, false, additions, deletions,
        context.hunks.map fun hunk => toDisplay hunk context.oldTokens context.newTokens⟩, cache)

/-! ## The summary -/

def summaryFile (counts : OrdMap String Counts) (entry : FileEntry) : DiffFile :=
  let (additions, deletions, binary) := (counts.get entry.path).getD (0, 0, false)
  let oversized := [entry.oldOid, entry.newOid].any (·.any fun blob => blob.length > collapseBytes)
  { path := entry.path
    oldPath := none
    status := entry.status
    additions := additions
    deletions := deletions
    binary := binary
    collapsed := !binary && (oversized || saturatingAdd additions deletions > collapseLines) }

/-- Aggregates a diff for every changed file. The sums wrap in a release build. -/
def summary : DiffSummary :=
  let entries := (changedPaths old new).map (rawEntry old new)
  let counts := parseNumstat (numstat git old new (changedPaths old new))
  let files := entries.map (summaryFile counts)
  { files := files
    additions := (files.map (·.additions)).sum % 2 ^ 32
    deletions := (files.map (·.deletions)).sum % 2 ^ 32 }

end Loading

/-! ## The counts of a path -/

/-- What is read of the record of two blobs. -/
def fileCounts (git : GitDiff) (oldOid newOid : Option Text) : Counts :=
  if gitBinary (oldOid.getD []) || gitBinary (newOid.getD []) then (0, 0, true)
  else
    (readCount (added (git.changes oldOid newOid)), readCount (removed (git.changes oldOid newOid)), false)

/-- The counts that git finds for two blobs. -/
def GitDiff.counts (git : GitDiff) (oldOid newOid : Option Text) : Option (Nat × Nat) :=
  if gitBinary (oldOid.getD []) || gitBinary (newOid.getD []) then none
  else some (added (git.changes oldOid newOid), removed (git.changes oldOid newOid))

section Counts
variable {p : Path}

theorem readCounts_counts (git : GitDiff) (oldOid newOid : Option Text) :
    readCounts (git.counts oldOid newOid) = fileCounts git oldOid newOid := by
  unfold GitDiff.counts fileCounts
  split_ifs <;> rfl

theorem numstat_eq (git : GitDiff) (old new : Tree) (paths : List Path) :
    numstat git old new paths =
      numstatOutput (paths.map fun p => ⟨git.counts (oidAt old p) (oidAt new p), p⟩) := by
  have hwords : ∀ oldOid newOid, numstatWords git oldOid newOid = countWords (git.counts oldOid newOid) := by
    intro oldOid newOid
    unfold GitDiff.counts numstatWords
    split_ifs <;> rfl
  rw [numstat, numstatOutput, List.map_map]
  simp only [Function.comp_def, NumstatRecord.chars, hwords]

/-- The counts of each path are found under its name. -/
theorem get_parseNumstat (git : GitDiff) (old new : Tree) {paths : List Path} (hnodup : paths.Nodup)
    (hp : p ∈ paths) :
    (parseNumstat (numstat git old new paths)).get p.val =
      some (fileCounts git (oidAt old p) (oidAt new p)) := by
  rw [numstat_eq, parseNumstat_numstatOutput, List.map_map]
  refine OrdMap.get_ofList_of_mem ?_ (List.mem_map.mpr ⟨p, hp, ?_⟩)
  · rw [List.map_map]
    exact List.Nodup.map Subtype.val_injective hnodup
  · simp [NumstatRecord.entry, readCounts_counts]

end Counts

/-! ## The entry of a path -/

section Entry
variable {old new : Tree} {p q : Path}

theorem mem_changedPaths : p ∈ changedPaths old new ↔ old.get p ≠ new.get p := by
  rw [changedPaths, List.mem_filter, List.mem_mergeSort, List.mem_dedup, List.mem_append,
    FileTree.mem_paths, FileTree.mem_paths, decide_eq_true_eq, and_iff_right_iff_imp]
  intro hne
  by_contra hnone
  rw [not_or, not_not, not_not] at hnone
  exact hne (hnone.1.trans hnone.2.symm)

theorem pairwise_changedPaths : (changedPaths old new).Pairwise (· < ·) := by
  refine List.Pairwise.filter _ ?_
  have hsorted := List.pairwise_mergeSort' (· ≤ ·) ((old.paths ++ new.paths).dedup)
  have hnodup := (List.mergeSort_perm (old.paths ++ new.paths).dedup (· ≤ ·)).nodup_iff.mpr
    (List.nodup_dedup _)
  exact (hsorted.and hnodup).imp fun h => lt_of_le_of_ne h.1 h.2

theorem nodup_changedPaths : (changedPaths old new).Nodup :=
  pairwise_changedPaths.imp ne_of_lt

/-- A directory comes before what is inside of it. -/
theorem le_of_names (h : names p.val.toList q = true) : p ≤ q := by
  rw [names, Bool.or_eq_true, decide_eq_true_eq] at h
  refine String.le_iff_toList_le.mpr ?_
  rcases h with heq | hinside
  · rw [heq]
  · exact not_lt.mp ((List.prefix_append _ _).trans (List.isPrefixOf_iff_prefix.mp hinside)).le

/-- The first entry below a path that changed is its own. -/
theorem fileEntry_eq (h : p ∈ changedPaths old new) : fileEntry old new p = some (rawEntry old new p) := by
  have hself : names p.val.toList p = true := by simp [names]
  have hmem : p ∈ changedBelow old new p := List.mem_filter.mpr ⟨h, hself⟩
  rw [fileEntry, List.head?_map]
  cases hbelow : changedBelow old new p with
  | nil => simp [hbelow] at hmem
  | cons q rest =>
    have hpairwise : (q :: rest).Pairwise (· < ·) := hbelow ▸ pairwise_changedPaths.filter _
    have hq : q ∈ changedBelow old new p := hbelow ▸ List.mem_cons_self
    rw [hbelow] at hmem
    rcases List.mem_cons.mp hmem with rfl | hrest
    · rfl
    · exact absurd (List.rel_of_pairwise_cons hpairwise hrest)
        (not_lt_of_ge (le_of_names (List.mem_filter.mp hq).2))

theorem numstatFor_eq {git : GitDiff} (h : p ∈ changedPaths old new) :
    numstatFor git old new p = ((fileCounts git (oidAt old p) (oidAt new p)).1,
      (fileCounts git (oidAt old p) (oidAt new p)).2.1) := by
  have hmem : p ∈ changedBelow old new p := List.mem_filter.mpr ⟨h, by simp [names]⟩
  have hnodup : (changedBelow old new p).Nodup := nodup_changedPaths.filter _
  rw [numstatFor, get_parseNumstat git old new hnodup hmem]

/-- What is loaded does not depend on the cache. -/
theorem map_fst_loadFile {diff : LineDiff} (git : GitDiff) (path : Path) (cache cache' : DiffCache diff) :
    (loadFile git old new path cache).map Prod.fst = (loadFile git old new path cache').map Prod.fst := by
  unfold loadFile
  cases fileEntry old new path with
  | none => rfl
  | some entry =>
    have hhunks := (cache.map_fst_hunks (entry.oldOid, entry.newOid)).trans
      (cache'.map_fst_hunks (entry.oldOid, entry.newOid)).symm
    dsimp only
    split_ifs
    · rfl
    · rfl
    · rw [Option.map_map, Option.map_map]
      have hmap := congrArg (Option.map fun hunks => LoadedFile.text ⟨entry,
        lineTokens (toStringLossy (loadBlobs entry).1), lineTokens (toStringLossy (loadBlobs entry).2),
        hunks⟩) hhunks
      rwa [Option.map_map, Option.map_map] at hmap

/-- A path that changed has one file in the summary. -/
theorem filter_summary {git : GitDiff} (h : p ∈ changedPaths old new) :
    (summary git old new).files.filter (·.path = p.val) =
      [summaryFile (parseNumstat (numstat git old new (changedPaths old new))) (rawEntry old new p)] := by
  have hsame : ((fun file : DiffFile => decide (file.path = p.val)) ∘
      summaryFile (parseNumstat (numstat git old new (changedPaths old new)))) ∘ rawEntry old new =
        (· == p) := by
    funext q
    rw [Bool.eq_iff_iff, beq_iff_eq]
    simp [summaryFile, rawEntry, Subtype.val_inj]
  rw [summary, List.filter_map, List.filter_map, hsame, List.filter_beq,
    List.count_eq_one_of_mem nodup_changedPaths h]
  rfl

end Entry

/-! ## Lines -/

section Lines
variable {text : Text} {git : GitDiff} {oldOid newOid : Option Text}

theorem length_lineTokens_le (text : Text) : (lineTokens text).length ≤ text.length := by
  cases text with
  | nil => rfl
  | cons b text => exact length_splitInclusive_le newline _

/-- A text has as many lines as the bytes that it was read from. -/
theorem length_lineTokens_toStringLossy (bytes : Text) :
    (lineTokens (toStringLossy bytes)).length = (lineTokens bytes).length := by
  have htokens : ∀ text, lineTokens text = splitInclusive newline text := fun text => by
    cases text <;> rfl
  have hend : ∀ o : Option UInt8, (∀ b ∈ o, b = newline) ↔ o = none ∨ o = some newline := by
    rintro (_ | b) <;> simp
  rw [htokens, htokens, length_splitInclusive, length_splitInclusive,
    count_toStringLossy (by decide)]
  simp only [hend, getLast?_toStringLossy (show newline < 0x80 by decide), List.getLast?_eq_none_iff,
    toStringLossy_eq_nil]

/-- Blobs that are not too large have few enough lines for the diff. -/
theorem compute_isSome (diff : LineDiff) (hold : (oldOid.getD []).length ≤ collapseBytes)
    (hnew : (newOid.getD []).length ≤ collapseBytes) :
    (compute diff (textOf oldOid) (textOf newOid)).isSome := by
  have hsmall : collapseBytes < 2 ^ 31 - 1 := by decide
  have hlines : ∀ oid : Option Text, (oid.getD []).length ≤ collapseBytes →
      (lineTokens (textOf oid)).length < 2 ^ 31 - 1 := fun oid hoid => by
    have hle := length_lineTokens_le (oid.getD [])
    rw [textOf, length_lineTokens_toStringLossy]
    omega
  rw [compute, Option.isSome_map]
  exact diff.takes (hlines _ hold) (hlines _ hnew)

/-- git neither adds nor removes more lines than there are bytes. -/
theorem changes_le (git : GitDiff) (oldOid newOid : Option Text) :
    added (git.changes oldOid newOid) ≤ (newOid.getD []).length ∧
      removed (git.changes oldOid newOid) ≤ (oldOid.getD []).length := by
  have hchanged := git.changed (lineTokens (oldOid.getD [])) (lineTokens (newOid.getD []))
  have hbalanced := hchanged.balanced
  have hremoved := hchanged.removed_le
  have hold := length_lineTokens_le (oldOid.getD [])
  have hnew := length_lineTokens_le (newOid.getD [])
  unfold GitDiff.changes
  omega

/-- The diff of the text and git's diff of the blob add as many lines more than they remove. -/
theorem removed_textOf {diff : LineDiff} {raw : List Change} (git : GitDiff)
    (hraw : diff.hunks (lineTokens (textOf oldOid)) (lineTokens (textOf newOid)) = some raw) :
    added raw + removed (git.changes oldOid newOid) =
      added (git.changes oldOid newOid) + removed raw := by
  have hbalanced := (diff.changed hraw).balanced
  have hgit := (git.changed (lineTokens (oldOid.getD [])) (lineTokens (newOid.getD []))).balanced
  rw [textOf, textOf, length_lineTokens_toStringLossy, length_lineTokens_toStringLossy] at hbalanced
  unfold GitDiff.changes
  omega

end Lines

/-! ## The two views -/

/-- The views say the same of a file. -/
def Agree (file : DiffFile) (detail : DiffFileDetail) : Prop :=
  file.binary = detail.binary ∧ file.collapsed = detail.collapsed ∧
    (file.binary = false → file.additions = detail.additions ∧ file.deletions = detail.deletions)

/-- A path stands once in the summary, and its detail agrees with the file there. -/
def ViewsAgree {diff : LineDiff} (git : GitDiff) (cache : DiffCache diff) (old new : Tree) (p : Path) :
    Prop :=
  ∃ file detail cache', (summary git old new).files.filter (·.path = p.val) = [file] ∧
    fileDetail git old new p cache = some (detail, cache') ∧ Agree file detail

/-- A file that the engine takes for binary is binary for git. -/
def SniffedAlike (oldOid newOid : Option Text) : Prop :=
  looksBinary (oldOid.getD []) ∨ looksBinary (newOid.getD []) →
    gitBinary (oldOid.getD []) ∨ gitBinary (newOid.getD [])

/-- Neither binary nor too large to be shown. -/
structure Shown (git : GitDiff) (oldOid newOid : Option Text) : Prop where
  text : ¬ (looksBinary (oldOid.getD []) ∨ looksBinary (newOid.getD []))
  oldBytes : (oldOid.getD []).length ≤ collapseBytes
  newBytes : (newOid.getD []).length ≤ collapseBytes
  lines : added (git.changes oldOid newOid) + removed (git.changes oldOid newOid) ≤ collapseLines

/-- The diff of the engine removes as many lines from the text as git does from the blob. -/
def RemovedAlike (diff : LineDiff) (git : GitDiff) (oldOid newOid : Option Text) : Prop :=
  ∀ raw, diff.hunks (lineTokens (textOf oldOid)) (lineTokens (textOf newOid)) = some raw →
    removed raw = removed (git.changes oldOid newOid)

section Views
variable {diff : LineDiff} {git : GitDiff} {cache : DiffCache diff} {old new : Tree} {p : Path}

theorem looksBinary_of_gitBinary {bytes : Text} (h : gitBinary bytes = true) : looksBinary bytes = true := by
  rw [gitBinary, List.any_eq_true] at h
  obtain ⟨b, hb, hzero⟩ := h
  exact List.any_eq_true.mpr ⟨b, List.take_subset_take_left _ (by decide) hb, hzero⟩

/-- The content of a file is withheld. -/
def Withheld (git : GitDiff) (oldOid newOid : Option Text) : Prop :=
  (oldOid.getD []).length > collapseBytes ∨ (newOid.getD []).length > collapseBytes ∨
    saturatingAdd (fileCounts git oldOid newOid).1 (fileCounts git oldOid newOid).2.1 > collapseLines

instance (git : GitDiff) (oldOid newOid : Option Text) : Decidable (Withheld git oldOid newOid) :=
  inferInstanceAs (Decidable (_ ∨ _ ∨ _))

theorem shown_iff {oldOid newOid : Option Text}
    (htext : ¬ (looksBinary (oldOid.getD []) ∨ looksBinary (newOid.getD []))) :
    Shown git oldOid newOid ↔ ¬ Withheld git oldOid newOid := by
  have hgit : (gitBinary (oldOid.getD []) || gitBinary (newOid.getD [])) = false := by
    rw [not_or] at htext
    rw [Bool.or_eq_false_iff]
    exact ⟨Bool.eq_false_iff.mpr fun h => htext.1 (looksBinary_of_gitBinary h),
      Bool.eq_false_iff.mpr fun h => htext.2 (looksBinary_of_gitBinary h)⟩
  obtain ⟨hadded, hremoved⟩ := changes_le git oldOid newOid
  have hsmall : collapseBytes < 2 ^ 32 - 1 - collapseBytes := by decide
  have hlines : collapseLines < 2 ^ 32 - 1 := by decide
  rw [Withheld, fileCounts, hgit, if_neg (by decide)]
  constructor
  · rintro ⟨-, hold, hnew, hcount⟩
    simp only [readCount, saturatingAdd]
    rw [if_pos (by omega), if_pos (by omega)]
    omega
  · intro hwithheld
    refine ⟨htext, by omega, by omega, ?_⟩
    simp only [readCount, saturatingAdd] at hwithheld
    rw [if_pos (by omega), if_pos (by omega)] at hwithheld
    omega

/-- What the summary says of a changed path. -/
theorem summaryFile_eq (git : GitDiff) (h : p ∈ changedPaths old new) :
    ∃ file, (summary git old new).files.filter (·.path = p.val) = [file] ∧
      file.additions = (fileCounts git (oidAt old p) (oidAt new p)).1 ∧
      file.deletions = (fileCounts git (oidAt old p) (oidAt new p)).2.1 ∧
      file.binary = (fileCounts git (oidAt old p) (oidAt new p)).2.2 ∧
      file.collapsed = (!file.binary && decide (Withheld git (oidAt old p) (oidAt new p))) := by
  have hlarge : ∀ oid : Option Text, (oid.any fun blob => decide (blob.length > collapseBytes)) =
      decide ((oid.getD []).length > collapseBytes) := by
    rintro (_ | blob) <;> rfl
  have hcounts := get_parseNumstat git old new nodup_changedPaths h
  have hpath : (rawEntry old new p).path = p.val := rfl
  refine ⟨_, filter_summary h, ?_⟩
  simp only [summaryFile, hpath, hcounts, Option.getD_some]
  refine ⟨trivial, trivial, trivial, ?_⟩
  congr 1
  simp [rawEntry, hlarge, Withheld, Bool.or_assoc]

section Detail
variable (h : p ∈ changedPaths old new)
include h

theorem loadFile_binary
    (hbinary : looksBinary ((oidAt old p).getD []) ∨ looksBinary ((oidAt new p).getD [])) :
    loadFile git old new p cache = some (.binary (rawEntry old new p) 0 0, cache) := by
  simp [loadFile, fileEntry_eq h, loadBlobs, rawEntry, hbinary]

theorem loadFile_collapsed
    (htext : ¬ (looksBinary ((oidAt old p).getD []) ∨ looksBinary ((oidAt new p).getD [])))
    (hwithheld : Withheld git (oidAt old p) (oidAt new p)) :
    loadFile git old new p cache = some (.collapsed (rawEntry old new p)
      (fileCounts git (oidAt old p) (oidAt new p)).1
      (fileCounts git (oidAt old p) (oidAt new p)).2.1, cache) := by
  unfold Withheld at hwithheld
  simp only [loadFile, fileEntry_eq h, numstatFor_eq h, loadBlobs, rawEntry, Bool.or_eq_true]
  rw [if_neg htext, if_pos hwithheld]

theorem fileDetail_binary
    (hbinary : looksBinary ((oidAt old p).getD []) ∨ looksBinary ((oidAt new p).getD [])) :
    fileDetail git old new p cache = some (⟨p.val, true, false, 0, 0, []⟩, cache) := by
  rw [fileDetail, loadFile_binary h hbinary]
  rfl

theorem fileDetail_collapsed
    (htext : ¬ (looksBinary ((oidAt old p).getD []) ∨ looksBinary ((oidAt new p).getD [])))
    (hwithheld : Withheld git (oidAt old p) (oidAt new p)) :
    fileDetail git old new p cache =
      some (⟨p.val, false, true, (fileCounts git (oidAt old p) (oidAt new p)).1,
        (fileCounts git (oidAt old p) (oidAt new p)).2.1, []⟩, cache) := by
  rw [fileDetail, loadFile_collapsed h htext hwithheld]
  rfl

/-- A text that is shown has few enough lines for the diff. -/
theorem loadFile_text (cache : DiffCache diff)
    (htext : ¬ (looksBinary ((oidAt old p).getD []) ∨ looksBinary ((oidAt new p).getD [])))
    (hshown : ¬ Withheld git (oidAt old p) (oidAt new p)) :
    ∃ hunks cache', compute diff (textOf (oidAt old p)) (textOf (oidAt new p)) = some hunks ∧
      loadFile git old new p cache =
        some (.text ⟨rawEntry old new p, lineTokens (textOf (oidAt old p)),
          lineTokens (textOf (oidAt new p)), hunks⟩, cache') := by
  have hload := hshown
  simp only [Withheld, not_or, not_lt, gt_iff_lt] at hshown
  obtain ⟨hunks, hhunks⟩ := Option.isSome_iff_exists.mp (compute_isSome diff hshown.1 hshown.2.1)
  obtain ⟨cache', hcache⟩ := cache.hunks_eq (oidAt old p, oidAt new p) hhunks
  refine ⟨hunks, cache', hhunks, ?_⟩
  unfold Withheld at hload
  simp only [loadFile, fileEntry_eq h, numstatFor_eq h, loadBlobs, rawEntry, Bool.or_eq_true]
  rw [if_neg htext, if_neg hload, hcache]
  rfl

theorem fileDetail_text (cache : DiffCache diff)
    (htext : ¬ (looksBinary ((oidAt old p).getD []) ∨ looksBinary ((oidAt new p).getD [])))
    (hshown : ¬ Withheld git (oidAt old p) (oidAt new p)) :
    ∃ raw lines cache',
      diff.hunks (lineTokens (textOf (oidAt old p))) (lineTokens (textOf (oidAt new p))) = some raw ∧
      fileDetail git old new p cache =
        some (⟨p.val, false, false, added raw, removed raw, lines⟩, cache') := by
  obtain ⟨hunks, cache', hhunks, hload⟩ := loadFile_text h cache htext hshown
  obtain ⟨raw, hraw, hfaithful⟩ := faithful_of_compute hhunks
  have hcount : countChanges hunks = (added raw, removed raw) := hfaithful.counted
  refine ⟨raw, hunks.map fun hunk => toDisplay hunk (lineTokens (textOf (oidAt old p)))
    (lineTokens (textOf (oidAt new p))), cache', hraw, ?_⟩
  rw [fileDetail, hload]
  simp only [Option.map_some, hcount]

end Detail

theorem viewsAgree_of_detail {file : DiffFile} {detail : DiffFileDetail} {cache' : DiffCache diff}
    (hfile : (summary git old new).files.filter (·.path = p.val) = [file])
    (hdetail : fileDetail git old new p cache = some (detail, cache')) :
    ViewsAgree git cache old new p ↔ Agree file detail := by
  constructor
  · rintro ⟨file', detail', cache'', hfile', hdetail', hagree⟩
    obtain rfl := List.singleton_inj.mp (hfile'.symm.trans hfile)
    obtain ⟨rfl, -⟩ := Prod.ext_iff.mp (Option.some.inj (hdetail'.symm.trans hdetail))
    exact hagree
  · exact fun hagree => ⟨file, detail, cache', hfile, hdetail, hagree⟩

/-- Where the engine takes a file for binary, the views agree if git does. -/
theorem viewsAgree_binary (h : p ∈ changedPaths old new)
    (hbinary : looksBinary ((oidAt old p).getD []) ∨ looksBinary ((oidAt new p).getD [])) :
    ViewsAgree git cache old new p ↔
      gitBinary ((oidAt old p).getD []) ∨ gitBinary ((oidAt new p).getD []) := by
  obtain ⟨file, hfile, -, -, hbinaryFile, hcollapsed⟩ := summaryFile_eq git h
  rw [viewsAgree_of_detail hfile (fileDetail_binary h hbinary)]
  by_cases hgit : gitBinary ((oidAt old p).getD []) ∨ gitBinary ((oidAt new p).getD [])
  · have hcounts : fileCounts git (oidAt old p) (oidAt new p) = (0, 0, true) := by
      simp [fileCounts, hgit]
    rw [hcounts] at hbinaryFile
    simp [Agree, hbinaryFile, hcollapsed, hgit]
  · have hcounts : file.binary = false := by
      rw [hbinaryFile]
      simp only [not_or, Bool.not_eq_true] at hgit
      simp [fileCounts, hgit]
    simp [Agree, hcounts, hgit]

/-- The views of other files agree if git removes as many lines, or the lines are not shown. -/
theorem viewsAgree_text (h : p ∈ changedPaths old new)
    (htext : ¬ (looksBinary ((oidAt old p).getD []) ∨ looksBinary ((oidAt new p).getD []))) :
    ViewsAgree git cache old new p ↔
      (Shown git (oidAt old p) (oidAt new p) → RemovedAlike diff git (oidAt old p) (oidAt new p)) := by
  obtain ⟨file, hfile, hadditions, hdeletions, hbinary, hcollapsed⟩ := summaryFile_eq git h
  have hgit : ¬ (gitBinary ((oidAt old p).getD []) || gitBinary ((oidAt new p).getD [])) = true := by
    rw [Bool.or_eq_true]
    exact fun hor => htext (hor.imp looksBinary_of_gitBinary looksBinary_of_gitBinary)
  have hcounts : fileCounts git (oidAt old p) (oidAt new p) =
      (readCount (added (git.changes (oidAt old p) (oidAt new p))),
        readCount (removed (git.changes (oidAt old p) (oidAt new p))), false) := if_neg hgit
  rw [hcounts] at hbinary hadditions hdeletions
  dsimp only at hadditions hdeletions
  rw [hbinary, Bool.not_false, Bool.true_and] at hcollapsed
  by_cases hwithheld : Withheld git (oidAt old p) (oidAt new p)
  · have hnot : ¬ Shown git (oidAt old p) (oidAt new p) := by
      rw [shown_iff htext, not_not]
      exact hwithheld
    rw [viewsAgree_of_detail hfile (fileDetail_collapsed h htext hwithheld)]
    simp [Agree, hbinary, hcollapsed, hwithheld, hadditions, hdeletions, hcounts, hnot]
  · have hshown := (shown_iff htext).mpr hwithheld
    obtain ⟨raw, lines, cache', hraw, hdetail⟩ := fileDetail_text h cache htext hwithheld
    have hbalanced := removed_textOf git hraw
    have hlines := hshown.lines
    have hrange : collapseLines < 2 ^ 32 := by decide
    rw [readCount, if_pos (by omega)] at hadditions hdeletions
    rw [viewsAgree_of_detail hfile hdetail]
    simp only [Agree, hbinary, hcollapsed, hwithheld, hadditions, hdeletions, decide_false, true_and,
      forall_const, hshown, RemovedAlike, hraw, Option.some.injEq, forall_eq']
    omega

/-- Summary and detail of a changed path agree if and only if the engine does not take a file for
binary that git takes for text, and, where it shows the lines, its diff removes as many as git's. -/
theorem viewsAgree_iff (h : p ∈ changedPaths old new) :
    ViewsAgree git cache old new p ↔ SniffedAlike (oidAt old p) (oidAt new p) ∧
      (Shown git (oidAt old p) (oidAt new p) → RemovedAlike diff git (oidAt old p) (oidAt new p)) := by
  by_cases htext : looksBinary ((oidAt old p).getD []) ∨ looksBinary ((oidAt new p).getD [])
  · have hnot : ¬ Shown git (oidAt old p) (oidAt new p) := fun hshown => hshown.text htext
    rw [viewsAgree_binary h htext, SniffedAlike]
    tauto
  · rw [viewsAgree_text h htext, SniffedAlike]
    tauto

/-- All lines of a new file are added and all lines of a deleted one removed, by any diff. -/
theorem removedAlike_of_missing {oldOid newOid : Option Text} (h : oldOid = none ∨ newOid = none) :
    RemovedAlike diff git oldOid newOid := by
  intro raw hraw
  have hchanged := diff.changed hraw
  have hgit := git.changed (lineTokens (oldOid.getD [])) (lineTokens (newOid.getD []))
  have hremoved := hchanged.removed_le
  have hremoved' := hgit.removed_le
  have hbalanced := removed_textOf git hraw
  have hbalanced' := hgit.balanced
  have hempty : (lineTokens ((none : Option Text).getD [])).length = 0 := rfl
  unfold GitDiff.changes at hbalanced ⊢
  simp only [textOf, length_lineTokens_toStringLossy] at hremoved
  rcases h with rfl | rfl
  · omega
  · omega

/-! ## A zero byte that only the engine looks at -/

/-- git's diff that replaces everything. -/
def wholeGitDiff : GitDiff := ⟨wholeChange, changed_wholeChange⟩

def notePath : Path := ⟨"a", nul_notMem_a⟩

def noteTree (bytes : Text) : Tree := .single notePath ⟨.regular, bytes⟩

theorem notePath_mem (bytes : Text) : notePath ∈ changedPaths .empty (noteTree bytes) := by
  rw [mem_changedPaths, FileTree.get_empty]
  simp [noteTree, FileTree.single, FileTree.get, OrdMap.ofList, OrdMap.extend]

theorem oidAt_note (bytes : Text) : oidAt (noteTree bytes) notePath = some bytes := by
  simp [oidAt, noteTree, FileTree.single, FileTree.get, OrdMap.ofList, OrdMap.extend]

/-- A new file of one line. -/
theorem viewsAgree_note : ViewsAgree wholeGitDiff (.empty : DiffCache wholeDiff) .empty (noteTree [97, 10])
    notePath := by
  refine (viewsAgree_iff (notePath_mem _)).mpr ⟨?_, fun _ => removedAlike_of_missing (.inl rfl)⟩
  rw [SniffedAlike, oidAt_note]
  decide

theorem any_zero_replicate (n m : Nat) :
    ((List.replicate n 97 ++ [(0 : UInt8)]).take m).any (· = 0) = decide (n < m) := by
  rw [List.take_append, List.take_replicate, List.length_replicate, List.any_append]
  by_cases hlt : n < m
  · have hone : m - n = m - n - 1 + 1 := by omega
    rw [hone]
    simp [hlt]
  · have hnone : m - n = 0 := by omega
    rw [hnone]
    simp [hlt]

/-- A zero byte after 8100 other bytes makes a file binary in its detail and a text in the summary. -/
theorem late_zero_disagrees :
    notePath ∈ changedPaths .empty (noteTree (List.replicate 8100 97 ++ [0])) ∧
      ¬ ViewsAgree wholeGitDiff (.empty : DiffCache wholeDiff) .empty
        (noteTree (List.replicate 8100 97 ++ [0])) notePath := by
  have hlooks : looksBinary (List.replicate 8100 97 ++ [0]) = true := any_zero_replicate 8100 8192
  have hgit : gitBinary (List.replicate 8100 97 ++ [0]) = false := any_zero_replicate 8100 8000
  have hmissing : oidAt .empty notePath = none := rfl
  refine ⟨notePath_mem _, ?_⟩
  rw [viewsAgree_binary (notePath_mem _), oidAt_note, hmissing, Option.getD_some, hgit]
  · decide
  · rw [oidAt_note, Option.getD_some]
    exact .inr hlooks

end Views

end Tethys.Git
