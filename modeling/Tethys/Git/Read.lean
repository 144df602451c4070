import Tethys.Lib.Fields
import Tethys.Lib.FileTree
import Mathlib.Data.String.Basic

/-!
# Reading the status of a worktree

`git status --porcelain=v2 -z` prints one record for each changed or untracked path, ended by
NUL, with the path as the last of the fields that a space separates. `parse_porcelain_v2` cuts
the output at NUL and each record at its first spaces, so that a path with spaces comes back
whole. The output is taken as the text that its bytes encode.
-/

namespace Tethys.Git

open Lib

def nul : Char := Char.ofNat 0

/-- A path relative to the root of the worktree: a text without NUL. -/
abbrev Path := { text : String // nul ∉ text.toList }

theorem nul_notMem_a : nul ∉ "a".toList := by decide

/-- The second path lies inside the directory of the first. -/
instance : Nested Path where
  inside dir p := (dir.val.toList ++ ['/']).isPrefixOf p.val.toList
  irrefl p := by
    by_contra h
    have hfront : p.val.toList ++ ['/'] <+: p.val.toList := by simpa using h
    have hlength := hfront.length_le
    rw [List.length_append, List.length_singleton] at hlength
    omega

/-- One parsed `git status --porcelain=v2` record. -/
structure StatusEntry where
  path : String
  untracked : Bool
  staged : Bool
  worktreeChanged : Bool
  deriving DecidableEq

/-! ## The parser -/

/-- Everything after the first `fields - 1` space-separated fields. -/
def splitNth (text : List Char) (fields : Nat) : Option String :=
  ((splitn ' ' fields text)[fields - 1]?).map String.ofList

/-- A status code other than the dot stands at the place of the two-letter field. -/
def codeAt (xy : List Char) (i : Nat) : Bool :=
  (xy[i]?).any (· ≠ '.')

def parseRecord (chunk : List Char) : Option StatusEntry :=
  match chunk.head? with
  | none => none
  | some '1' =>
    (splitNth chunk 9).map fun rest =>
      let xy := ((chunk.splitOn ' ')[1]?).getD ['.', '.']
      ⟨rest, false, codeAt xy 0, codeAt xy 1⟩
  | some 'u' => (splitNth chunk 11).map fun rest => ⟨rest, false, true, true⟩
  | some '?' => (splitNth chunk 2).map fun rest => ⟨rest, true, false, true⟩
  | some _ => none

def parsePorcelainV2 (raw : List Char) : List StatusEntry :=
  (raw.splitOn nul).filterMap parseRecord

/-! ## The output -/

/-- A field without spaces and NULs. -/
abbrev Word := { text : String // ' ' ∉ text.toList ∧ nul ∉ text.toList }

/-- One letter of the two-letter status code. -/
inductive Code where
  | unmodified | modified | typeChanged | added | deleted | unmerged
  deriving DecidableEq

def Code.letter : Code → Char
  | .unmodified => '.'
  | .modified => 'M'
  | .typeChanged => 'T'
  | .added => 'A'
  | .deleted => 'D'
  | .unmerged => 'U'

theorem Code.letter_ne (c : Code) : c.letter ≠ ' ' ∧ c.letter ≠ nul := by
  cases c <;> decide

/-- The two-letter field of a record. -/
def Code.word (x y : Code) : Word :=
  ⟨String.ofList [x.letter, y.letter], by
    have hx := x.letter_ne
    have hy := y.letter_ne
    simp only [String.toList_ofList]
    grind⟩

/-- The records of the format without renames. The words of a changed path are the submodule
state, the three modes and the two object names; those of an unmerged path are the submodule
state, the four modes and the three object names. -/
inductive StatusRecord where
  | changed (staged worktree : Code) (sub modeHead modeIndex modeWorktree hashHead hashIndex : Word)
      (path : Path)
  | unmerged (ours theirs : Code) (sub mode1 mode2 mode3 modeWorktree hash1 hash2 hash3 : Word)
      (path : Path)
  | untracked (path : Path)
  deriving DecidableEq

namespace StatusRecord

def path : StatusRecord → Path
  | changed _ _ _ _ _ _ _ _ path => path
  | unmerged _ _ _ _ _ _ _ _ _ _ path => path
  | untracked path => path

/-- The fields before the path. -/
def words : StatusRecord → List Word
  | changed x y sub mH mI mW hH hI _ =>
    [⟨"1", by decide⟩, Code.word x y, sub, mH, mI, mW, hH, hI]
  | unmerged x y sub m1 m2 m3 mW h1 h2 h3 _ =>
    [⟨"u", by decide⟩, Code.word x y, sub, m1, m2, m3, mW, h1, h2, h3]
  | untracked _ => [⟨"?", by decide⟩]

def chars (r : StatusRecord) : List Char :=
  joined ' ' (r.words.map fun w => w.val.toList) r.path.val.toList

/-- The entry that the record stands for. -/
def entry : StatusRecord → StatusEntry
  | changed x y _ _ _ _ _ _ path => ⟨path.val, false, x ≠ .unmodified, y ≠ .unmodified⟩
  | unmerged _ _ _ _ _ _ _ _ _ _ path => ⟨path.val, false, true, true⟩
  | untracked path => ⟨path.val, true, false, true⟩

end StatusRecord

/-- What `git status --porcelain=v2 -z` prints for the records. -/
def porcelainV2 (records : List StatusRecord) : List Char :=
  (records.map StatusRecord.chars).flatMap (· ++ [nul])

/-! ## Reading back -/

theorem Code.letter_eq_dot (c : Code) : c.letter = '.' ↔ c = .unmodified := by
  cases c <;> decide

namespace StatusRecord

theorem nul_not_mem_chars (r : StatusRecord) : nul ∉ r.chars :=
  notMem_joined (List.forall_mem_map.mpr fun word _ => word.property.2) (by decide) r.path.property

/-- The path is what stands after the words. -/
theorem splitNth_chars (r : StatusRecord) :
    splitNth r.chars (r.words.length + 1) = some r.path.val := by
  have hwords : ∀ word ∈ r.words.map fun w => w.val.toList, ' ' ∉ word :=
    List.forall_mem_map.mpr fun w _ => w.property.1
  have hsplit := splitn_joined hwords r.path.val.toList
  rw [List.length_map] at hsplit
  rw [splitNth, chars, hsplit]
  simp

/-- One record is read back as its entry. -/
theorem parseRecord_chars (r : StatusRecord) : parseRecord r.chars = some r.entry := by
  have hnth := r.splitNth_chars
  cases r with
  | changed x y sub mH mI mW hH hI path =>
    have hxy : ((chars (changed x y sub mH mI mW hH hI path)).splitOn ' ')[1]? =
        some [x.letter, y.letter] := by
      have hspace := (Code.word x y).property.1
      simp only [chars, words, List.map_cons, joined_cons]
      rw [List.splitOn_append_cons_self_of_not_mem (by decide),
        List.splitOn_append_cons_self_of_not_mem hspace]
      simp [Code.word]
    have hhead : (chars (changed x y sub mH mI mW hH hI path)).head? = some '1' := rfl
    change splitNth _ 9 = some path.val at hnth
    simp only [parseRecord, hhead, hnth, hxy]
    simp [entry, codeAt, Code.letter_eq_dot]
  | unmerged x y sub m1 m2 m3 mW h1 h2 h3 path =>
    have hhead : (chars (unmerged x y sub m1 m2 m3 mW h1 h2 h3 path)).head? = some 'u' := rfl
    change splitNth _ 11 = some path.val at hnth
    simp only [parseRecord, hhead, hnth]
    rfl
  | untracked path =>
    have hhead : (chars (untracked path)).head? = some '?' := rfl
    change splitNth _ 2 = some path.val at hnth
    simp only [parseRecord, hhead, hnth]
    rfl

end StatusRecord

/-- The parser reads the entries of the records, in order, whatever the paths are. -/
theorem parsePorcelainV2_porcelainV2 (records : List StatusRecord) :
    parsePorcelainV2 (porcelainV2 records) = records.map StatusRecord.entry := by
  have hchunks : ∀ chunk ∈ records.map StatusRecord.chars, nul ∉ chunk :=
    List.forall_mem_map.mpr fun r _ => r.nul_not_mem_chars
  have hrecords : (records.map StatusRecord.chars).filterMap parseRecord =
      records.map StatusRecord.entry := by
    rw [List.filterMap_map, ← List.filterMap_eq_map]
    exact List.filterMap_congr fun r _ => r.parseRecord_chars
  rw [parsePorcelainV2, porcelainV2, splitOn_terminated hchunks, List.filterMap_append, hrecords]
  exact List.append_nil _

end Tethys.Git
