import Mathlib.Data.List.Lex
import Tethys.Lib.FileTree
import Tethys.Lib.Utf8

/-!
# Skill digests

`tethys-sync/src/trust.rs` and `walk.rs`: the files of a skill directory in the order of their
paths, each fed to the hash as its path, a zero byte, its bytes and a zero byte. The bytes of a
file may contain zero bytes, so the boundaries between the files are lost: a file can hold what
looks like the end of one file and the start of the next. `identified_iff` says which
directories are the only ones with their digest.
-/

namespace Tethys.Sync

open Lib

/-! ## Skill directories -/

/-- A name that a directory entry can have. -/
def ValidName (name : List UInt8) : Prop :=
  name ≠ [] ∧ 0 ∉ name ∧ 0x2F ∉ name ∧ name ≠ [0x2E] ∧ name ≠ [0x2E, 0x2E]

instance (name : List UInt8) : Decidable (ValidName name) := inferInstanceAs (Decidable (_ ∧ _))

/-- The path of a file relative to the skill directory, as its components. -/
structure RelPath where
  components : List (List UInt8)
  valid : components ≠ [] ∧ ∀ name ∈ components, ValidName name
  deriving DecidableEq

namespace RelPath

/-- Paths are compared component by component, and components byte by byte. -/
def key (p : RelPath) : List (List Nat) := p.components.map (·.map UInt8.toNat)

theorem key_injective : Function.Injective key := by
  intro p q h
  have hmap : Function.Injective (List.map UInt8.toNat) :=
    List.map_injective_iff.mpr fun _ _ => UInt8.toNat_inj.mp
  have hcomponents : p.components = q.components := List.map_injective_iff.mpr hmap h
  cases p
  cases q
  simpa using hcomponents

instance : LinearOrder RelPath := LinearOrder.lift' key key_injective

/-- The path of a directory lies before the paths of what is in it. -/
instance : Nested RelPath where
  inside p q := p.components.isPrefixOf q.components && p ≠ q
  irrefl p := by simp

/-- The text of a path, in bytes. -/
def bytes (p : RelPath) : List UInt8 := [0x2F].intercalate p.components

/-- `to_string_lossy` of the path. -/
def text (p : RelPath) : List UInt8 := toStringLossy p.bytes

end RelPath

/-- A file: its bytes, and whether it has an executable bit. -/
structure SkillFile where
  bytes : List UInt8
  executable : Bool
  deriving DecidableEq

/-- The files of a directory. Other entries are not walked. -/
abbrev SkillDir := FileTree RelPath SkillFile

structure SkillFacts (Hash : Type) where
  contentHash : Hash
  requiresTrust : Bool
  deriving DecidableEq

/-- `walk::files`: what was found, in the order of the paths. -/
def walkFiles (found : List (RelPath × SkillFile)) : List (RelPath × SkillFile) :=
  found.mergeSort fun left right => left.1 ≤ right.1

/-! ## The digest -/

/-- What one file feeds to the hash. -/
def hashed (path : RelPath) (bytes : List UInt8) : List UInt8 :=
  path.text ++ 0 :: (bytes ++ [0])

/-- The ASCII bytes of a text. -/
def ascii (text : String) : List UInt8 := text.toList.map fun c => UInt8.ofNat c.toNat

def scriptExtensions : List (List UInt8) :=
  ["sh", "bash", "zsh", "ps1", "bat", "cmd", "py", "js", "ts", "rb", "pl", "exe", "dll"].map ascii

def toAsciiLowercase (b : UInt8) : UInt8 := if 0x41 ≤ b ∧ b ≤ 0x5A then b + 0x20 else b

/-- The extension of a file name: what follows its last dot, unless that is its first byte. -/
def extension (name : List UInt8) : Option (List UInt8) :=
  let suffix := (name.reverse.takeWhile (· ≠ 0x2E)).reverse
  if suffix.length + 1 < name.length then some suffix else none

def scriptLike (relative : RelPath) (file : SkillFile) : Bool :=
  relative.components.head? = some (ascii "scripts") ||
  (ascii "#!").isPrefixOf file.bytes ||
  !isUtf8 file.bytes ||
  (match relative.components.getLast?.bind extension with
    | some ext => isUtf8 ext && scriptExtensions.contains (ext.map toAsciiLowercase)
    | none => false) ||
  file.executable

/-- `inspect`, on the files as the directory is read. -/
def inspectFound {Hash : Type} (hash : List UInt8 → Hash) (found : List (RelPath × SkillFile)) :
    SkillFacts Hash where
  contentHash := hash ((walkFiles found).flatMap fun file => hashed file.1 file.2.bytes)
  requiresTrust := (walkFiles found).any fun file => scriptLike file.1 file.2

def inspect {Hash : Type} (hash : List UInt8 → Hash) (dir : SkillDir) : SkillFacts Hash :=
  inspectFound hash dir.files.entries

/-- Reading a directory in any order gives its files in the order of the map. -/
theorem walkFiles_eq (dir : SkillDir) {found : List (RelPath × SkillFile)}
    (h : found.Perm dir.files.entries) : walkFiles found = dir.files.entries := by
  have hperm : (walkFiles found).Perm dir.files.entries := (List.mergeSort_perm _ _).trans h
  have hsorted : (walkFiles found).Pairwise fun left right => left.1 ≤ right.1 := by
    refine (List.pairwise_mergeSort ?_ ?_ found).imp fun hle => of_decide_eq_true hle
    · intro a b c hab hbc
      exact decide_eq_true (le_trans (of_decide_eq_true hab) (of_decide_eq_true hbc))
    · intro a b
      simpa using le_total a.1 b.1
  refine hperm.eq_of_pairwise (fun a b ha hb hab hba => ?_) hsorted
    (dir.files.sorted.imp fun hlt => le_of_lt hlt)
  have ha := OrdMap.get_eq_some.mpr (hperm.mem_iff.mp ha)
  have hb := OrdMap.get_eq_some.mpr hb
  have hpath : a.1 = b.1 := le_antisymm hab hba
  rw [hpath, hb] at ha
  exact Prod.ext hpath (Option.some.inj ha).symm

/-- The order in which a directory is read does not matter. -/
theorem inspectFound_eq_inspect {Hash : Type} (hash : List UInt8 → Hash) (dir : SkillDir)
    {found : List (RelPath × SkillFile)} (h : found.Perm dir.files.entries) :
    inspectFound hash found = inspect hash dir := by
  rw [inspect, inspectFound, inspectFound, walkFiles_eq dir h, walkFiles_eq dir (List.Perm.refl _)]

/-- The paths of a directory with the bytes of the files. -/
def contents (dir : SkillDir) : List (RelPath × List UInt8) :=
  dir.files.entries.map fun file => (file.1, file.2.bytes)

/-- What a directory feeds to the hash. -/
def fed (files : List (RelPath × List UInt8)) : List UInt8 :=
  files.flatMap fun file => hashed file.1 file.2

theorem inspect_contentHash {Hash : Type} (hash : List UInt8 → Hash) (dir : SkillDir) :
    (inspect hash dir).contentHash = hash (fed (contents dir)) := by
  rw [inspect, inspectFound, walkFiles_eq dir (List.Perm.refl _), fed, contents,
    List.flatMap_map]

/-! ## Which directories have a digest of their own -/

variable {dir dir' : SkillDir} {p q : RelPath} {c : List UInt8}
  {files : List (RelPath × List UInt8)}

theorem RelPath.zero_notMem_text (p : RelPath) : 0 ∉ p.text :=
  zero_notMem_toStringLossy (notMem_intercalate (by decide) fun name hmem => (p.valid.2 name hmem).2.1)

/-- A path is determined by its bytes. -/
theorem RelPath.bytes_injective : Function.Injective RelPath.bytes := by
  intro p q h
  have hsplit : ∀ r : RelPath, r.bytes.splitOn 0x2F = r.components := fun r =>
    List.splitOn_intercalate _ (fun name hmem => (r.valid.2 name hmem).2.2.1) r.valid.1
  have hcomponents : p.components = q.components := by rw [← hsplit p, h, hsplit q]
  cases p
  cases q
  simpa using hcomponents

/-- A path without the first byte of the replacement character is determined by its text. -/
theorem RelPath.eq_of_text (hp : 0xEF ∉ p.text) (h : q.text = p.text) : q = p := by
  have hq : q.text = q.bytes := toStringLossy_eq (by rwa [← RelPath.text, h])
  exact RelPath.bytes_injective (by rw [← hq, h, RelPath.text, toStringLossy_eq hp])

theorem fed_cons (p : RelPath) (c : List UInt8) (files : List (RelPath × List UInt8)) :
    fed ((p, c) :: files) = p.text ++ 0 :: (c ++ 0 :: fed files) := by
  simp [fed, hashed]

/-- What is fed ends with a zero byte. -/
theorem exists_snoc (c : List UInt8) (files : List (RelPath × List UInt8)) :
    ∃ after, c ++ 0 :: fed files = after ++ [0] := by
  induction files generalizing c with
  | nil => exact ⟨c, rfl⟩
  | cons file files ih =>
    obtain ⟨after, hafter⟩ := ih file.2
    refine ⟨c ++ 0 :: (file.1.text ++ 0 :: after), ?_⟩
    rw [fed_cons, hafter]
    simp

/-- The directories that are told apart from all others: the empty one, and those of one file
whose path has a text of its own and whose bytes hold no zero byte, later path and zero byte
that could be the boundary to a second file. -/
def Identified : List (RelPath × List UInt8) → Prop
  | [] => True
  | [(p, c)] =>
    (∀ q : RelPath, q.text = p.text → q = p) ∧
      ∀ (q : RelPath) (before after : List UInt8), p < q → clash p q = false →
        c ≠ before ++ 0 :: (q.text ++ 0 :: after)
  | _ => False

/-- The directory with the given files, on paths of another one. -/
theorem exists_contents_eq (h : (files.map Prod.fst).Sublist dir.paths) :
    ∃ dir', contents dir' = files := by
  refine ⟨dir.refit (files.map fun file => (file.1, ⟨file.2, false⟩)) ?_, ?_⟩
  · simpa [List.map_map, Function.comp_def] using h
  · simp [contents, FileTree.refit, List.map_map, Function.comp_def]

theorem contents_single (p : RelPath) (file : SkillFile) :
    contents (.single p file) = [(p, file.bytes)] := by
  rfl

theorem map_fst_contents (dir : SkillDir) : (contents dir).map Prod.fst = dir.paths := by
  simp [contents, FileTree.paths]

/-- The first path of a directory and the second one, if there is one. -/
theorem contents_cons_cons {c' : List UInt8} (h : contents dir = (p, c) :: (q, c') :: files) :
    p < q ∧ clash p q = false := by
  have hpaths : dir.paths = p :: q :: files.map Prod.fst := by
    rw [← map_fst_contents, h]
    rfl
  have hsorted : dir.paths.Pairwise (· < ·) := List.pairwise_map.mpr dir.files.sorted
  refine ⟨?_, dir.apart p q (FileTree.mem_paths.mp ?_) (FileTree.mem_paths.mp ?_)⟩
  · rw [hpaths] at hsorted
    exact (List.pairwise_cons.mp hsorted).1 q (by simp)
  · simp [hpaths]
  · simp [hpaths]

/-- A directory that feeds the same as an identified one has the same contents. -/
theorem contents_eq_of_identified (h : Identified (contents dir))
    (heq : fed (contents dir') = fed (contents dir)) : contents dir' = contents dir := by
  cases hdir : contents dir with
  | nil =>
    rw [hdir] at heq
    cases hdir' : contents dir' with
    | nil => rfl
    | cons file files =>
      rw [hdir', fed_cons] at heq
      simp [fed] at heq
  | cons file rest =>
    obtain ⟨p, c⟩ := file
    rw [hdir] at h heq
    cases rest with
    | cons file' rest => exact h.elim
    | nil =>
      obtain ⟨hpath, hbytes⟩ := h
      cases hdir' : contents dir' with
      | nil => simp [hdir', fed, hashed] at heq
      | cons file' files =>
        obtain ⟨p', c'⟩ := file'
        rw [hdir', fed_cons, fed_cons] at heq
        obtain ⟨htext, htail⟩ := append_sep_inj p'.zero_notMem_text p.zero_notMem_text heq
        obtain rfl := hpath p' htext
        cases files with
        | nil =>
          have hc : c' = c := List.append_cancel_right htail
          rw [hc]
        | cons file'' files =>
          -- the boundary to the second file lies in the bytes of the only one
          obtain ⟨q, c''⟩ := file''
          obtain ⟨hlt, hclash⟩ := contents_cons_cons hdir'
          obtain ⟨after, hafter⟩ := exists_snoc c'' files
          refine absurd ?_ (hbytes q c' after hlt hclash)
          rw [fed_cons, hafter] at htail
          have hsnoc : (c' ++ 0 :: (q.text ++ 0 :: after)) ++ [0] = c ++ [0] := by
            simpa [fed] using htail
          exact (List.append_cancel_right hsnoc).symm

/-- Two files can be one whose bytes hold the boundary between them. -/
theorem fed_merge (p q : RelPath) (c c' : List UInt8) (files : List (RelPath × List UInt8)) :
    fed ((p, c ++ 0 :: (q.text ++ 0 :: c')) :: files) = fed ((p, c) :: (q, c') :: files) := by
  simp [fed_cons]

/-- A directory that is not identified feeds the same as another one. -/
theorem exists_fed_eq_of_not_identified (h : ¬ Identified (contents dir)) :
    ∃ dir', fed (contents dir') = fed (contents dir) ∧ contents dir' ≠ contents dir := by
  cases hdir : contents dir with
  | nil => exact absurd (hdir ▸ trivial) h
  | cons file rest =>
    obtain ⟨p, c⟩ := file
    rw [hdir] at h
    cases rest with
    | cons file' rest =>
      obtain ⟨q, c'⟩ := file'
      have hsublist : (((p, c ++ 0 :: (q.text ++ 0 :: c')) :: rest).map Prod.fst).Sublist
          dir.paths := by
        rw [← map_fst_contents, hdir]
        exact (List.sublist_cons_self _ _).cons_cons _
      obtain ⟨dir', hdir'⟩ := exists_contents_eq hsublist
      refine ⟨dir', by rw [hdir', fed_merge], ?_⟩
      intro heq
      simpa using congrArg List.length (hdir'.symm.trans heq)
    | nil =>
      simp only [Identified, not_and_or, not_forall] at h
      rcases h with ⟨q, htext, hne⟩ | ⟨q, before, after, hlt, hclash, hc⟩
      · refine ⟨.single q ⟨c, false⟩, ?_, ?_⟩
        · simp [contents_single, fed_cons, htext]
        · simpa [contents_single] using hne
      · refine ⟨.pair p q ⟨before, false⟩ ⟨after, false⟩ hlt hclash, ?_, ?_⟩
        · rw [not_not.mp hc, fed_merge]
          rfl
        · intro heq
          simpa [contents, FileTree.pair] using congrArg List.length heq

/-- The directories whose digest no other directory has. -/
theorem identified_iff {Hash : Type} {hash : List UInt8 → Hash} (hinj : Function.Injective hash)
    (dir : SkillDir) :
    (∀ dir', (inspect hash dir').contentHash = (inspect hash dir).contentHash →
      contents dir' = contents dir) ↔ Identified (contents dir) := by
  simp only [inspect_contentHash, hinj.eq_iff]
  refine ⟨?_, fun h dir' => contents_eq_of_identified h⟩
  intro h
  by_contra hnot
  obtain ⟨dir', heq, hne⟩ := exists_fed_eq_of_not_identified hnot
  exact hne (h dir' heq)

/-- The path of a file that lies in the skill directory itself. -/
def RelPath.ofName (name : List UInt8) (h : ValidName name) : RelPath :=
  ⟨[name], by simp, by simpa using h⟩

def fileA : RelPath := .ofName (ascii "a") (by decide +kernel)

def fileB : RelPath := .ofName (ascii "b") (by decide +kernel)

theorem identified_of_zero_notMem (hp : 0xEF ∉ p.text) (hc : 0 ∉ c) : Identified [(p, c)] := by
  refine ⟨fun q htext => RelPath.eq_of_text hp htext, ?_⟩
  intro q before after _ _ heq
  exact hc (by simp [heq])

/-- No other directory has the digest of one text file. -/
theorem textFile_identified :
    Identified (contents (.single fileA ⟨ascii "x", false⟩)) ∧
      ∀ dir', (inspect id dir').contentHash =
          (inspect id (.single fileA ⟨ascii "x", false⟩)).contentHash →
        contents dir' = contents (.single fileA ⟨ascii "x", false⟩) := by
  have h : Identified (contents (.single fileA ⟨ascii "x", false⟩)) :=
    identified_of_zero_notMem (by decide +kernel) (by decide +kernel)
  exact ⟨h, (identified_iff Function.injective_id _).mpr h⟩

/-- One file that holds the boundary, and the two files it stands for. -/
theorem two_directories_share_a_digest :
    ∃ dir dir' : SkillDir, contents dir' ≠ contents dir ∧
      ∀ (Hash : Type) (hash : List UInt8 → Hash),
        (inspect hash dir').contentHash = (inspect hash dir).contentHash := by
  have hlt : fileA < fileB := by decide +kernel
  have hclash : clash fileA fileB = false := by decide +kernel
  refine ⟨.pair fileA fileB ⟨ascii "x", false⟩ ⟨ascii "y", false⟩ hlt hclash,
    .single fileA ⟨ascii "x" ++ 0 :: (fileB.text ++ 0 :: ascii "y"), false⟩, ?_, ?_⟩
  · intro heq
    rw [contents_single] at heq
    simpa [contents, FileTree.pair] using congrArg List.length heq
  · intro Hash hash
    rw [inspect_contentHash, inspect_contentHash, contents_single, fed_merge]
    rfl

end Tethys.Sync
