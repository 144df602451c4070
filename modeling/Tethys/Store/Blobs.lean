import Tethys.Lib.Paths
import Tethys.Lib.Slices

/-!
# Paths of blobs

`BlobStore` finds a blob under the first two bytes of its hash. The hash is any string, cut and
joined without a check, and `stays_iff` says for which strings the path stays in the store. What
the system says of a path is left open.
-/

namespace Tethys.Store

open Lib

/-- What the system says of the text of a path. -/
structure Disk (IoError File : Type) where
  isFile : String → Bool
  read : String → Except IoError (List UInt8)
  openFile : String → Except IoError File

inductive BlobError (IoError : Type) where
  | io (e : IoError)
  | hashMismatch (expected found : String)

def isHexDigit (c : Char) : Bool :=
  let n := c.toNat
  (48 ≤ n && n ≤ 57) || (97 ≤ n && n ≤ 102) || (65 ≤ n && n ≤ 70)

namespace BlobStore

section
variable {IoError File : Type} (disk : Disk IoError File) (root hash : String)

def blobPath (shard : List Char) : String :=
  joinText (joinText (joinText root "blobs") (String.ofList shard)) hash

/-- The path of a blob that exists. A slice inside a character panics, and gives nothing here. -/
def path : Option (Option String) :=
  if byteLength hash.toList < 2 then some none
  else
    (splitAtByte 2 hash.toList).map fun (shard, _) =>
      if disk.isFile (blobPath root hash shard) then some (blobPath root hash shard) else none

def openBlob : Option (Except (BlobError IoError) (Option File)) :=
  (path disk root hash).map fun
    | none => .ok none
    | some p =>
      match disk.openFile p with
      | .ok file => .ok (some file)
      | .error e => .error (.io e)

def has : Option Bool := (path disk root hash).map (·.isSome)

/-- The bytes of a blob, if they have its hash. -/
def get (digest : List UInt8 → String) : Option (Except (BlobError IoError) (Option (List UInt8))) :=
  (path disk root hash).map fun
    | none => .ok none
    | some p =>
      match disk.read p with
      | .error e => .error (.io e)
      | .ok bytes =>
        if digest bytes ≠ hash then .error (.hashMismatch hash (digest bytes)) else .ok (some bytes)

/-- 64 hexadecimal digits. -/
def IsHash : Prop := hash.toList.length = 64 ∧ ∀ c ∈ hash.toList, isHexDigit c = true

/-- The path goes from `root/blobs` down to the name of the hash. -/
def InStore (p : String) : Prop :=
  ∃ shard, Path.parse p = ((Path.parse root).child "blobs" |>.child shard |>.child hash)

/-- Nothing panics, a path is that of a file in the store, and what is no hash finds nothing. -/
structure Stays (digest : List UInt8 → String) : Prop where
  safe : path disk root hash ≠ none ∧ openBlob disk root hash ≠ none ∧ has disk root hash ≠ none ∧
    get disk root hash digest ≠ none
  inside : ∀ p, path disk root hash = some (some p) → disk.isFile p = true ∧ InStore root hash p
  unresolved : ¬ IsHash hash → path disk root hash = some none ∧
    openBlob disk root hash = some (.ok none) ∧ has disk root hash = some false ∧
    get disk root hash digest = some (.ok none)

/-- The string is a hash, or too short, or its first two bytes are characters and there is no file
where it leads. -/
def HashOrAbsent : Prop :=
  IsHash hash ∨ byteLength hash.toList < 2 ∨
    ∃ shard rest, splitAtByte 2 hash.toList = some (shard, rest) ∧
      disk.isFile (blobPath root hash shard) = false

end

section Stays
variable {IoError File : Type} {disk : Disk IoError File} {root hash : String}

theorem utf8Size_of_isHexDigit {c : Char} (h : isHexDigit c = true) : c.utf8Size = 1 := by
  have hle : c.toNat ≤ 127 := by
    simp only [isHexDigit, Bool.or_eq_true, Bool.and_eq_true, decide_eq_true_eq] at h
    omega
  exact Char.utf8Size_eq_one_iff.mpr hle

/-- The first two digits are two bytes. -/
theorem IsHash.split (h : IsHash hash) :
    ∃ shard rest, splitAtByte 2 hash.toList = some (shard, rest) ∧ '/' ∉ shard ∧ '.' ∉ shard ∧
      shard ≠ [] := by
  obtain ⟨hlength, hdigits⟩ := h
  match htext : hash.toList with
  | [] | [_] => simp [htext] at hlength
  | a :: b :: rest =>
    rw [htext] at hdigits
    have ha := hdigits a (by simp)
    have hb := hdigits b (by simp)
    have hbytes : byteLength [a, b] = 2 := by
      simp [utf8Size_of_isHexDigit ha, utf8Size_of_isHexDigit hb]
    have hcut := splitAtByte_append [a, b] rest
    rw [hbytes] at hcut
    have hall : ∀ c ∈ [a, b], isHexDigit c = true := by simp [ha, hb]
    refine ⟨[a, b], rest, hcut, fun hmem => ?_, fun hmem => ?_, List.cons_ne_nil _ _⟩
    · cases hall _ hmem
    · cases hall _ hmem

/-- Digits name an entry. -/
theorem parse_of_digits {text : String} (hslash : '/' ∉ text.toList) (hdot : '.' ∉ text.toList)
    (hne : text ≠ "") : Path.parse text = ⟨false, [.name text]⟩ := by
  refine Path.parse_of_notMem hslash ⟨hne, ?_, ?_⟩
  · rintro rfl
    exact hdot (by decide)
  · rintro rfl
    exact hdot (by decide)

theorem IsHash.inStore (h : IsHash hash) {shard : List Char} (hslash : '/' ∉ shard)
    (hdot : '.' ∉ shard) (hne : shard ≠ []) : InStore root hash (blobPath root hash shard) := by
  have hmem : ∀ c, isHexDigit c = false → c ∉ hash.toList := fun c hc hin => by
    rw [h.2 c hin] at hc
    cases hc
  have hhash : hash ≠ "" := by
    rintro rfl
    exact absurd h.1 (by decide)
  have hshard : String.ofList shard ≠ "" := fun heq => hne (by simpa using congrArg String.toList heq)
  have hblobs : Path.parse "blobs" = ⟨false, [.name "blobs"]⟩ :=
    parse_of_digits (by decide) (by decide) (by decide)
  refine ⟨String.ofList shard, ?_⟩
  rw [blobPath, Path.parse_joinText, Path.parse_joinText, Path.parse_joinText,
    parse_of_digits (hmem _ rfl) (hmem _ rfl) hhash,
    parse_of_digits (by rwa [String.toList_ofList]) (by rwa [String.toList_ofList]) hshard,
    hblobs]
  rfl

/-- What is said of the path decides the four calls. -/
theorem resolved_none (digest : List UInt8 → String) (h : path disk root hash = some none) :
    openBlob disk root hash = some (.ok none) ∧ has disk root hash = some false ∧
      get disk root hash digest = some (.ok none) := by
  simp [openBlob, has, get, h]

theorem safe_of_path (digest : List UInt8 → String) (h : path disk root hash ≠ none) :
    path disk root hash ≠ none ∧ openBlob disk root hash ≠ none ∧ has disk root hash ≠ none ∧
      get disk root hash digest ≠ none := by
  simp [openBlob, has, get, h]

/-- Blob paths stay in the store if and only if the string is a hash or leads to no file. -/
theorem stays_iff (disk : Disk IoError File) (root hash : String) (digest : List UInt8 → String) :
    Stays disk root hash digest ↔ HashOrAbsent disk root hash := by
  have hdef : path disk root hash = if byteLength hash.toList < 2 then some none
      else (splitAtByte 2 hash.toList).map fun (shard, _) =>
        if disk.isFile (blobPath root hash shard) then some (blobPath root hash shard) else none := rfl
  constructor
  · intro hstays
    by_cases hhash : IsHash hash
    · exact .inl hhash
    · have hnone := (hstays.unresolved hhash).1
      rw [hdef] at hnone
      split_ifs at hnone with hshort
      · exact .inr (.inl hshort)
      · obtain ⟨⟨shard, rest⟩, hcut, hfile⟩ := Option.map_eq_some_iff.mp hnone
        refine .inr (.inr ⟨shard, rest, hcut, ?_⟩)
        dsimp only at hfile
        split_ifs at hfile with hisFile
        exact Bool.not_eq_true _ ▸ hisFile
  · intro hcond
    have hnone : path disk root hash = some none → Stays disk root hash digest := by
      intro hnone
      refine ⟨safe_of_path digest (by simp [hnone]), fun p hp => ?_,
        fun _ => ⟨hnone, resolved_none digest hnone⟩⟩
      rw [hnone] at hp
      cases hp
    rcases hcond with hhash | hshort | ⟨shard, rest, hcut, hfile⟩
    · obtain ⟨shard, rest, hcut, hslash, hdot, hne⟩ := hhash.split
      have hlong : ¬ byteLength hash.toList < 2 := by
        have hbytes := splitAtByte_eq_some hcut
        rw [hbytes.1, byteLength_append]
        omega
      rw [if_neg hlong, hcut, Option.map_some] at hdef
      refine ⟨safe_of_path digest (by simp [hdef]), ?_, absurd hhash⟩
      intro p hp
      rw [hdef] at hp
      dsimp only at hp
      split_ifs at hp with hisFile
      · obtain rfl := Option.some.inj (Option.some.inj hp)
        exact ⟨hisFile, hhash.inStore hslash hdot hne⟩
      · cases hp
    · exact hnone (by rw [hdef, if_pos hshort])
    · refine hnone ?_
      rw [hdef, hcut, Option.map_some]
      dsimp only
      rw [hfile, if_neg Bool.false_ne_true]
      split_ifs <;> rfl

end Stays

/-! ## Strings that are no hashes -/

/-- A system whose only file is a table of users. -/
def usersDisk : Disk Unit Unit where
  isFile p := p = "/etc/passwd"
  read _ := .ok []
  openFile _ := .ok ()

/-- An absolute string leads out of the store, and a slice through a character panics. -/
theorem usersDisk_leaves : path usersDisk "/data" "/etc/passwd" = some (some "/etc/passwd") ∧
    path usersDisk "/data" "a€" = none := by
  constructor <;> decide +kernel

theorem usersDisk_not_stays : ¬ Stays usersDisk "/data" "/etc/passwd" (fun _ => "") ∧
    ¬ Stays usersDisk "/data" "a€" (fun _ => "") := by
  refine ⟨fun hstays => ?_, fun hstays => hstays.safe.1 usersDisk_leaves.2⟩
  have hnone := (hstays.unresolved fun hhash => absurd hhash.1 (by decide)).1
  rw [usersDisk_leaves.1] at hnone
  cases hnone

end BlobStore

end Tethys.Store
