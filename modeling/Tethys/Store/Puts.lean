import Tethys.Lib.Publish
import Tethys.Store.Blobs

/-!
# Blobs that are put side by side

`BlobStore::put` as its calls on the file system, with any number of puts in progress, calls that
fail, and crashes. A blob is written to a temporary file that no other call knows, synced, and
renamed to its hash. Other programs that write below the root are left out.
-/

namespace Tethys.Store

open Lib

/-- The digest of BLAKE3 in hexadecimal digits. -/
structure Blake3 where
  hex : List UInt8 → String
  isHash : ∀ bytes, BlobStore.IsHash (hex bytes)

inductive PutError (IoError : Type) where
  | io (e : IoError)
  | notFound (message : String)

namespace BlobStore

variable {IoError : Type} (blake : Blake3) (root : String)

def shardDir (shard : List Char) : String := joinText (joinText root "blobs") (String.ofList shard)

abbrev Putting (IoError : Type) :=
  Program (FileOp String) (FileOp.Res IoError) (Option (Except (PutError IoError) String))

def ioFailed (e : IoError) : Option (Except (PutError IoError) String) := some (.error (.io e))

/-- Stores a blob, returning its hash. A slice inside a character panics, and gives `none`. -/
def put (bytes : List UInt8) : Putting IoError :=
  let hash := blake.hex bytes
  if byteLength hash.toList < 2 then .ret (some (.error (.notFound "invalid blob hash length")))
  else
    match splitAtByte 2 hash.toList with
    | none => .ret none
    | some (shard, _) =>
      let dir := shardDir root shard
      let target := joinText dir hash
      tryCall (.createDirAll dir) ioFailed <|
      .call (.isFile target) fun (found : Bool) =>
        -- content addressing: whatever has this name has these bytes
        if found then .ret (some (.ok hash))
        else
          tryCall (.createTemp dir) ioFailed <|
          let temp := FileData.new
          tryCall .write ioFailed <|
          let temp := temp.writeAll bytes
          tryCall .sync ioFailed <|
          let temp := temp.syncAll
          persist temp target dir ioFailed (some (.ok hash))

/-- What the system says while these files are there. -/
def diskOf (m : Mount String) (unreadable : String → Option IoError) (missing : IoError) :
    Disk IoError Unit where
  isFile p := (m.fileAt p).isSome
  read p :=
    match unreadable p, m.fileAt p with
    | some e, _ => .error e
    | none, some data => .ok data.bytes
    | none, none => .error missing
  openFile _ := .ok ()

/-- A file with the path of a blob has the bytes of that blob. -/
def Addressed (name : String) (bytes : List UInt8) : Prop :=
  ∀ hash shard rest, IsHash hash → splitAtByte 2 hash.toList = some (shard, rest) →
    name = blobPath root hash shard → blake.hex bytes = hash

/-- The store makes no links. -/
def NoLink (_ _ : String) : Prop := False

/-- There is a file with the path of the blob. -/
def Stored (m : Mount String) (hash : String) : Prop :=
  ∃ shard rest, splitAtByte 2 hash.toList = some (shard, rest) ∧
    (m.fileAt (blobPath root hash shard)).isSome

/-- A put never panics and never finds its hash too short; the hash it returns is stored. -/
structure Answered (s : Host String IoError) (r : Option (Except (PutError IoError) String)) :
    Prop where
  ends : (∃ hash, r = some (.ok hash)) ∨ ∃ e, r = some (.error (.io e))
  stored : ∀ hash, r = some (.ok hash) → IsHash hash ∧ Stored root s.mount hash

variable {blake root} {hash hash' : String} {shard shard' rest rest' : List Char}

theorem IsHash.long (h : IsHash hash) : ¬ byteLength hash.toList < 2 := by
  obtain ⟨_, _, hcut, -⟩ := h.split
  have hbytes := splitAtByte_eq_some hcut
  rw [hbytes.1, byteLength_append]
  omega

theorem IsHash.path_inStore (root : String) (h : IsHash hash)
    (hcut : splitAtByte 2 hash.toList = some (shard, rest)) :
    InStore root hash (blobPath root hash shard) := by
  obtain ⟨_, _, hcut', hslash, hdot, hne⟩ := h.split
  rw [hcut, Option.some.injEq, Prod.mk.injEq] at hcut'
  obtain ⟨rfl, -⟩ := hcut'
  exact h.inStore hslash hdot hne

/-- Blobs with the same path have the same hash. -/
theorem hash_eq_of_path (h : IsHash hash) (h' : IsHash hash')
    (hcut : splitAtByte 2 hash.toList = some (shard, rest))
    (hcut' : splitAtByte 2 hash'.toList = some (shard', rest'))
    (hpath : blobPath root hash shard = blobPath root hash' shard') : hash = hash' := by
  obtain ⟨_, hparse⟩ := h.path_inStore root hcut
  obtain ⟨_, hparse'⟩ := h'.path_inStore root hcut'
  rw [hpath, hparse'] at hparse
  have hlast := congrArg (fun p => p.components.getLast?) hparse
  simpa [Path.child, eq_comm] using hlast

theorem Answered.io (s : Host String IoError) (e : IoError) : Answered root s (ioFailed e) :=
  ⟨.inr ⟨e, rfl⟩, fun hash h => by cases h⟩

theorem Answered.mono (s t : Host String IoError) (r : Option (Except (PutError IoError) String))
    (hkeeps : s.Keeps t) (h : Answered root s r) : Answered root t r := by
  refine ⟨h.ends, fun hash hr => ?_⟩
  obtain ⟨hhash, shard, rest, hcut, hfile⟩ := h.stored hash hr
  exact ⟨hhash, shard, rest, hcut, hkeeps _ hfile⟩

/-- A put renames the blob, in full and synced, to the path of its hash, and to nothing else. -/
theorem safe_put (bytes : List UInt8) (s : Host String IoError) :
    (put blake root bytes).Safe Host.perform (Host.Whole (Addressed blake root) NoLink) Host.Keeps
      (Answered root) s := by
  have hhash := blake.isHash bytes
  obtain ⟨shard, rest, hcut, -⟩ := hhash.split
  have hstored : ∀ t : Host String IoError,
      (t.mount.fileAt (blobPath root (blake.hex bytes) shard)).isSome →
      Answered root t (some (.ok (blake.hex bytes))) := by
    refine fun t hfile => ⟨.inl ⟨_, rfl⟩, fun hash heq => ?_⟩
    obtain rfl := Except.ok.inj (Option.some.inj heq)
    exact ⟨hhash, shard, rest, hcut, hfile⟩
  have haddressed : Addressed blake root (blobPath root (blake.hex bytes) shard) bytes :=
    fun hash' shard' rest' h' hcut' hpath => hash_eq_of_path hhash h' hcut hcut' hpath
  unfold put
  rw [if_neg hhash.long, hcut]
  refine safe_tryCall Answered.io fun _ => safe_call trivial fun t _ => ?_
  dsimp only
  split
  · -- the file is there already
    rename_i hfound
    refine hstored _ ?_
    simp only [Host.perform, Bool.and_eq_true] at hfound
    exact hfound.2
  · refine safe_tryCall Answered.io fun _ => safe_tryCall Answered.io fun _ =>
      safe_tryCall Answered.io fun _ =>
        safe_persist rfl haddressed Answered.mono Answered.io hstored

section Read
variable {m : Mount String} (unreadable : String → Option IoError) (missing : IoError)

theorem get_absent (hhash : IsHash hash) (hcut : splitAtByte 2 hash.toList = some (shard, rest))
    (hfile : m.fileAt (blobPath root hash shard) = none) :
    get (diskOf m unreadable missing) root hash blake.hex = some (.ok none) := by
  simp [get, path, hhash.long, hcut, diskOf, hfile]

theorem get_found {data : FileData} (hhash : IsHash hash)
    (hcut : splitAtByte 2 hash.toList = some (shard, rest))
    (hfile : m.fileAt (blobPath root hash shard) = some data) (hdata : blake.hex data.bytes = hash) :
    get (diskOf m unreadable missing) root hash blake.hex =
      some (match unreadable (blobPath root hash shard) with
        | some e => .error (.io e)
        | none => .ok (some data.bytes)) := by
  cases hread : unreadable (blobPath root hash shard) <;>
    simp [get, path, hhash.long, hcut, diskOf, hfile, hread, hdata]

/-- Where all files are whole, what is read for a hash has that hash. -/
theorem get_ne_mismatch (hm : m.Whole (Addressed blake root) NoLink) (hhash : IsHash hash)
    (expected found : String) :
    get (diskOf m unreadable missing) root hash blake.hex ≠
      some (.error (.hashMismatch expected found)) := by
  obtain ⟨shard, rest, hcut, -⟩ := hhash.split
  cases hfile : m.fileAt (blobPath root hash shard) with
  | none => simp [get_absent unreadable missing hhash hcut hfile]
  | some data =>
    have hdata : blake.hex data.bytes = hash := hm.fileAt hfile hash shard rest hhash hcut rfl
    rw [get_found unreadable missing hhash hcut hfile hdata]
    cases unreadable (blobPath root hash shard) <;> simp

/-- A stored blob is read with its bytes. -/
theorem get_stored (hm : m.Whole (Addressed blake root) NoLink) (hhash : IsHash hash)
    (hstored : Stored root m hash) :
    ∃ bytes, get (diskOf m (fun _ => none) missing) root hash blake.hex = some (.ok (some bytes)) ∧
      blake.hex bytes = hash := by
  obtain ⟨shard, rest, hcut, hfile⟩ := hstored
  obtain ⟨data, hdata⟩ := Option.isSome_iff_exists.mp hfile
  have hbytes : blake.hex data.bytes = hash := hm.fileAt hdata hash shard rest hhash hcut rfl
  exact ⟨data.bytes, get_found _ missing hhash hcut hdata hbytes, hbytes⟩

end Read

variable (blake root) in
/-- What is read for a hash never has another one, and every hash that a put has returned is there
to be read. -/
def Consistent (s : Machine (FileOp String) (FileOp.Res IoError)
    (Option (Except (PutError IoError) String)) (Host String IoError)) : Prop :=
  (∀ hash, IsHash hash → ∀ (unreadable : String → Option IoError) missing expected found,
    get (diskOf s.shared.mount unreadable missing) root hash blake.hex ≠
      some (.error (.hashMismatch expected found))) ∧
  ∀ r, .ret r ∈ s.threads → (∃ e, r = some (.error (.io e))) ∨
    ∃ hash, r = some (.ok hash) ∧ ∀ missing : IoError, ∃ bytes,
      get (diskOf s.shared.mount (fun _ => none) missing) root hash blake.hex =
        some (.ok (some bytes)) ∧ blake.hex bytes = hash

variable (blake) in
/-- The hash of the bytes, or the error of a call. -/
def Hashed (bytes : List UInt8) (r : Option (Except (PutError IoError) String)) : Prop :=
  r = some (.ok (blake.hex bytes)) ∨ ∃ e, r = some (.error (.io e))

/-- However its calls are answered, a put returns the hash of its bytes or an error. -/
theorem ends_put (bytes : List UInt8) :
    (put blake root bytes : Putting IoError).Ends (Hashed blake bytes) := by
  have hhash := blake.isHash bytes
  obtain ⟨shard, rest, hcut, -⟩ := hhash.split
  have hfailed : ∀ e : IoError, Hashed blake bytes (ioFailed e) := fun e => .inr ⟨e, rfl⟩
  have htry : ∀ {call : SystemCall String} {next : Putting IoError}, next.Ends (Hashed blake bytes) →
      (tryCall call ioFailed next).Ends (Hashed blake bytes) := fun hnext =>
    ⟨trivial, fun r _ => by cases r with
      | ok _ => exact hnext
      | error e => exact hfailed e⟩
  unfold put
  rw [if_neg hhash.long, hcut]
  refine htry ⟨trivial, fun found _ => ?_⟩
  dsimp only
  split
  · exact .inl rfl
  · refine htry (htry (htry ⟨trivial, fun r _ => ?_⟩))
    cases r with
    | ok _ => exact ⟨trivial, fun _ _ => .inl rfl⟩
    | error e => exact hfailed e

/-- Blobs stay consistent whatever puts run side by side, whichever of their calls fail, and
wherever crashes have ended the puts before; and each put that has returned a hash has returned
that of its bytes. -/
theorem blobs_stay_consistent {m : Mount String}
    (h : Survives (put blake root : List UInt8 → Putting IoError) .empty m) (faults : Nat → Option IoError)
    (moves : List (Move Empty (List UInt8))) :
    Always (callStep (put blake root)) (Consistent blake root) (boot m faults) moves ∧
      ∀ s, run (callStep (put blake root)) (boot m faults) moves = some s →
        List.Forall₂ (fun bytes p => ∀ r, p = .ret r → Hashed blake bytes r) (started moves) s.threads := by
  have hrun := always_whole Answered.mono safe_put Mount.whole_empty h faults moves
  refine ⟨hrun.imp fun s ⟨hwhole, hthreads⟩ => ⟨?_, ?_⟩, fun s hs => ?_⟩
  · intro hash hhash unreadable missing expected found
    exact get_ne_mismatch unreadable missing hwhole hhash expected found
  · intro r hr
    have hanswered : Answered root s.shared r := hthreads _ hr
    rcases hanswered.ends with ⟨hash, rfl⟩ | hfailed
    · obtain ⟨hhash, hstored⟩ := hanswered.stored hash rfl
      exact .inr ⟨hash, rfl, fun missing => get_stored missing hwhole hhash hstored⟩
    · exact .inl hfailed
  · have hends : List.Forall₂ (fun bytes p => p.Ends (Hashed blake bytes)) ([] ++ started moves)
        s.threads := Machine.started_of_run ends_put .nil hs
    refine hends.imp fun bytes p hp r hr => ?_
    subst hr
    exact hp

/-! ## A crash in the middle of a put -/

def hexDigits (b : UInt8) : List Char := [Nat.digitChar (b.toNat / 16), Nat.digitChar (b.toNat % 16)]

theorem isHexDigit_digitChar {n : Nat} (h : n < 16) : isHexDigit (Nat.digitChar n) = true := by
  have hall : ∀ n < 16, isHexDigit (Nat.digitChar n) = true := by decide
  exact hall n h

theorem length_flatMap_hexDigits (bytes : List UInt8) :
    (bytes.flatMap hexDigits).length = 2 * bytes.length := by
  induction bytes with
  | nil => rfl
  | cons b bytes ih =>
    rw [List.flatMap_cons, List.length_append, ih, List.length_cons]
    simp only [hexDigits, List.length_cons, List.length_nil]
    omega

/-- A digest that is the first 32 bytes. -/
def firstBytes : Blake3 where
  hex bytes := String.ofList (((bytes ++ List.replicate 32 0).take 32).flatMap hexDigits)
  isHash bytes := by
    rw [IsHash, String.toList_ofList]
    constructor
    · rw [length_flatMap_hexDigits, List.length_take, List.length_append, List.length_replicate]
      omega
    · intro c hc
      obtain ⟨b, -, hc⟩ := List.mem_flatMap.mp hc
      have hb := b.toNat_lt
      rcases List.mem_pair.mp hc with rfl | rfl <;> exact isHexDigit_digitChar (by omega)

/-- A put that has renamed its file, and has not synced the directory. -/
def renamedPut : List (Move Empty (List UInt8)) := .spawn [7, 8] :: List.replicate 6 (.step 0)

def putOf (bytes : List UInt8) : Putting Unit := put firstBytes "/data" bytes

theorem renamedPut_runs :
    (run (callStep putOf) (boot .empty fun _ => none) renamedPut).isSome = true := by
  decide +kernel

/-- The crash keeps the entry of the directory. -/
def keptEntry : Mount String :=
  ((run (callStep putOf) (boot .empty fun _ => none) renamedPut).get
    renamedPut_runs).shared.mount.crash ⟨fun _ => some 0, fun _ => []⟩

/-- The first of the two puts finds the file, and the second one writes its own. -/
def putAgain : List (Move Empty (List UInt8)) :=
  .spawn [7, 8] :: .spawn [9] :: (List.replicate 2 (.step 0) ++ List.replicate 5 (.step 1))

theorem putAgain_runs :
    (run (callStep putOf) (boot keptEntry fun n => if n = 9 then some () else none) putAgain).isSome =
      true := by
  decide +kernel

theorem keptEntry_consistent :
    Always (callStep putOf) (Consistent firstBytes "/data")
        (boot keptEntry fun n => if n = 9 then some () else none) putAgain ∧
      List.Forall₂ (fun bytes p => ∀ r, p = .ret r → Hashed firstBytes bytes r) [[7, 8], [9]]
        ((run (callStep putOf) (boot keptEntry fun n => if n = 9 then some () else none) putAgain).get
          putAgain_runs).threads := by
  obtain ⟨hconsistent, hhashed⟩ := blobs_stay_consistent
    (.crash ⟨fun _ => some 0, fun _ => []⟩ .start (Option.eq_some_of_isSome renamedPut_runs))
    (fun n => if n = 9 then some () else none) putAgain
  exact ⟨hconsistent, hhashed _ (Option.eq_some_of_isSome putAgain_runs)⟩

end BlobStore

end Tethys.Store
