import Tethys.Lib.Volume
import Tethys.Sync.Import

/-!
# What the calls of an import do

The calls to `std::fs` and to the archive libraries, as a relation between the disk before and
after: how each can be answered, and what it then does. A call that changes the disk may fail at
any time, and a failed one may have done a part of its work. Looking at the disk tells the truth,
except about a link, which is not followed here, and about a path with dots, which the system may
not be able to walk.
-/

namespace Tethys.Sync

open Lib Schema

abbrev SkillVolume := Volume SkillFile

/-- What an import meets besides the disk. -/
structure ImportWorld (Hash : Type) where
  /-- what the clock can show -/
  now : Nat → Prop
  inspect : (List String → Option SkillFile) → SkillFacts Hash
  upstream : SkillSource → Except SkillError (String × Archive TarEntry)

/-- The places that a path goes through. -/
def placesOf (path : Path) : List (List String) :=
  (List.range (path.components.length + 1)).map fun n => follow [] (path.components.take n)

/-- The places on the way to a place. -/
theorem mem_placesOf_ofPlace {place q : List String} : q ∈ placesOf (.ofPlace place) ↔ q <+: place := by
  simp only [placesOf, Path.ofPlace, List.mem_map, List.mem_range, List.length_map, ← List.map_take,
    follow_names, List.nil_append]
  constructor
  · rintro ⟨n, -, rfl⟩
    exact List.take_prefix n place
  · intro h
    exact ⟨q.length, Nat.lt_succ_of_le h.length_le, (List.prefix_iff_eq_take.mp h).symm⟩

theorem make_placesOf (m : NodeMap SkillFile) (place : List String) :
    m.make (placesOf (.ofPlace place)) = m.make place.inits := by
  funext q
  simp only [NodeMap.make, mem_placesOf_ofPlace, List.mem_inits]

/-- A disk with nothing but the directories on the way to a place. -/
def dirsTo (place : List String) : SkillVolume where
  nodes q := if q <+: place then some .dir else none
  rooted q name h := by
    beta_reduce at h ⊢
    split_ifs at h with hq
    · exact if_pos ((List.prefix_append q [name]).trans hq)
    · exact absurd rfl h

theorem make_dirsTo {place place' : List String} (h : place <+: place') :
    (dirsTo place).nodes.make place'.inits = (dirsTo place').nodes := by
  funext q
  simp only [NodeMap.make, List.mem_inits, dirsTo]
  split_ifs with h' h''
  · rfl
  · rfl
  · exact absurd (‹q <+: place›.trans h) h'
  · rfl

/-- The way to what is there is made already. -/
theorem make_placesOf_eq {vol : SkillVolume} {place : List String} (h : vol.nodes place = some .dir) :
    vol.nodes.make (placesOf (.ofPlace place)) = vol.nodes := by
  funext q
  by_cases hq : q ∈ placesOf (.ofPlace place)
  · rw [NodeMap.make_of_mem hq, Volume.dir_of_initial h (mem_placesOf_ofPlace.mp hq)]
    rfl
  · exact NodeMap.make_of_notMem hq

/-- Whether something of the kind is there. -/
def Probes (vol : SkillVolume) (path : Path) (kind : FileNode SkillFile → Bool) (r : Bool) : Prop :=
  vol.nodes path.place = some .other ∨
    ((r = true → (vol.nodes path.place).any kind = true) ∧
      (.parent ∉ path.components → (vol.nodes path.place).any kind = true → r = true))

/-- A look at a path without dots tells the truth. -/
theorem Probes.eq {vol : SkillVolume} {path : Path} {kind : FileNode SkillFile → Bool} {r : Bool}
    (h : Probes vol path kind r) (hnode : vol.nodes path.place ≠ some .other)
    (hdots : .parent ∉ path.components) : r = (vol.nodes path.place).any kind := by
  obtain hother | ⟨htrue, hall⟩ := h
  · exact absurd hother hnode
  · cases hkind : (vol.nodes path.place).any kind with
    | true => exact hall hdots hkind
    | false => simpa [hkind] using htrue

/-- The names in a directory, in any order. -/
def Lists (vol : SkillVolume) (path : Path) (names : List String) : Prop :=
  vol.nodes path.place = some .other ∨
    (vol.nodes path.place = some .dir ∧ names.Nodup ∧
      ∀ name, name ∈ names ↔ vol.nodes (path.place ++ [name]) ≠ none)

/-- The bytes of the file at a place. -/
def bytesAt (vol : SkillVolume) (place : List String) : Option (List UInt8) :=
  (vol.nodes.fileAt place).map (·.bytes)

/-- `diff_dirs`. -/
def Compares (vol : SkillVolume) (installed upstream : List String) (changes : FileChanges) : Prop :=
  ∀ q before after, (q, before, after) ∈ changes ↔
    before = bytesAt vol (installed ++ q) ∧ after = bytesAt vol (upstream ++ q) ∧ before ≠ after

/-- The place of an entry below the directory that it is unpacked into. -/
def TarEntry.place (entry : TarEntry) : List String := (Path.parse entry.path).place

/-- `unpack_in`: the directories on the way are made, and a file that is there is replaced. An
entry that names the directory itself is passed over. -/
def Unpacks (vol : SkillVolume) (entry : TarEntry) (destination : List String)
    (vol' : SkillVolume) : Prop :=
  if entry.place = [] then vol' = vol
  else
    let place := destination ++ entry.place
    match entry.kind with
    | .dir => (∀ q, q <+: place → ∀ file, vol.nodes q ≠ some (.file file)) ∧
        vol'.nodes = vol.nodes.make place.inits
    | .file => (∀ q, q <+: place.dropLast → ∀ file, vol.nodes q ≠ some (.file file)) ∧
        vol.nodes place ≠ some .dir ∧
        vol'.nodes = (vol.nodes.make place.dropLast.inits).put place entry.file
    | .other => False

/-- The disk is as before, apart from what is below the place. -/
def SameBut (place : List String) (vol vol' : SkillVolume) : Prop :=
  ∀ q, vol'.nodes q = vol.nodes q ∨ (place <+: q ∧ q ≠ place)

/-- How a call can be answered, and the disk after it. -/
def ImportWorld.Performs {Hash : Type} (world : ImportWorld Hash) (vol : SkillVolume) :
    (op : ImportOp Hash) → op.Res → SkillVolume → Prop
  | .nowMs, ms, vol' => world.now ms ∧ vol' = vol
  | .exists path, r, vol' => Probes vol path (fun _ => true) r ∧ vol' = vol
  | .isDir path, r, vol' => Probes vol path (fun node => node = .dir) r ∧ vol' = vol
  | .isFile path, r, vol' => Probes vol path (fun node => node ≠ .dir) r ∧ vol' = vol
  | .entryIsDir path, r, vol' => (r = true ↔ vol.nodes path.place = some .dir) ∧ vol' = vol
  | .readDir path, r, vol' => (∀ names, r = some names → Lists vol path names) ∧ vol' = vol
  | .readToString _, _, vol' => vol' = vol
  | .inspect path, r, vol' =>
    (∀ facts, r = some facts → facts = world.inspect (vol.nodes.files path.place)) ∧ vol' = vol
  | .diffDirs installed upstream, r, vol' =>
    (∀ changes, r = some changes → Compares vol installed.place upstream.place changes) ∧ vol' = vol
  | .createDirAll path, true, vol' =>
    (∀ q ∈ placesOf path, ∀ file, vol.nodes q ≠ some (.file file)) ∧
      vol'.nodes = vol.nodes.make (placesOf path)
  -- the first directories on the way may have been made
  | .createDirAll path, false, vol' => ∀ q, vol'.nodes q = vol.nodes q ∨
      (q ∈ placesOf path ∧ q ≠ path.place ∧ vol.nodes q = none ∧ vol'.nodes q = some .dir)
  | .createFile path, true, vol' =>
    vol.nodes path.place ≠ some .dir ∧ ∃ file, vol'.nodes = vol.nodes.put path.place file
  | .createFile path, false, vol' => ∀ q, vol'.nodes q = vol.nodes q ∨ q = path.place
  | .copy source target, true, vol' =>
    vol.nodes target.place ≠ some .dir ∧
      ∃ file, vol.nodes source.place = some (.file file) ∧ vol'.nodes = vol.nodes.put target.place file
  | .copy _ target, false, vol' => ∀ q, vol'.nodes q = vol.nodes q ∨ q = target.place
  | .rename source target, true, vol' =>
    vol.nodes.Movable source.place target.place ∧
      vol'.nodes = vol.nodes.move source.place target.place
  | .rename _ _, false, vol' => vol' = vol
  | .removeDirAll path, true, vol' =>
    vol.nodes path.place = some .dir ∧ vol'.nodes = vol.nodes.remove path.place
  | .removeDirAll path, false, vol' => ∀ q, vol'.nodes q = vol.nodes q ∨
      (path.place <+: q ∧ q ≠ path.place ∧ vol'.nodes q = none)
  | .unpackIn entry destination, .ok (), vol' => Unpacks vol entry destination.place vol'
  | .unpackIn _ destination, .error _, vol' => SameBut destination.place vol vol'
  | .fetch source, r, vol' => r = world.upstream source ∧ vol' = vol
  | .record _, _, vol' => vol' = vol

/-- The calls that only look. -/
def ImportOp.reads {Hash : Type} : ImportOp Hash → Bool
  | .nowMs | .exists _ | .isDir _ | .isFile _ | .entryIsDir _ | .readDir _ | .readToString _
  | .inspect _ | .diffDirs _ _ | .fetch _ | .record _ => true
  | .createDirAll _ | .createFile _ | .copy _ _ | .rename _ _ | .removeDirAll _ | .unpackIn _ _ => false

theorem ImportWorld.Performs.eq_of_reads {Hash : Type} {world : ImportWorld Hash}
    {vol vol' : SkillVolume} {op : ImportOp Hash} {r : op.Res} (h : world.Performs vol op r vol')
    (hop : op.reads = true) : vol' = vol := by
  cases op with
  | nowMs | «exists» | isDir | isFile | entryIsDir | readDir | inspect | diffDirs | fetch => exact h.2
  | readToString | record => exact h
  | _ => cases hop

end Tethys.Sync
