import Tethys.Git.Summary
import Tethys.Lib.Fifo

/-!
# The cache of hunks

`DiffCache` of `hunks.rs` keeps computed hunks under a hash of the names of the two blobs, and the
keys in the order of their insertion, so that the oldest entry goes when the cache is full. Map and
queue are one bounded queue of entries, and a load gives the same with any cache that loads have
filled. The hash is known to be injective only.
-/

namespace Tethys.Git

open Lib

/-- The name of a blob, of hexadecimal digits. -/
abbrev BlobId := { text : String // ':' ∉ text.toList }

/-- The map of the cache, and its keys with the oldest first. -/
structure HunkCache where
  entries : OrdMap String (List ComputedHunk)
  order : List String
  capacity : Nat

namespace HunkCache

protected def default : HunkCache := ⟨.empty, [], cacheCapacity⟩

def key (hash : String → String) (oldOid newOid : BlobId) : String :=
  hash (oldOid.val ++ ":" ++ newOid.val)

def get (cache : HunkCache) (key : String) : Option (List ComputedHunk) := cache.entries.get key

/-- Removes the oldest entry of a full cache. -/
def evict (cache : HunkCache) : HunkCache :=
  if cache.entries.entries.length ≥ cache.capacity then
    match cache.order with
    | oldest :: order => { cache with entries := cache.entries.erase oldest, order := order }
    | [] => cache
  else cache

def insert (cache : HunkCache) (key : String) (hunks : List ComputedHunk) : HunkCache :=
  if (cache.entries.get key).isSome then cache
  else
    { cache.evict with
      order := cache.evict.order ++ [key]
      entries := cache.evict.entries.insert key hunks }

/-! ## One queue of entries -/

/-- The map and the keys are those of one queue of entries. -/
structure Holds (cache : HunkCache) (queue : List (String × List ComputedHunk)) : Prop where
  order : cache.order = queue.map Prod.fst
  get : ∀ k, cache.entries.get k = queue.lookup k
  nodup : (queue.map Prod.fst).Nodup

variable {cache : HunkCache} {queue : List (String × List ComputedHunk)}

theorem Holds.perm (h : cache.Holds queue) :
    cache.order.Perm (cache.entries.entries.map Prod.fst) := by
  have hsorted : (cache.entries.entries.map Prod.fst).Nodup :=
    List.pairwise_map.mpr (cache.entries.sorted.imp fun hlt => ne_of_lt hlt)
  rw [h.order]
  refine (List.perm_ext_iff_of_nodup h.nodup hsorted).mpr fun k => ?_
  rw [mem_keys_iff, ← h.get, ← not_iff_not, ← OrdMap.get_eq_none, Option.not_isSome_iff_eq_none]

theorem Holds.size (h : cache.Holds queue) : cache.entries.entries.length = queue.length := by
  have hlength := h.perm.length_eq
  rw [h.order, List.length_map, List.length_map] at hlength
  exact hlength.symm

theorem capacity_evict (cache : HunkCache) : cache.evict.capacity = cache.capacity := by
  unfold evict
  split_ifs
  · split <;> rfl
  · rfl

theorem capacity_insert (cache : HunkCache) (key : String) (hunks : List ComputedHunk) :
    (cache.insert key hunks).capacity = cache.capacity := by
  unfold insert
  split_ifs
  · rfl
  · exact cache.capacity_evict

theorem Holds.evict (h : cache.Holds queue) : cache.evict.Holds (makeRoom cache.capacity queue) := by
  unfold HunkCache.evict makeRoom
  rw [h.size]
  split_ifs
  · cases queue with
    | nil =>
      have horder : cache.order = [] := h.order
      rw [horder]
      exact h
    | cons e queue =>
      obtain ⟨oldest, hunks⟩ := e
      have horder : cache.order = oldest :: queue.map Prod.fst := h.order
      rw [horder]
      refine ⟨rfl, fun k => ?_, (List.nodup_cons.mp h.nodup).2⟩
      rw [List.tail_cons, lookup_of_nodup_cons h.nodup, OrdMap.get_erase, h.get]
  · exact h

/-- An insertion is one into the queue. -/
theorem Holds.insert (h : cache.Holds queue) (key : String) (hunks : List ComputedHunk) :
    (cache.insert key hunks).Holds (enqueue cache.capacity queue key hunks) := by
  have hnodup : ((enqueue cache.capacity queue key hunks).map Prod.fst).Nodup :=
    nodup_enqueue h.nodup
  unfold HunkCache.insert
  unfold enqueue at hnodup ⊢
  rw [h.get]
  split_ifs with hget
  · exact h
  · rw [if_neg hget] at hnodup
    refine ⟨?_, fun k => ?_, hnodup⟩
    · rw [List.map_append, h.evict.order]
      rfl
    · rw [lookup_concat, OrdMap.get_insert, h.evict.get]
      split_ifs with hk
      · rw [hk, lookup_makeRoom hget, Option.none_or]
      · rw [Option.or_none]

/-! ## Runs -/

inductive Call where
  | get (oldOid newOid : BlobId)
  | insert (oldOid newOid : BlobId) (hunks : List ComputedHunk)

variable (hash : String → String)

/-- A call leaves this cache behind; to get hunks changes nothing. -/
def call (cache : HunkCache) : Call → HunkCache
  | .get _ _ => cache
  | .insert oldOid newOid hunks => cache.insert (key hash oldOid newOid) hunks

/-- The cache after these calls. -/
def after (calls : List Call) : HunkCache := calls.foldl (call hash) .default

/-- The cache is a queue within its capacity, of entries that were inserted. -/
structure Reached (cache : HunkCache) (calls : List Call) (queue : List (String × List ComputedHunk)) :
    Prop extends cache.Holds queue where
  capacity : cache.capacity = cacheCapacity
  bounded : queue.length ≤ cacheCapacity
  inserted : ∀ k hunks, (k, hunks) ∈ queue →
    ∃ oldOid newOid, Call.insert oldOid newOid hunks ∈ calls ∧ k = key hash oldOid newOid

variable {hash}

theorem Reached.call {calls : List Call} (h : Reached hash cache calls queue) (c : Call) :
    ∃ queue', Reached hash (cache.call hash c) (calls ++ [c]) queue' := by
  have hold : ∀ k hunks, (k, hunks) ∈ queue →
      ∃ oldOid newOid, Call.insert oldOid newOid hunks ∈ calls ++ [c] ∧ k = key hash oldOid newOid := by
    intro k hunks hmem
    obtain ⟨oldOid, newOid, hcall, hk⟩ := h.inserted k hunks hmem
    exact ⟨oldOid, newOid, List.mem_append_left _ hcall, hk⟩
  cases c with
  | get oldOid newOid => exact ⟨queue, h.toHolds, h.capacity, h.bounded, hold⟩
  | insert oldOid newOid hunks =>
    refine ⟨_, h.toHolds.insert _ hunks, (cache.capacity_insert _ _).trans h.capacity, ?_, ?_⟩
    · rw [h.capacity]
      exact length_enqueue_le (by decide) h.bounded
    · intro k found hmem
      rcases mem_enqueue hmem with hmem | heq
      · exact hold k found hmem
      · obtain ⟨rfl, rfl⟩ := Prod.mk.inj heq
        exact ⟨oldOid, newOid, by simp, rfl⟩

theorem reached_after (calls : List Call) : ∃ queue, Reached hash (after hash calls) calls queue := by
  induction calls using List.reverseRecOn with
  | nil => exact ⟨[], ⟨rfl, fun _ => rfl, .nil⟩, rfl, Nat.zero_le _, nofun⟩
  | append_singleton calls c ih =>
    obtain ⟨queue, hqueue⟩ := ih
    rw [after, List.foldl_append]
    exact hqueue.call c

/-- The names are read off the text under the hash. -/
theorem key_injective (hhash : Function.Injective hash) {a b c d : BlobId}
    (h : key hash a b = key hash c d) : a = c ∧ b = d := by
  have hlists := congrArg String.toList (hhash h)
  simp only [String.toList_append, List.append_assoc] at hlists
  have hsplit := congrArg (List.splitOn ':') hlists
  change (a.val.toList ++ ':' :: b.val.toList).splitOn ':' =
    (c.val.toList ++ ':' :: d.val.toList).splitOn ':' at hsplit
  rw [List.splitOn_append_cons_self_of_not_mem a.property,
    List.splitOn_append_cons_self_of_not_mem c.property] at hsplit
  have hac : a = c := Subtype.ext (String.toList_inj.mp (List.head_eq_of_cons_eq hsplit))
  subst hac
  have hbd := List.append_cancel_left (List.append_cancel_left hlists)
  exact ⟨rfl, Subtype.ext (String.toList_inj.mp hbd)⟩

/-- Hunks that are found were inserted for these blobs. -/
theorem insert_mem_of_get (hhash : Function.Injective hash) {calls : List Call} {a b : BlobId}
    {hunks : List ComputedHunk} (h : (after hash calls).get (key hash a b) = some hunks) :
    .insert a b hunks ∈ calls := by
  obtain ⟨queue, hqueue⟩ := reached_after calls
  rw [HunkCache.get, hqueue.get] at h
  obtain ⟨c, d, hmem, hkey⟩ := hqueue.inserted _ _ (mem_of_lookup_eq_some h)
  obtain ⟨rfl, rfl⟩ := key_injective hhash hkey
  exact hmem

/-! ## Loading -/

section Loading
variable (hash : String → String) (name : Option Text → BlobId) (diff : LineDiff)

/-- The hunks of two blobs, from the cache or by the diff, which are then kept. -/
def hunks (cache : HunkCache) (blobs : Option Text × Option Text) :
    Option (List ComputedHunk × HunkCache) :=
  let key := key hash (name blobs.1) (name blobs.2)
  match cache.get key with
  | some cached => some (cached, cache)
  | none =>
    (compute diff (textOf blobs.1) (textOf blobs.2)).map fun computed =>
      (computed, cache.insert key computed)

end Loading

end HunkCache

section Loading
variable {C D : Type} (git : GitDiff) (old new : Tree) (path : Path)

/-- Loads one path with a cache of any kind. -/
def loadWith (hunks : C → Option Text × Option Text → Option (List ComputedHunk × C)) (cache : C) :
    Option (LoadedFile × C) :=
  match fileEntry old new path with
  | none => some (.absent, cache)
  | some entry =>
    let (oldBytes, newBytes) := loadBlobs entry
    let (additions, deletions) := numstatFor git old new path
    if looksBinary oldBytes || looksBinary newBytes then some (.binary entry 0 0, cache)
    else if oldBytes.length > collapseBytes ∨ newBytes.length > collapseBytes ∨
        saturatingAdd additions deletions > collapseLines then
      some (.collapsed entry additions deletions, cache)
    else
      (hunks cache (entry.oldOid, entry.newOid)).map fun (hunks, cache) =>
        (.text ⟨entry, lineTokens (toStringLossy oldBytes), lineTokens (toStringLossy newBytes), hunks⟩,
          cache)

theorem loadFile_eq_loadWith {diff : LineDiff} (cache : DiffCache diff) :
    loadFile git old new path cache = loadWith git old new path DiffCache.hunks cache := rfl

variable {git old new path}
variable {hunks : C → Option Text × Option Text → Option (List ComputedHunk × C)}
variable {hunks' : D → Option Text × Option Text → Option (List ComputedHunk × D)} {cache : C} {cache' : D}

/-- Caches that answer alike give the same file. -/
theorem map_fst_loadWith
    (h : ∀ blobs, (hunks cache blobs).map Prod.fst = (hunks' cache' blobs).map Prod.fst) :
    (loadWith git old new path hunks cache).map Prod.fst =
      (loadWith git old new path hunks' cache').map Prod.fst := by
  unfold loadWith
  cases hentry : fileEntry old new path with
  | none => rfl
  | some entry =>
    dsimp only
    split_ifs
    · rfl
    · rfl
    · have hsame := congrArg (Option.map fun hunks => LoadedFile.text ⟨entry,
        lineTokens (toStringLossy (loadBlobs entry).1), lineTokens (toStringLossy (loadBlobs entry).2),
        hunks⟩) (h (entry.oldOid, entry.newOid))
      simpa only [Option.map_map, Function.comp_def] using hsame

/-- A load leaves the cache as it was, or as the hunks of two blobs leave it. -/
theorem snd_loadWith {loaded : LoadedFile} {after : C}
    (h : loadWith git old new path hunks cache = some (loaded, after)) :
    after = cache ∨ ∃ blobs found, hunks cache blobs = some (found, after) := by
  unfold loadWith at h
  cases hentry : fileEntry old new path with
  | none =>
    rw [hentry] at h
    cases h
    exact .inl rfl
  | some entry =>
    rw [hentry] at h
    dsimp only at h
    split_ifs at h
    · cases h
      exact .inl rfl
    · cases h
      exact .inl rfl
    · obtain ⟨⟨found, after'⟩, hfound, heq⟩ := Option.map_eq_some_iff.mp h
      cases heq
      exact .inr ⟨_, found, hfound⟩

end Loading

/-! ## Loads one after the other -/

structure Load where
  old : Tree
  new : Tree
  path : Path

namespace HunkCache

section Loads
variable (hash : String → String) (name : Option Text → BlobId) (diff : LineDiff) (git : GitDiff)

def loadFile (cache : HunkCache) (l : Load) : Option (LoadedFile × HunkCache) :=
  loadWith git l.old l.new l.path (hunks hash name diff) cache

/-- The cache after a load. -/
def load (cache : HunkCache) (l : Load) : HunkCache :=
  ((loadFile hash name diff git cache l).map Prod.snd).getD cache

def afterLoads (loads : List Load) : HunkCache := loads.foldl (load hash name diff git) .default

/-- The calls insert nothing but what the diff of the blobs gives. -/
def Computed (calls : List Call) : Prop :=
  ∀ a b found, Call.insert a b found ∈ calls → ∃ blobs : Option Text × Option Text,
    a = name blobs.1 ∧ b = name blobs.2 ∧ compute diff (textOf blobs.1) (textOf blobs.2) = some found

variable {hash name diff git} {calls : List Call}

/-- Hunks are got, or inserted as they were computed. -/
theorem hunks_cases {cache after : HunkCache} {blobs : Option Text × Option Text}
    {found : List ComputedHunk} (h : cache.hunks hash name diff blobs = some (found, after)) :
    after = cache ∨ compute diff (textOf blobs.1) (textOf blobs.2) = some found ∧
      after = cache.insert (key hash (name blobs.1) (name blobs.2)) found := by
  unfold hunks at h
  dsimp only at h
  split at h
  · cases h
    exact .inl rfl
  · obtain ⟨computed, hcomputed, heq⟩ := Option.map_eq_some_iff.mp h
    cases heq
    exact .inr ⟨hcomputed, rfl⟩

/-- A load makes calls of the cache. -/
theorem exists_calls_load (hcalls : Computed name diff calls) (l : Load) :
    ∃ calls', Computed name diff calls' ∧
      (after hash calls).load hash name diff git l = after hash calls' := by
  unfold load
  cases hload : loadFile hash name diff git (after hash calls) l with
  | none => exact ⟨calls, hcalls, rfl⟩
  | some result =>
    obtain ⟨loaded, cache⟩ := result
    rw [Option.map_some, Option.getD_some]
    rcases snd_loadWith hload with rfl | ⟨blobs, found, hhunks⟩
    · exact ⟨calls, hcalls, rfl⟩
    · rcases hunks_cases hhunks with rfl | ⟨hcomputed, rfl⟩
      · exact ⟨calls, hcalls, rfl⟩
      · refine ⟨calls ++ [.insert (name blobs.1) (name blobs.2) found], ?_, ?_⟩
        · intro a b found' hmem
          rcases List.mem_append.mp hmem with hmem | hmem
          · exact hcalls a b found' hmem
          · cases List.mem_singleton.mp hmem
            exact ⟨blobs, rfl, rfl, hcomputed⟩
        · rw [after, after, List.foldl_append]
          rfl

theorem exists_calls (loads : List Load) :
    ∃ calls, Computed name diff calls ∧ afterLoads hash name diff git loads = after hash calls := by
  induction loads using List.reverseRecOn with
  | nil => exact ⟨[], nofun, rfl⟩
  | append_singleton loads l ih =>
    obtain ⟨calls, hcalls, hafter⟩ := ih
    obtain ⟨calls', hcalls', hload⟩ := exists_calls_load hcalls l
    refine ⟨calls', hcalls', ?_⟩
    rw [afterLoads, List.foldl_append, ← hload, ← hafter]
    rfl

/-- After such calls the hunks are those of the diff, whatever is in the cache. -/
theorem map_fst_hunks (hhash : Function.Injective hash) (hname : Function.Injective name)
    (hcalls : Computed name diff calls) (blobs : Option Text × Option Text) :
    ((after hash calls).hunks hash name diff blobs).map Prod.fst =
      compute diff (textOf blobs.1) (textOf blobs.2) := by
  unfold hunks
  dsimp only
  split
  next cached hcached =>
    obtain ⟨⟨old, new⟩, hold, hnew, hcomputed⟩ :=
      hcalls _ _ _ (insert_mem_of_get hhash hcached)
    obtain rfl := hname hold
    obtain rfl := hname hnew
    exact hcomputed.symm
  next =>
    rw [Option.map_map]
    exact congrFun Option.map_id _

/-- A load is the one over the entries of the blobs themselves. -/
theorem map_fst_loadFile (hhash : Function.Injective hash) (hname : Function.Injective name)
    (loads : List Load) (l : Load) (entries : DiffCache diff) :
    ((afterLoads hash name diff git loads).loadFile hash name diff git l).map Prod.fst =
      (Git.loadFile git l.old l.new l.path entries).map Prod.fst := by
  obtain ⟨calls, hcalls, hafter⟩ : ∃ calls, Computed name diff calls ∧
      afterLoads hash name diff git loads = after hash calls := exists_calls loads
  rw [loadFile_eq_loadWith, loadFile, hafter]
  refine map_fst_loadWith fun blobs => ?_
  rw [map_fst_hunks hhash hname hcalls, entries.map_fst_hunks]

end Loads

/-- Map and queue stay in step within the capacity, a pair of blobs gets hunks that were inserted
for it only, and so a load does not depend on the loads before it. -/
theorem cache_transparent {hash : String → String} {name : Option Text → BlobId} (diff : LineDiff)
    (git : GitDiff) (hhash : Function.Injective hash) (hname : Function.Injective name) :
    (∀ calls, (after hash calls).order.Nodup ∧
      (after hash calls).order.Perm ((after hash calls).entries.entries.map Prod.fst) ∧
      (after hash calls).entries.entries.length ≤ (after hash calls).capacity ∧
      ∀ a b found, (after hash calls).get (key hash a b) = some found → .insert a b found ∈ calls) ∧
    ∀ loads l, ((afterLoads hash name diff git loads).loadFile hash name diff git l).map Prod.fst =
      (HunkCache.default.loadFile hash name diff git l).map Prod.fst := by
  refine ⟨fun calls => ?_, fun loads l => ?_⟩
  · obtain ⟨queue, hqueue⟩ : ∃ queue, Reached hash (after hash calls) calls queue :=
      reached_after calls
    refine ⟨?_, hqueue.perm, ?_, fun a b found => insert_mem_of_get hhash⟩
    · rw [hqueue.order]
      exact hqueue.nodup
    · rw [hqueue.size, hqueue.capacity]
      exact hqueue.bounded
  · have hempty : (HunkCache.default.loadFile hash name diff git l).map Prod.fst =
        (Git.loadFile git l.old l.new l.path (.empty : DiffCache diff)).map Prod.fst :=
      map_fst_loadFile hhash hname [] l .empty
    exact (map_fst_loadFile hhash hname loads l .empty).trans hempty.symm

/-- A character for each byte, none of which is a colon. -/
def byteChar (b : UInt8) : Char := Char.ofNat (b.toNat + 256)

theorem toNat_byteChar (b : UInt8) : (byteChar b).toNat = b.toNat + 256 := by
  have hlt := b.toNat_lt
  rw [byteChar, Char.ofNat, dif_pos (.inl (by omega))]
  rfl

theorem byteChar_injective : Function.Injective byteChar := fun b b' hb => by
  have hvalue := congrArg Char.toNat hb
  rw [toNat_byteChar, toNat_byteChar] at hvalue
  exact UInt8.toNat_inj.mp (by omega)

def spelledChars : Option Text → List Char
  | none => ['0']
  | some bytes => 'b' :: bytes.map byteChar

/-- A name that spells out the bytes. -/
def spelled (blob : Option Text) : BlobId :=
  ⟨String.ofList (spelledChars blob), by
    rw [String.toList_ofList]
    cases blob with
    | none => decide
    | some bytes =>
      rw [spelledChars, List.mem_cons, List.mem_map]
      rintro (h | ⟨b, -, hb⟩)
      · cases h
      · have hvalue := congrArg Char.toNat hb
        rw [toNat_byteChar] at hvalue
        change b.toNat + 256 = 58 at hvalue
        omega⟩

theorem spelled_injective : Function.Injective spelled := fun x y h => by
  have hchars : spelledChars x = spelledChars y :=
    String.ofList_injective (congrArg Subtype.val h)
  cases x with
  | none =>
    cases y with
    | none => rfl
    | some bytes => cases hchars
  | some bytes =>
    cases y with
    | none => cases hchars
    | some bytes' =>
      exact congrArg some (List.map_injective_iff.mpr byteChar_injective (List.cons.inj hchars).2)

/-- The hunks of a new file with one line, under the names of its blobs. -/
def insertLine : List Call := [.insert (spelled none) (spelled (some [97])) [⟨1, 0, 1, 1, [.add 0]⟩]]

/-- An entry that was inserted is found, and under no other names. -/
theorem cache_transparent_spelled :
    (after id insertLine).get (key id (spelled none) (spelled (some [97]))) =
        some [⟨1, 0, 1, 1, [.add 0]⟩] ∧
      (after id insertLine).get (key id (spelled (some [97])) (spelled none)) = none ∧
      (after id insertLine).entries.entries.length ≤ (after id insertLine).capacity := by
  obtain ⟨-, -, hsize, hinserted⟩ :=
    (cache_transparent wholeDiff wholeGitDiff Function.injective_id spelled_injective).1 insertLine
  refine ⟨by decide +kernel, ?_, hsize⟩
  by_contra hfound
  obtain ⟨found, hget⟩ := Option.ne_none_iff_exists'.mp hfound
  have hcall := hinserted _ _ found hget
  rw [insertLine, List.mem_singleton, Call.insert.injEq] at hcall
  exact Option.some_ne_none _ (spelled_injective hcall.1)

end HunkCache

end Tethys.Git
