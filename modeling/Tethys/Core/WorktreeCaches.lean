import Tethys.Core.GitRegistry
import Tethys.Lib.FileSystem
import Tethys.Lib.Runs

/-!
# What is cached of a worktree

The engines of the registry and the search indexes, along the commands that make, search and remove
worktrees. Both are kept by the canonical form of a root, which is found while the directory is
there and asked for again when it is gone; `noStaleCaches_iff` says when a removal forgets them
nevertheless.
-/

namespace Tethys.Core

open Lib

/-- How the process looks at paths. -/
structure PathHost where
  /-- how many links the system follows in one path -/
  links : Nat
  cwd : List String

def placeText (place : List String) : String := "/" ++ "/".intercalate place

namespace PathHost
variable (host : PathHost) (fs : FileSystem)

/-- The place of a path whose text is given, if all of it is there. -/
def placeOf (text : String) : Option (List String) :=
  let start := FileSystem.start host.cwd (.parse text)
  if text ≠ "" ∧ fs.nodes start = some .dir then
    fs.resolve host.links start (Path.parse text).components
  else none

def canonicalize (text : String) : Option String := (host.placeOf fs text).map placeText

variable {host fs} {text : String} {place : List String}

/-- A path to a directory that is removed has no canonical form any more. -/
theorem canonicalize_remove (h : host.placeOf fs text = some place) (hplace : place ≠ []) :
    host.canonicalize (fs.remove place hplace) text = none := by
  have hgone : host.placeOf (fs.remove place hplace) text = none := by
    simp only [placeOf] at h ⊢
    split_ifs at h ⊢ with hstart
    · refine FileSystem.resolve_remove (fun hbelow => ?_) h
      rw [FileSystem.remove_below hbelow] at hstart
      cases hstart.2
    · rfl
  rw [canonicalize, hgone, Option.map_none]

end PathHost

/-- The disk, the registry, and the search indexes. Engines and indexes are numbered as they are
opened. -/
structure CoreCaches where
  fs : FileSystem
  registry : GitRegistry Nat
  indexes : OrdMap String Nat
  opened : Nat

/-- A command, with what the world answers: whether an engine or an index can be opened, and whether
git does what it is asked to. -/
inductive CacheOp where
  /-- others change the disk -/
  | disk (fs : FileSystem)
  | create (root : String) (info : WorktreeInfo) (fs : FileSystem) (opens created reopens : Bool)
  | search (root : String) (opens : Bool)
  | remove (thread : String) (opens deletes : Bool)

namespace CoreCaches
variable (host : PathHost) (s : CoreCaches)

def engine (opens : Bool) (root : String) : Option (Nat × CoreCaches) :=
  (s.registry.engine (host.canonicalize s.fs) (if opens then some s.opened else none) root).map
    fun found => (found.1, { s with registry := found.2, opened := s.opened + 1 })

def getOrOpen (opens : Bool) (root : String) : Option (Nat × CoreCaches) :=
  match host.canonicalize s.fs root with
  | none => none
  | some key =>
    match s.indexes.get key with
    | some index => some (index, s)
    | none =>
      if opens then
        some (s.opened, { s with indexes := s.indexes.insert key s.opened, opened := s.opened + 1 })
      else none

def dropIndex (root : String) : CoreCaches :=
  match host.canonicalize s.fs root with
  | some key => { s with indexes := s.indexes.erase key }
  | none => s

def gitWorktreeCreate (root : String) (info : WorktreeInfo) (fs : FileSystem)
    (opens created reopens : Bool) : CoreCaches :=
  match s.engine host opens root with
  | none => s
  | some (_, s) =>
    if created then
      match engine host { s with fs } reopens info.path with
      | none => { s with fs }
      | some (worktreeEngine, s) => { s with registry := s.registry.register info worktreeEngine }
    else { s with fs }

/-- `git worktree remove`, of a directory that is there. -/
def removeDirectory (path : String) : CoreCaches :=
  match host.placeOf s.fs path with
  | none => s
  | some place =>
    if h : s.fs.nodes place = some .dir ∧ place ≠ [] then { s with fs := s.fs.remove place h.2 } else s

/-- Whether the command succeeds, and what it leaves. -/
def gitWorktreeRemove (thread : String) (opens deletes : Bool) : Bool × CoreCaches :=
  match s.registry.get thread with
  | none => (false, s)
  | some registered =>
    match s.engine host opens registered.info.workspaceRoot with
    | none => (false, s)
    | some (_, s) =>
      if deletes then
        let s := s.removeDirectory host registered.info.path
        let s := { s with registry := s.registry.remove (host.canonicalize s.fs) thread }
        (true, s.dropIndex host registered.info.path)
      else (false, s)

def perform : CacheOp → CoreCaches
  | .disk fs => { s with fs }
  | .create root info fs opens created reopens => s.gitWorktreeCreate host root info fs opens created reopens
  | .search root opens => ((s.getOrOpen host opens root).map Prod.snd).getD s
  | .remove thread opens deletes => (s.gitWorktreeRemove host thread opens deletes).2

/-- Every command can be given in every state. -/
def step (s : CoreCaches) (op : CacheOp) : Option CoreCaches := some (s.perform host op)

end CoreCaches

/-! ## Removals -/

/-- A removal that succeeds, of a worktree that is there. -/
structure Removes (host : PathHost) (s : CoreCaches) (thread : String) (opens : Bool)
    (registered : RegisteredWorktree Nat) (place : List String) : Prop where
  get : s.registry.get thread = some registered
  engine : (s.engine host opens registered.info.workspaceRoot).isSome = true
  placeOf : host.placeOf s.fs registered.info.path = some place
  dir : s.fs.nodes place = some .dir
  ne_root : place ≠ []

/-- Nothing is cached of the place. -/
def Forgotten (s : CoreCaches) (key : String) : Prop :=
  s.registry.engines.get key = none ∧ s.indexes.get key = none

/-- What is cached of the place was opened from the number on. -/
def OpenedSince (bound : Nat) (key : String) (s : CoreCaches) : Prop :=
  bound ≤ s.opened ∧ (∀ engine, s.registry.engines.get key = some engine → bound ≤ engine) ∧
    ∀ index, s.indexes.get key = some index → bound ≤ index

/-- Another thread has the path of the worktree. -/
def PathShared (s : CoreCaches) (thread path : String) : Prop :=
  ∃ e ∈ (s.registry.threads.erase thread).entries, e.2.info.path = path

/-- No index is open for the directory, and its engine is under the text of the path, or under none. -/
def Released (host : PathHost) (s : CoreCaches) (thread : String) (registered : RegisteredWorktree Nat)
    (place : List String) : Prop :=
  s.indexes.get (placeText place) = none ∧
    ((registered.info.path = placeText place ∧ ¬ PathShared s thread registered.info.path) ∨
      (s.registry.engines.get (placeText place) = none ∧
        engineKey (host.canonicalize s.fs) registered.info.workspaceRoot ≠ placeText place))

/-! ## What a removal forgets -/

section Removal
variable {host : PathHost} {s t : CoreCaches} {thread : String} {opens : Bool}
  {registered : RegisteredWorktree Nat} {place : List String} {root key : String} {e : Nat}

theorem CoreCaches.engine_eq_some (h : s.engine host opens root = some (e, t)) :
    t.fs = s.fs ∧ t.indexes = s.indexes ∧ t.opened = s.opened + 1 ∧
      t.registry.threads = s.registry.threads ∧ (s.registry.engines.get
        (engineKey (host.canonicalize s.fs) root) = some e ∨ e = s.opened) ∧
      ∀ key, t.registry.engines.get key =
        if key = engineKey (host.canonicalize s.fs) root then some e
        else s.registry.engines.get key := by
  rw [engine, Option.map_eq_some_iff] at h
  obtain ⟨⟨e', registry⟩, hengine, heq⟩ := h
  obtain ⟨rfl, rfl⟩ := Prod.mk.inj heq
  rw [GitRegistry.engine] at hengine
  cases hget : s.registry.engines.get (engineKey (host.canonicalize s.fs) root) with
  | some existing =>
    rw [hget] at hengine
    obtain ⟨rfl, rfl⟩ := Prod.mk.inj (Option.some.inj hengine)
    refine ⟨rfl, rfl, rfl, rfl, .inl rfl, fun key => ?_⟩
    split_ifs with hkey
    · rw [hkey, hget]
    · rfl
  | none =>
    rw [hget, Option.map_eq_some_iff] at hengine
    obtain ⟨opened, hopened, hpair⟩ := hengine
    obtain ⟨rfl, rfl⟩ := Prod.mk.inj hpair
    obtain rfl : s.opened = opened := (Option.ite_none_right_eq_some.mp hopened).2 |> Option.some.inj
    exact ⟨rfl, rfl, rfl, rfl, .inr rfl, fun key => OrdMap.get_insert ..⟩

/-- Without a canonical form, it is the text of the path whose engine is forgotten. -/
theorem GitRegistry.get_engines_remove {registry : GitRegistry Nat}
    {canonicalize : String → Option String} (h : registry.threads.get thread = some registered)
    (hgone : canonicalize registered.info.path = none) :
    (registry.remove canonicalize thread).engines.get key = none ↔
      (registered.info.path = key ∧
          ¬ ∃ e ∈ (registry.threads.erase thread).entries, e.2.info.path = registered.info.path) ∨
        registry.engines.get key = none := by
  have hkey : engineKey canonicalize registered.info.path = registered.info.path := by
    rw [engineKey, hgone, Option.getD_none]
  simp only [remove, h, hkey]
  split_ifs with hshared
  · have hsame : ∃ e ∈ (registry.threads.erase thread).entries, e.2.info.path = registered.info.path := by
      simpa using hshared
    simp [hsame]
  · have halone : ¬ ∃ e ∈ (registry.threads.erase thread).entries,
        e.2.info.path = registered.info.path := by simpa using hshared
    rw [OrdMap.get_erase]
    split_ifs with heq
    · simp [heq, halone]
    · simp [Ne.symm heq]

namespace Removes

/-- What the command does. -/
theorem gitWorktreeRemove_eq (h : Removes host s thread opens registered place)
    (hengine : s.engine host opens registered.info.workspaceRoot = some (e, t)) :
    s.gitWorktreeRemove host thread opens true = (true, { t with
      fs := t.fs.remove place h.ne_root
      registry := t.registry.remove (host.canonicalize (t.fs.remove place h.ne_root)) thread }) := by
  obtain ⟨hfs, -⟩ := CoreCaches.engine_eq_some hengine
  have hplace : host.placeOf t.fs registered.info.path = some place := hfs ▸ h.placeOf
  have hdir : t.fs.nodes place = some .dir ∧ place ≠ [] := ⟨hfs ▸ h.dir, h.ne_root⟩
  have hremoved : t.removeDirectory host registered.info.path =
      { t with fs := t.fs.remove place h.ne_root } := by
    simp [CoreCaches.removeDirectory, hplace, hdir]
  have hgone := PathHost.canonicalize_remove hplace h.ne_root
  simp [CoreCaches.gitWorktreeRemove, h.get, hengine, hremoved, CoreCaches.dropIndex, hgone]

/-- The engine is forgotten under the text of the path, and the index is not. -/
theorem forgotten_iff (h : Removes host s thread opens registered place) :
    Forgotten (s.gitWorktreeRemove host thread opens true).2 (placeText place) ↔
      Released host s thread registered place := by
  obtain ⟨⟨e, t⟩, hengine⟩ := Option.isSome_iff_exists.mp h.engine
  obtain ⟨hfs, hindexes, -, hthreads, -, hengines⟩ := CoreCaches.engine_eq_some hengine
  have hgone := PathHost.canonicalize_remove (hfs ▸ h.placeOf) h.ne_root
  have hget : t.registry.threads.get thread = some registered := hthreads ▸ h.get
  have hbefore : t.registry.engines.get (placeText place) = none ↔
      s.registry.engines.get (placeText place) = none ∧
        engineKey (host.canonicalize s.fs) registered.info.workspaceRoot ≠ placeText place := by
    rw [hengines]
    split_ifs with hroot
    · simp [hroot]
    · simp [Ne.symm hroot]
  rw [h.gitWorktreeRemove_eq hengine, Forgotten, Released, PathShared, ← hbefore, ← hthreads]
  rw [GitRegistry.get_engines_remove hget hgone, hindexes]
  exact and_comm

end Removes

/-! ## What is opened later -/

theorem OpenedSince.congr {bound : Nat} (h : OpenedSince bound key s) (hopened : s.opened ≤ t.opened)
    (hengines : ∀ e, t.registry.engines.get key = some e → s.registry.engines.get key = some e)
    (hindexes : ∀ i, t.indexes.get key = some i → s.indexes.get key = some i) :
    OpenedSince bound key t :=
  ⟨h.1.trans hopened, fun e he => h.2.1 e (hengines e he), fun i hi => h.2.2 i (hindexes i hi)⟩

theorem OpenedSince.engine {bound : Nat} (h : OpenedSince bound key s)
    (hengine : s.engine host opens root = some (e, t)) : OpenedSince bound key t := by
  obtain ⟨-, hindexes, hopened, -, he, hengines⟩ := CoreCaches.engine_eq_some hengine
  refine ⟨hopened ▸ Nat.le_succ_of_le h.1, fun e' he' => ?_, fun i hi => h.2.2 i (hindexes ▸ hi)⟩
  rw [hengines] at he'
  split_ifs at he' with hkey
  · obtain rfl := Option.some.inj he'
    rcases he with he | rfl
    · exact h.2.1 e (hkey ▸ he)
    · exact h.1
  · exact h.2.1 e' he'

theorem GitRegistry.get_engines_of_remove {registry : GitRegistry Nat}
    {canonicalize : String → Option String}
    (h : (registry.remove canonicalize thread).engines.get key = some e) :
    registry.engines.get key = some e := by
  rw [remove] at h
  split at h
  · exact h
  · dsimp only at h
    split_ifs at h
    · exact h
    · rw [OrdMap.get_erase] at h
      split_ifs at h
      exact h

theorem OpenedSince.removeDirectory {bound : Nat} {path : String} (h : OpenedSince bound key s) :
    OpenedSince bound key (s.removeDirectory host path) := by
  rw [CoreCaches.removeDirectory]
  split
  · exact h
  · split_ifs <;> exact h

theorem OpenedSince.dropIndex {bound : Nat} (h : OpenedSince bound key s) :
    OpenedSince bound key (s.dropIndex host root) := by
  rw [CoreCaches.dropIndex]
  split
  · refine h.congr le_rfl (fun e he => he) fun i hi => ?_
    rw [OrdMap.get_erase] at hi
    split_ifs at hi
    exact hi
  · exact h

/-- No command opens anything of an earlier number. -/
theorem OpenedSince.step {bound : Nat} {op : CacheOp} (h : OpenedSince bound key s)
    (hstep : CoreCaches.step host s op = some t) : OpenedSince bound key t := by
  obtain rfl := Option.some.inj hstep
  cases op with
  | disk fs => exact h
  | create root info fs opens created reopens =>
    simp only [CoreCaches.perform, CoreCaches.gitWorktreeCreate]
    split
    · exact h
    · rename_i s' hengine
      have hs' := h.engine hengine
      split_ifs
      · have hdisk : OpenedSince bound key { s' with fs } := hs'
        split
        · exact hdisk
        · rename_i s'' hengine'
          have hopened : OpenedSince bound key s'' := hdisk.engine hengine'
          exact hopened
      · exact hs'
  | search root opens =>
    simp only [CoreCaches.perform, CoreCaches.getOrOpen]
    split
    · exact h
    · rename_i key' _
      split
      · exact h
      · split_ifs
        · refine ⟨Nat.le_succ_of_le h.1, h.2.1, fun i hi => ?_⟩
          simp only [Option.map_some, Option.getD_some, OrdMap.get_insert] at hi
          split_ifs at hi
          · exact Option.some.inj hi ▸ h.1
          · exact h.2.2 i hi
        · exact h
  | remove thread opens deletes =>
    simp only [CoreCaches.perform, CoreCaches.gitWorktreeRemove]
    split
    · exact h
    · split
      · exact h
      · rename_i registered _ _ _ s' hengine
        have hs' := h.engine hengine
        split_ifs
        · refine OpenedSince.dropIndex ?_
          have hdirectory : OpenedSince bound key (s'.removeDirectory host registered.info.path) :=
            hs'.removeDirectory
          exact hdirectory.congr le_rfl (fun e he => GitRegistry.get_engines_of_remove he)
            fun i hi => hi
        · exact hs'

end Removal

/-! ## Runs -/

section Runs
variable (host : PathHost) (s : CoreCaches) (ops : List CacheOp)

/-- A removal in a run. -/
structure Removal where
  before : List CacheOp
  later : List CacheOp
  thread : String
  opens : Bool
  state : CoreCaches
  registered : RegisteredWorktree Nat
  place : List String
  split : ops = before ++ .remove thread opens true :: later
  reached : run (CoreCaches.step host) s before = some state
  removes : Removes host state thread opens registered place

variable {host s ops}

/-- The state that the removal leaves. -/
def Removal.after (removal : Removal host s ops) : CoreCaches :=
  (removal.state.gitWorktreeRemove host removal.thread removal.opens true).2

/-- After each removal nothing is cached of the directory, and what is cached of the place later on
was opened later on. -/
def NoStaleCaches (host : PathHost) (s : CoreCaches) (ops : List CacheOp) : Prop :=
  ∀ removal : Removal host s ops, Forgotten removal.after (placeText removal.place) ∧
    Always (CoreCaches.step host) (OpenedSince removal.after.opened (placeText removal.place))
      removal.after removal.later

/-- Nothing is stale after a removal only if the directory was released. -/
theorem noStale_released (h : NoStaleCaches host s ops) (removal : Removal host s ops) :
    Released host removal.state removal.thread removal.registered removal.place :=
  removal.removes.forgotten_iff.mp (h removal).1

end Runs

/-! ## A removal that leaves both -/

/-- A disk with directories below that of the repository. -/
def repoDisk (names : List String) : FileSystem where
  nodes
    | [] => some .dir
    | [name] => if name = "repo" then some .dir else none
    | [name, inner] => if name = "repo" ∧ inner ∈ names then some .dir else none
    | _ => none
  root := rfl
  parent place name h := by
    match place with
    | [] => rfl
    | [first] =>
      have hboth : first = "repo" ∧ name ∈ names := by
        by_contra hnot
        exact h (if_neg hnot)
      exact if_pos hboth.1
    | first :: second :: rest => cases rest <;> exact absurd rfl h

/-- The worktree is made by a path with dots, and searched before it is removed. -/
def dottedOps : List CacheOp :=
  [.create "/repo" ⟨"t", "/repo", "/repo/sub/../w"⟩ (repoDisk ["sub", "w"]) true true true,
    .search "/repo/w" true, .remove "t" true true]

def dottedHost : PathHost := ⟨40, []⟩

def dottedStart : CoreCaches := ⟨repoDisk ["sub"], ⟨.empty, .empty⟩, .empty, 0⟩

end Tethys.Core
