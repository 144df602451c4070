import Mathlib.Logic.Function.Basic
import Tethys.Lib.Programs

/-!
# Files published by renaming

A file is written under a name of its own, synced, and renamed to the name it is read under. A
`Mount` holds what the names lead to. After a crash a name leads to nothing or to any of the files
it has led to before, and a file that was not synced may hold any bytes. Programs that rename
synced files only leave nothing but whole files, whatever runs beside them, fails or crashes:
`always_whole` says so of every property of names and bytes that the renamed files have.
-/

namespace Tethys.Lib

/-- The bytes of a file, and whether they are on the disk. -/
structure FileData where
  bytes : List UInt8
  synced : Bool
  deriving DecidableEq

namespace FileData

def new : FileData := ⟨[], false⟩

def writeAll (data : FileData) (bytes : List UInt8) : FileData := ⟨data.bytes ++ bytes, false⟩

def syncAll (data : FileData) : FileData := { data with synced := true }

@[simp] theorem bytes_syncAll (data : FileData) : data.syncAll.bytes = data.bytes := rfl

@[simp] theorem synced_syncAll (data : FileData) : data.syncAll.synced = true := rfl

@[simp] theorem bytes_writeAll_new (bytes : List UInt8) : (new.writeAll bytes).bytes = bytes := rfl

end FileData

/-- What a name leads to. -/
inductive Inode (κ : Type) where
  | file (data : FileData)
  | link (target : κ)

/-- What every name leads to, and what it has led to since the last crash. -/
structure Mount (κ : Type) where
  live : κ → Option (Inode κ)
  past : κ → List (Inode κ)

/-- What a crash leaves: which of its files a name leads to, if any, and the bytes of a file that
was not synced. -/
structure Crash (κ : Type) where
  keep : κ → Option Nat
  torn : κ → List UInt8

namespace Mount

variable {κ : Type} (m : Mount κ)

def empty : Mount κ := ⟨fun _ => none, fun _ => []⟩

/-- The file at a name; links are not followed. -/
def fileAt (name : κ) : Option FileData :=
  match m.live name with
  | some (.file data) => some data
  | _ => none

def linkAt (name : κ) : Option κ :=
  match m.live name with
  | some (.link target) => some target
  | _ => none

/-- Everything that a name can lead to after a crash. -/
def versions (name : κ) : List (Inode κ) := (m.live name).toList ++ m.past name

def rename [DecidableEq κ] (name : κ) (data : FileData) : Mount κ where
  live := Function.update m.live name (some (.file data))
  past := Function.update m.past name (m.versions name)

/-- What is found after a crash: all of it is on the disk. -/
def recovered (torn : List UInt8) : Inode κ → Inode κ
  | .file data => .file ⟨if data.synced then data.bytes else torn, true⟩
  | .link target => .link target

def crash (c : Crash κ) : Mount κ where
  live name := ((c.keep name).bind fun n => (m.versions name)[n]?).map (recovered (c.torn name))
  past _ := []

/-- Every file that can be found is synced and has the property `Q`, every link the property `L`. -/
structure Whole (Q : κ → List UInt8 → Prop) (L : κ → κ → Prop) : Prop where
  files : ∀ name data, .file data ∈ m.versions name → data.synced = true ∧ Q name data.bytes
  links : ∀ name target, .link target ∈ m.versions name → L name target

variable {m} {Q : κ → List UInt8 → Prop} {L : κ → κ → Prop}

theorem whole_empty : (empty : Mount κ).Whole Q L :=
  ⟨fun _ _ h => by simp [versions, empty] at h, fun _ _ h => by simp [versions, empty] at h⟩

theorem Whole.linkAt (h : m.Whole Q L) {name target : κ} (hlink : m.linkAt name = some target) :
    L name target := by
  refine h.links name target ?_
  cases hlive : m.live name with
  | none => simp [Mount.linkAt, hlive] at hlink
  | some inode =>
    cases inode with
    | file data => simp [Mount.linkAt, hlive] at hlink
    | link target' =>
      obtain rfl : target' = target := by simpa [Mount.linkAt, hlive] using hlink
      simp [versions, hlive]

theorem Whole.fileAt (h : m.Whole Q L) {name : κ} {data : FileData}
    (hfile : m.fileAt name = some data) : Q name data.bytes := by
  refine (h.files name data ?_).2
  cases hlive : m.live name with
  | none => simp [Mount.fileAt, hlive] at hfile
  | some inode =>
    cases inode with
    | file data' =>
      obtain rfl : data' = data := by simpa [Mount.fileAt, hlive] using hfile
      simp [versions, hlive]
    | link target => simp [Mount.fileAt, hlive] at hfile

section Rename
variable [DecidableEq κ] {name : κ} {data : FileData}

theorem fileAt_rename (other : κ) :
    (m.rename name data).fileAt other = if other = name then some data else m.fileAt other := by
  by_cases h : other = name <;> simp [Mount.fileAt, rename, h]

/-- A name keeps what it can lead to, and gets the new file. -/
theorem mem_versions_rename {other : κ} {inode : Inode κ}
    (h : inode ∈ (m.rename name data).versions other) :
    inode ∈ m.versions other ∨ other = name ∧ inode = .file data := by
  by_cases hname : other = name
  · subst hname
    simp only [versions, rename, Function.update_self, Option.toList_some, List.singleton_append,
      List.mem_cons] at h
    rcases h with rfl | h
    · exact .inr ⟨rfl, rfl⟩
    · exact .inl h
  · simp only [versions, rename, Function.update_of_ne hname] at h
    exact .inl h

theorem Whole.rename (h : m.Whole Q L) (hsynced : data.synced = true) (hQ : Q name data.bytes) :
    (m.rename name data).Whole Q L := by
  constructor
  · intro other data' hmem
    rcases mem_versions_rename hmem with hmem | ⟨rfl, heq⟩
    · exact h.files other data' hmem
    · obtain rfl := Inode.file.inj heq
      exact ⟨hsynced, hQ⟩
  · intro other target hmem
    rcases mem_versions_rename hmem with hmem | ⟨-, heq⟩
    · exact h.links other target hmem
    · cases heq

end Rename

theorem mem_versions_crash {c : Crash κ} {name : κ} {inode : Inode κ}
    (h : inode ∈ (m.crash c).versions name) :
    ∃ before ∈ m.versions name, recovered (c.torn name) before = inode := by
  simp only [versions, Mount.crash, List.append_nil, Option.mem_toList, Option.map_eq_some_iff,
    Option.bind_eq_some_iff] at h
  obtain ⟨before, ⟨n, -, hn⟩, hrec⟩ := h
  exact ⟨before, List.mem_of_getElem? hn, hrec⟩

/-- A crash finds whole files only. -/
theorem Whole.crash (h : m.Whole Q L) (c : Crash κ) : (m.crash c).Whole Q L := by
  constructor
  · intro name data hmem
    obtain ⟨before, hbefore, hrec⟩ := mem_versions_crash hmem
    cases before with
    | link target => cases hrec
    | file data' =>
      obtain ⟨hsynced, hQ⟩ := h.files name data' hbefore
      obtain rfl := Inode.file.inj hrec
      simpa [hsynced] using hQ
  · intro name target hmem
    obtain ⟨before, hbefore, hrec⟩ := mem_versions_crash hmem
    cases before with
    | file data => cases hrec
    | link target' =>
      obtain rfl := Inode.link.inj hrec
      exact h.links name target' hbefore

end Mount

/-! ## Operations -/

/-- Calls that change no name; they succeed or fail. -/
inductive SystemCall (κ : Type) where
  | createDirAll (dir : κ)
  | createTemp (dir : κ)
  | write
  | sync
  | metadata (name : κ)
  | setPermissions
  | syncDir (dir : κ)

inductive FileOp (κ : Type) where
  | readLink (name : κ)
  | isFile (name : κ)
  | attempt (call : SystemCall κ)
  | rename (name : κ) (data : FileData)

/-- The answer to an operation. -/
def FileOp.Res {κ : Type} (ε : Type) : FileOp κ → Type
  | .readLink _ => Option κ
  | .isFile _ => Bool
  | .attempt _ => Except ε Unit
  | .rename _ _ => Except ε Unit

/-- A mount in use: which of the operations to come will fail. -/
structure Host (κ ε : Type) where
  mount : Mount κ
  faults : Nat → Option ε
  clock : Nat

namespace Host

variable {κ ε : Type} [DecidableEq κ]

def tick (s : Host κ ε) : Host κ ε := { s with clock := s.clock + 1 }

/-- A question that fails is answered as if nothing were there. -/
def perform : (op : FileOp κ) → Host κ ε → op.Res ε × Host κ ε
  | .readLink name, s => ((if (s.faults s.clock).isSome then none else s.mount.linkAt name), s.tick)
  | .isFile name, s => ((s.faults s.clock).isNone && (s.mount.fileAt name).isSome, s.tick)
  | .attempt _, s =>
    match s.faults s.clock with
    | some e => (.error e, s.tick)
    | none => (.ok (), s.tick)
  | .rename name data, s =>
    match s.faults s.clock with
    | some e => (.error e, s.tick)
    | none => (.ok (), { s.tick with mount := s.mount.rename name data })

/-- A link that is read is there. -/
theorem readLink_answer (s : Host κ ε) (name : κ) :
    ∃ link : Option κ, (perform (.readLink name) s).1 = link ∧
      ∀ target, link = some target → s.mount.linkAt name = some target := by
  refine ⟨if (s.faults s.clock).isSome then none else s.mount.linkAt name, rfl, fun target h => ?_⟩
  split_ifs at h
  exact h

/-- Where there is a file, there stays one. -/
def Keeps (s t : Host κ ε) : Prop :=
  ∀ name, (s.mount.fileAt name).isSome → (t.mount.fileAt name).isSome

def Whole (Q : κ → List UInt8 → Prop) (L : κ → κ → Prop) (s : Host κ ε) : Prop := s.mount.Whole Q L

omit [DecidableEq κ] in
theorem Keeps.refl (s : Host κ ε) : s.Keeps s := fun _ h => h

omit [DecidableEq κ] in
theorem Keeps.trans (s t u : Host κ ε) (h : s.Keeps t) (h' : t.Keeps u) : s.Keeps u :=
  fun name hname => h' name (h name hname)

end Host

/-- A rename is that of a synced file with the property. -/
def FileOp.Publishes {κ : Type} (Q : κ → List UInt8 → Prop) : FileOp κ → Prop
  | .rename name data => data.synced = true ∧ Q name data.bytes
  | _ => True

section Programs
variable {κ ε α γ : Type} [DecidableEq κ] {Q : κ → List UInt8 → Prop} {L : κ → κ → Prop}
  {post : Host κ ε → α → Prop}

open Host in
theorem perform_publishes {op : FileOp κ} {s : Host κ ε} (hop : op.Publishes Q) (hs : s.Whole Q L) :
    (perform op s).2.Whole Q L ∧ s.Keeps (perform op s).2 := by
  cases op with
  | readLink name => exact ⟨hs, Keeps.refl s⟩
  | isFile name => exact ⟨hs, Keeps.refl s⟩
  | attempt call =>
    simp only [perform]
    split <;> exact ⟨hs, Keeps.refl s⟩
  | rename name data =>
    simp only [perform]
    split
    · exact ⟨hs, Keeps.refl s⟩
    · refine ⟨Mount.Whole.rename hs hop.1 hop.2, fun other hother => ?_⟩
      rw [Mount.fileAt_rename]
      split_ifs
      · rfl
      · exact hother

/-- A program is safe that begins with an operation that publishes, and goes on safely. -/
theorem safe_call {op : FileOp κ} {next : op.Res ε → Program (FileOp κ) (FileOp.Res ε) α}
    {s : Host κ ε} (hop : op.Publishes Q)
    (h : ∀ t : Host κ ε, t.Whole Q L → (next (Host.perform op t).1).Safe Host.perform (Host.Whole Q L)
      Host.Keeps post (Host.perform op t).2) :
    (Program.call op next).Safe Host.perform (Host.Whole Q L) Host.Keeps post s := by
  intro t _ ht
  obtain ⟨hwhole, hkeeps⟩ := perform_publishes hop ht
  exact ⟨hwhole, hkeeps, h t ht⟩

/-- Make a call, and go on unless it fails. -/
def tryCall (call : SystemCall κ) (fail : ε → α) (next : Program (FileOp κ) (FileOp.Res ε) α) :
    Program (FileOp κ) (FileOp.Res ε) α :=
  .call (.attempt call) fun
    | .ok () => next
    | .error e => .ret (fail e)

theorem safe_tryCall {call : SystemCall κ} {fail : ε → α}
    {next : Program (FileOp κ) (FileOp.Res ε) α} {s : Host κ ε} (hfail : ∀ t e, post t (fail e))
    (hnext : ∀ t, next.Safe Host.perform (Host.Whole Q L) Host.Keeps post t) :
    (tryCall call fail next).Safe Host.perform (Host.Whole Q L) Host.Keeps post s := by
  refine safe_call trivial fun t _ => ?_
  cases (Host.perform (.attempt call) t).1 with
  | ok _ => exact hnext _
  | error e => exact hfail _ e

/-- Rename a file to its target and sync the directory, which may fail without a consequence. -/
def persist (temp : FileData) (target dir : κ) (fail : ε → α) (done : α) :
    Program (FileOp κ) (FileOp.Res ε) α :=
  .call (.rename target temp) fun
    | .error e => .ret (fail e)
    | .ok () => .call (.attempt (.syncDir dir)) fun _ => .ret done

theorem safe_persist {temp : FileData} {target dir : κ} {fail : ε → α} {done : α} {s : Host κ ε}
    (hsynced : temp.synced = true) (hQ : Q target temp.bytes)
    (hpost : ∀ s t a, Host.Keeps s t → post s a → post t a) (hfail : ∀ t e, post t (fail e))
    (hdone : ∀ t : Host κ ε, (t.mount.fileAt target).isSome → post t done) :
    (persist temp target dir fail done).Safe Host.perform (Host.Whole Q L) Host.Keeps post s := by
  refine safe_call ⟨hsynced, hQ⟩ fun t _ => ?_
  cases hfault : t.faults t.clock with
  | some e =>
    simp only [Host.perform, hfault]
    exact hfail _ e
  | none =>
    simp only [Host.perform, hfault]
    intro u hkeeps hu
    have hop : FileOp.Publishes Q (.attempt (.syncDir dir)) := trivial
    obtain ⟨hwhole, hkeeps'⟩ := perform_publishes hop hu
    refine ⟨hwhole, hkeeps', hpost _ _ done (Host.Keeps.trans _ _ _ hkeeps hkeeps') (hdone _ ?_)⟩
    simp [Mount.fileAt_rename]

/-! ## Crashes -/

def noEdit (e : Empty) (_ : Host κ ε) : Host κ ε := e.elim

/-- Calls run side by side on a mount. -/
def callStep (program : γ → Program (FileOp κ) (FileOp.Res ε) α) :
    Machine (FileOp κ) (FileOp.Res ε) α (Host κ ε) → Move Empty γ →
      Option (Machine (FileOp κ) (FileOp.Res ε) α (Host κ ε)) :=
  Machine.step Host.perform noEdit program

def boot (m : Mount κ) (faults : Nat → Option ε) :
    Machine (FileOp κ) (FileOp.Res ε) α (Host κ ε) := ⟨⟨m, faults, 0⟩, []⟩

/-- What is there after some crashes. A crash ends all calls, wherever they are. -/
inductive Survives (program : γ → Program (FileOp κ) (FileOp.Res ε) α) (m₀ : Mount κ) :
    Mount κ → Prop
  | start : Survives program m₀ m₀
  | crash {m : Mount κ} {s : Machine (FileOp κ) (FileOp.Res ε) α (Host κ ε)}
      {faults : Nat → Option ε} {moves : List (Move Empty γ)} (c : Crash κ)
      (h : Survives program m₀ m) (hrun : run (callStep program) (boot m faults) moves = some s) :
      Survives program m₀ (s.shared.mount.crash c)

variable {program : γ → Program (FileOp κ) (FileOp.Res ε) α} {m₀ m : Mount κ}

/-- Calls that are safe on a whole mount leave it whole and stay safe, along every run. -/
theorem always_whole_of_boot (hpost : ∀ s t a, Host.Keeps s t → post s a → post t a)
    (hprogram : ∀ c s, (program c).Safe Host.perform (Host.Whole Q L) Host.Keeps post s)
    (hm : m.Whole Q L) (faults : Nat → Option ε) (moves : List (Move Empty γ)) :
    Always (callStep program) (fun s => s.shared.mount.Whole Q L ∧
      ∀ p ∈ s.threads, p.Safe Host.perform (Host.Whole Q L) Host.Keeps post s.shared)
      (boot m faults) moves := by
  have hboot : Host.Whole Q L ⟨m, faults, 0⟩ := hm
  exact Machine.safe_of_run Host.Keeps.refl Host.Keeps.trans hpost
    (fun e => e.elim) (fun c s _ => hprogram c s) hboot moves

theorem Survives.whole (hpost : ∀ s t a, Host.Keeps s t → post s a → post t a)
    (hprogram : ∀ c s, (program c).Safe Host.perform (Host.Whole Q L) Host.Keeps post s)
    (h₀ : m₀.Whole Q L) (h : Survives program m₀ m) : m.Whole Q L := by
  induction h with
  | start => exact h₀
  | crash c _ hrun ih =>
    exact ((always_whole_of_boot hpost hprogram ih _ _).last hrun).1.crash c

/-- The same after any number of crashes, each in the middle of the calls. -/
theorem always_whole (hpost : ∀ s t a, Host.Keeps s t → post s a → post t a)
    (hprogram : ∀ c s, (program c).Safe Host.perform (Host.Whole Q L) Host.Keeps post s)
    (h₀ : m₀.Whole Q L) (h : Survives program m₀ m) (faults : Nat → Option ε)
    (moves : List (Move Empty γ)) :
    Always (callStep program) (fun s => s.shared.mount.Whole Q L ∧
      ∀ p ∈ s.threads, p.Safe Host.perform (Host.Whole Q L) Host.Keeps post s.shared)
      (boot m faults) moves :=
  always_whole_of_boot hpost hprogram (h.whole hpost hprogram h₀) faults moves

end Programs

end Tethys.Lib
