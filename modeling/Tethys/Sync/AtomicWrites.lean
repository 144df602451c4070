import Tethys.Lib.Paths
import Tethys.Lib.Publish

/-!
# Atomic writes of config files

`write_atomic` of `tethys-sync/src/atomic.rs` as its calls on the file system, with any number of
writes in progress, calls that fail, and crashes. A path may lead to a link, which is followed
once. File modes and links between the directories are left out.
-/

namespace Tethys.Sync

open Lib

variable {IoError : Type}

/-- Resolves a symlink to its target so writes go through the link. -/
def resolveLink (path : Path) (link : Option Path) : Path :=
  match link with
  | some target => if target.absolute then target else (path.parent.getD ⟨false, []⟩).join target
  | none => path

abbrev AtomicWrite (IoError : Type) :=
  Program (FileOp Path) (FileOp.Res IoError) (Except IoError Unit)

/-- Writes `contents` through a same-directory temp file, fsync, and rename. -/
def writeAtomic (path : Path) (contents : List UInt8) : AtomicWrite IoError :=
  .call (.readLink path) fun link =>
    let target := resolveLink path link
    let parent := target.parent.getD ⟨false, []⟩
    tryCall (.createDirAll parent) .error <|
    tryCall (.createTemp parent) .error <|
    let temp := FileData.new
    tryCall .write .error <|
    let temp := temp.writeAll contents
    tryCall .sync .error <|
    let temp := temp.syncAll
    -- the mode of a file that is there is kept
    .call (.attempt (.metadata target)) fun
      | .ok () => tryCall .setPermissions .error (persist temp target parent .error (.ok ()))
      | .error _ => persist temp target parent .error (.ok ())

/-- A call of `write_atomic`. -/
structure Write where
  path : Path
  contents : List UInt8

def Write.program (w : Write) : AtomicWrite IoError :=
  writeAtomic w.path w.contents

/-- The names that a write can replace: its path, or what the path linked to at the start. -/
def Write.Reaches (w : Write) (m₀ : Mount Path) (name : Path) : Prop :=
  name = w.path ∨ ∃ link, .link link ∈ m₀.versions w.path ∧ name = resolveLink w.path (some link)

/-- The bytes that a name held at the start, or those of a write that reaches it. -/
def Given (m₀ : Mount Path) (writes : List Write) (name : Path) (bytes : List UInt8) : Prop :=
  (∃ data, .file data ∈ m₀.versions name ∧ data.bytes = bytes) ∨
    ∃ w ∈ writes, w.contents = bytes ∧ w.Reaches m₀ name

/-- The links at the start. -/
def Linked (m₀ : Mount Path) (name target : Path) : Prop := .link target ∈ m₀.versions name

/-- A write renames its contents, in full and synced, to a name it reaches, and nothing else. -/
theorem safe_writeAtomic {m₀ : Mount Path} {writes : List Write} {w : Write} (hw : w ∈ writes)
    (s : Host Path IoError) :
    w.program.Safe Host.perform (Host.Whole (Given m₀ writes) (Linked m₀)) Host.Keeps
      (fun _ _ => True) s := by
  have hfail : ∀ (t : Host Path IoError) (e : IoError), True := fun _ _ => trivial
  refine safe_call trivial fun t ht => ?_
  obtain ⟨link, hanswer, hlink⟩ := Host.readLink_answer t w.path
  rw [hanswer]
  have hreaches : w.Reaches m₀ (resolveLink w.path link) := by
    cases link with
    | none => exact .inl rfl
    | some target => exact .inr ⟨target, Mount.Whole.linkAt ht (hlink target rfl), rfl⟩
  generalize resolveLink w.path link = target at hreaches
  have hgiven : Given m₀ writes target w.contents := .inr ⟨w, hw, rfl, hreaches⟩
  refine safe_tryCall hfail fun _ => safe_tryCall hfail fun _ => safe_tryCall hfail fun _ =>
    safe_tryCall hfail fun _ => ?_
  have hpersist : ∀ u : Host Path IoError,
      (persist (FileData.new.writeAll w.contents).syncAll target (target.parent.getD ⟨false, []⟩)
        Except.error (Except.ok ())).Safe Host.perform (Host.Whole (Given m₀ writes) (Linked m₀))
          Host.Keeps (fun _ _ => True) u :=
    fun u => safe_persist rfl hgiven (fun _ _ _ _ _ => trivial) hfail fun _ _ => trivial
  refine safe_call trivial fun t _ => ?_
  cases (Host.perform (.attempt (.metadata target)) t).1 with
  | ok _ => exact safe_tryCall hfail fun _ => hpersist _
  | error e => exact hpersist _

/-- A write that no call fails and nothing interleaves is one rename of the whole contents. -/
theorem exec_writeAtomic (path : Path) (contents : List UInt8) {s : Host Path IoError}
    (h : ∀ n, s.faults n = none) :
    ((writeAtomic path contents).exec Host.perform s).1 = .ok () ∧
      ((writeAtomic path contents).exec Host.perform s).2.mount =
        s.mount.rename (resolveLink path (s.mount.linkAt path)) ⟨contents, true⟩ := by
  simp [writeAtomic, Program.exec, tryCall, persist, Host.perform, Host.tick, h, FileData.writeAll,
    FileData.new, FileData.syncAll]

/-- No config file is ever torn: after any crashes, whichever calls fail and however the writes
interleave, a file that is found holds in full what it held at the start or the contents of a
write to it. -/
theorem config_files_never_torn {m₀ m : Mount Path} (writes : List Write)
    (hsynced : ∀ name data, .file data ∈ m₀.versions name → data.synced = true)
    (h : Survives (fun w : { w // w ∈ writes } => (w.1.program : AtomicWrite IoError)) m₀ m)
    (faults : Nat → Option IoError) (moves : List (Move Empty { w // w ∈ writes })) :
    Always (callStep fun w => w.1.program)
      (fun s => ∀ name data, s.shared.mount.fileAt name = some data →
        Given m₀ writes name data.bytes)
      (boot m faults) moves := by
  have hwhole : m₀.Whole (Given m₀ writes) (Linked m₀) :=
    ⟨fun name data hdata => ⟨hsynced name data hdata, .inl ⟨data, hdata, rfl⟩⟩, fun _ _ h => h⟩
  have hrun := always_whole (fun _ _ _ _ _ => trivial) (fun w => safe_writeAtomic w.2) hwhole h
    faults moves
  exact hrun.imp fun s hs name data hdata => hs.1.fileAt hdata

/-- A link and the file it leads to. -/
def linkedConfig : Mount Path where
  live name :=
    if name = .parse "/home/.claude.json" then some (.link (.parse "dotfiles/claude.json"))
    else if name = .parse "/home/dotfiles/claude.json" then some (.file ⟨[1], true⟩)
    else none
  past _ := []

def twoWrites : List Write :=
  [⟨.parse "/home/.claude.json", [2, 2]⟩, ⟨.parse "/home/.claude.json", [3, 3, 3]⟩]

def configWrite (w : { w // w ∈ twoWrites }) : AtomicWrite Unit := w.1.program

def firstWrite : { w // w ∈ twoWrites } := ⟨twoWrites[0], by simp [twoWrites]⟩

def secondWrite : { w // w ∈ twoWrites } := ⟨twoWrites[1], by simp [twoWrites]⟩

/-- Both writes are in progress, and one has renamed its file. -/
def interleaved : List (Move Empty { w // w ∈ twoWrites }) :=
  [.spawn firstWrite, .spawn secondWrite, .step 1, .step 0, .step 0, .step 0] ++
    List.replicate 7 (.step 1)

theorem interleaved_runs :
    (run (callStep configWrite) (boot linkedConfig fun _ => none) interleaved).isSome = true := by
  decide +kernel

theorem linkedConfig_never_torn :
    Always (callStep configWrite)
      (fun s => ∀ name data, s.shared.mount.fileAt name = some data →
        Given linkedConfig twoWrites name data.bytes)
      (boot (((run (callStep configWrite) (boot linkedConfig fun _ => none) interleaved).get
        interleaved_runs).shared.mount.crash ⟨fun _ => some 1, fun _ => [9]⟩) fun _ => none)
      (.spawn firstWrite :: List.replicate 8 (.step 0)) := by
  refine config_files_never_torn twoWrites (fun name data hdata => ?_)
    (.crash _ .start (Option.eq_some_of_isSome interleaved_runs)) _ _
  simp only [Mount.versions, linkedConfig, List.append_nil] at hdata
  split_ifs at hdata <;> simp at hdata
  rw [hdata]

end Tethys.Sync
