import Tethys.Git.Patches
import Tethys.Git.Repo

/-!
# `git apply -R`

Git is not part of the sources. Of taking a patch back only what git documents is used here. A patch
that is refused changes nothing, and one that is taken changes the file it names. No context is
ignored and hunks do not overlap: of a patch that is taken the lines of every hunk stand in the file, no
two in one place. A patch whose hunks stand where their headers say, and nowhere else, is taken and puts
the old lines there; without context a hunk is read as one at the beginning or at the end of the file.

Which of several places git takes for a hunk is left open. `strictApply` takes no other patches back.
-/

namespace Tethys.Git

open Lib

/-- The bytes of a path. -/
def pathBytes (p : Path) : Text := p.val.toByteArray.data.toList

theorem pathBytes_injective : Function.Injective pathBytes := fun _ _ h =>
  Subtype.val_injective (String.toByteArray_inj.mp (ByteArray.ext (Array.toList_inj.mp h)))

def bytesAt (file : Option File) : Text := (file.map (·.bytes)).getD []

def fileLines (file : Option File) : List Text := lineTokens (bytesAt file)

/-! ## The sides of a hunk -/

namespace PatchHunk
variable (hunk : PatchHunk)

def oldLines : List Text := (hunk.lines.filter (·.kind ≠ .addition)).map (·.text)

def newLines : List Text := (hunk.lines.filter (·.kind ≠ .deletion)).map (·.text)

/-- Where the header puts the new lines. -/
def span : Span := ⟨hunk.newStart - 1, hunk.newStart - 1 + hunk.newLines.length⟩

end PatchHunk

section Sides
variable {old new : List Text} {hunk : ComputedHunk} {read : PatchHunk}

/-- What is read of a hunk has the lines of its plan. -/
theorem ReadsHunk.lines_eq (h : ReadsHunk old new hunk read) :
    read.oldLines = hunk.oldLines old ∧ read.newLines = hunk.newLines new := by
  obtain ⟨-, -, -, -, hlines⟩ := h
  unfold PatchHunk.oldLines PatchHunk.newLines ComputedHunk.oldLines ComputedHunk.newLines
  generalize hunk.plan = plan at hlines ⊢
  generalize read.lines = lines at hlines ⊢
  induction hlines with
  | nil => exact ⟨rfl, rfl⟩
  | @cons line patchLine plan lines hline _ ih =>
    cases line with
    | context i j =>
      obtain ⟨hkind, hold, hnew⟩ := hline
      have hsides : (PlanLine.context i j).old? = some i ∧ (PlanLine.context i j).new? = some j := ⟨rfl, rfl⟩
      simp [hkind, hold, hnew, hsides, ← ih.1, ← ih.2]
    | remove i =>
      obtain ⟨hkind, hold⟩ := hline
      have hsides : (PlanLine.remove i).old? = some i ∧ (PlanLine.remove i).new? = none := ⟨rfl, rfl⟩
      simp [hkind, hold, hsides, ← ih.1, ← ih.2]
    | add i =>
      obtain ⟨hkind, hnew⟩ := hline
      have hsides : (PlanLine.add i).old? = none ∧ (PlanLine.add i).new? = some i := ⟨rfl, rfl⟩
      simp [hkind, hnew, hsides, ← ih.1, ← ih.2]

/-- A hunk that starts with context is read as one, and so is one that ends with it. -/
theorem ReadsHunk.context (h : ReadsHunk old new hunk read) :
    ((∃ i j, hunk.plan.head? = some (.context i j)) → ∃ line ∈ read.lines.head?, line.kind = .context) ∧
      ((∃ i j, hunk.plan.getLast? = some (.context i j)) →
        ∃ line ∈ read.lines.getLast?, line.kind = .context) := by
  have hhead : ∀ {plan lines}, List.Forall₂ (Reads old new) plan lines →
      (∃ i j, plan.head? = some (.context i j)) → ∃ line ∈ lines.head?, line.kind = .context := by
    rintro plan lines hlines ⟨i, j, hplan⟩
    cases hlines with
    | nil => cases hplan
    | cons hline _ =>
      obtain rfl := Option.some.inj hplan
      exact ⟨_, rfl, hline.1⟩
  refine ⟨hhead h.2.2.2.2, fun hlast => ?_⟩
  rw [← List.head?_reverse] at hlast ⊢
  exact hhead (List.forall₂_reverse_iff.mpr h.2.2.2.2) hlast

end Sides

/-! ## Taking a patch back -/

/-- Each hunk stands in the lines where its header says, and nowhere else; what has no context before
or after it is at the beginning or at the end. -/
structure PlacedOnce (hunks : List PatchHunk) (lines : List Text) : Prop where
  once : ∀ hunk ∈ hunks, ∀ i, StandsAt hunk.newLines lines i ↔ i = hunk.span.start
  starts : ∀ hunk ∈ hunks, (∃ line ∈ hunk.lines.head?, line.kind = .context) ∨ hunk.span.start = 0
  stops : ∀ hunk ∈ hunks,
    (∃ line ∈ hunk.lines.getLast?, line.kind = .context) ∨ hunk.span.stop = lines.length

/-- The mode that a patch says. -/
def readFileMode (mode : Text) : Option Mode :=
  [Mode.regular, .executable, .symlink].find? fun m => bytesOf (modeWord (some ⟨m, []⟩)).val = mode

/-- The file with these lines in place of its own. What a patch has added must be gone as a whole, and
what it has deleted comes back with the mode that it says. -/
def fileAfter (patch : Patch) (file : Option File) (lines : List Text) : Option (Option File) :=
  match patch.status, file with
  | .modified, some f => some (some ⟨f.mode, lines.flatten⟩)
  | .added, some f =>
    if lines = [] ∧ patch.mode = some (bytesOf (modeWord (some f)).val) then some none else none
  | .deleted, none =>
    (patch.mode.bind readFileMode).map fun mode => some ⟨mode, lines.flatten⟩
  | _, _ => none

/-- The case that git documents: the old lines of the hunks are put where their new lines stand once. -/
inductive TakenBack (patch : Patch) (t t' : Tree) : Prop where
  | intro {p : Path} {sorted : List PatchHunk}
    (names : patch.headerNames = (pathBytes p, pathBytes p))
    (sides : patch.oldName = (if patch.status = .added then none else some (pathBytes p)) ∧
      patch.newName = if patch.status = .deleted then none else some (pathBytes p))
    (perm : sorted.Perm patch.hunks)
    (apart : sorted.Pairwise fun hunk next => hunk.span.stop < next.span.start)
    (placed : PlacedOnce patch.hunks (fileLines (t.get p)))
    (file : fileAfter patch (t.get p) (replaceFrom (fileLines (t.get p)) 0
      (sorted.map fun hunk => (hunk.span, hunk.oldLines))) = some (t'.get p))
    (others : ∀ q, q ≠ p → t'.get q = t.get q)

/-- What becomes of an index or a worktree when git takes a patch back; otherwise what git says. -/
structure GitApply where
  reverse : Patch → Tree → Except String Tree
  frame : ∀ {patch t t'}, reverse patch t = .ok t' → ∀ p, pathBytes p ≠ patch.headerNames.1 →
    pathBytes p ≠ patch.headerNames.2 → t'.get p = t.get p
  fits : ∀ {patch t t' p}, reverse patch t = .ok t' → patch.headerNames = (pathBytes p, pathBytes p) →
    Fits (patch.hunks.map (·.newLines)) (fileLines (t.get p))
  takes : ∀ {patch t t'}, TakenBack patch t t' → reverse patch t = .ok t'

namespace GitApply
variable (git : GitApply)

def apply (patch : Text) (t : Tree) : Except String Tree :=
  match readPatch patch with
  | none => .error "error: corrupt patch"
  | some read => git.reverse read t

/-- `--check` says whether the patch is taken. -/
def check (patch : Text) (t : Tree) : Except String Unit := (git.apply patch t).map fun _ => ()

end GitApply

/-! ## A git that takes back nothing else -/

section Strict
variable {patch : Patch} {t t' t'' : Tree}

theorem TakenBack.unique (h : TakenBack patch t t') (h' : TakenBack patch t t'') : t' = t'' := by
  obtain ⟨hnames, -, hperm, hapart, -, hfile, hothers⟩ := h
  rename_i p sorted
  obtain ⟨hnames', -, hperm', hapart', -, hfile', hothers'⟩ := h'
  rename_i p' sorted'
  obtain rfl : p = p' := pathBytes_injective (Prod.mk.inj (hnames.symm.trans hnames')).1
  have hstart : ∀ hunk : PatchHunk, hunk.span.start ≤ hunk.span.stop := fun hunk => Nat.le_add_right _ _
  obtain rfl : sorted = sorted' := List.Perm.eq_of_pairwise (fun hunk next _ _ hlt hgt => by
    have := hstart hunk
    have := hstart next
    omega) hapart hapart' (hperm.trans hperm'.symm)
  refine FileTree.ext_get fun q => ?_
  rcases eq_or_ne q p with rfl | hq
  · exact Option.some.inj (hfile.symm.trans hfile')
  · rw [hothers q hq, hothers' q hq]

theorem TakenBack.fits {p : Path} (h : TakenBack patch t t')
    (hp : patch.headerNames = (pathBytes p, pathBytes p)) :
    Fits (patch.hunks.map (·.newLines)) (fileLines (t.get p)) := by
  obtain ⟨hnames, -, hperm, hapart, hplaced, -, -⟩ := h
  rename_i p' sorted
  obtain rfl : p' = p := pathBytes_injective (Prod.mk.inj (hnames.symm.trans hp)).1
  refine ⟨patch.hunks.map fun hunk => (hunk.newLines, hunk.span.start), by simp, ?_, ?_⟩
  · rw [List.forall_mem_map]
    exact fun hunk hhunk => (hplaced.once hunk hhunk _).mpr rfl
  · rw [List.pairwise_map]
    refine hperm.pairwise (hapart.imp fun {hunk next} hlt => ?_) Or.symm
    exact .inl (Nat.le_of_lt hlt)

open scoped Classical in
/-- The patches that it takes back are those that every git does. -/
noncomputable def strictApply : GitApply where
  reverse patch t :=
    if h : ∃ t', TakenBack patch t t' then .ok h.choose else .error "error: patch does not apply"
  frame := by
    intro patch t t' h p hp _
    split_ifs at h with htaken
    obtain rfl := Except.ok.inj h
    obtain ⟨hnames, -, -, -, -, -, hothers⟩ := htaken.choose_spec
    refine hothers p fun heq => hp ?_
    rw [hnames, heq]
  fits := by
    intro patch t t' p h hp
    split_ifs at h with htaken
    exact htaken.choose_spec.fits hp
  takes := by
    intro patch t t' h
    rw [dif_pos ⟨t', h⟩]
    exact congrArg Except.ok ((Exists.choose_spec (⟨t', h⟩ : ∃ t', TakenBack patch t t')).unique h)

end Strict

end Tethys.Git
