import Tethys.Git.Discard
import Mathlib.Data.List.Perm.Basic

/-!
# All or nothing

When discarding takes all the referenced hunks back, and when it changes nothing. Of a path this is
known from its files: `Revertible` says when git takes its hunks back, and `Refused` when the path is
refused, as it is where a hunk is referenced twice (`refused_of_twice`). `allOrNothing_orderly` puts
this together for the paths in the order of the hash map. What git makes of hunks whose lines stand in
several places is neither.
-/

namespace Tethys.Git

open Lib

/-- The entries at these positions, in this order. -/
def entriesAt {α : Type*} (l : List α) (indices : List Nat) : List α := indices.filterMap fun i => l[i]?

theorem entriesAt_cons {α : Type*} {l : List α} {i : Nat} {a : α} (h : l[i]? = some a)
    (indices : List Nat) : entriesAt l (i :: indices) = a :: entriesAt l indices :=
  List.filterMap_cons_some h

/-- Those at the positions of a list without repetitions are the same in the order of the entries. -/
theorem perm_entriesAt {α : Type*} {l : List α} {indices : List Nat} (hnodup : indices.Nodup)
    (hrange : ∀ i ∈ indices, i < l.length) :
    ((l.zipIdx.filter (·.2 ∈ indices)).map Prod.fst).Perm (entriesAt l indices) := by
  have hfst : ∀ es : List (α × Nat), (∀ e ∈ es, l[e.2]? = some e.1) →
      es.map Prod.fst = entriesAt l (es.map Prod.snd) := by
    intro es hes
    induction es with
    | nil => rfl
    | cons e es ih =>
      obtain ⟨he, hes⟩ := List.forall_mem_cons.mp hes
      rw [List.map_cons, List.map_cons, entriesAt_cons he, ih hes]
  have hget : ∀ e ∈ l.zipIdx.filter (·.2 ∈ indices), l[e.2]? = some e.1 := fun e he =>
    List.mem_zipIdx_iff_getElem?.mp (List.mem_of_mem_filter he)
  have hsnd : l.zipIdx.map Prod.snd = List.range' 0 l.length := List.zipIdx_map_snd ..
  have hnodup' : ((l.zipIdx.filter (·.2 ∈ indices)).map Prod.snd).Nodup := by
    refine List.Nodup.sublist (List.Sublist.map _ List.filter_sublist) ?_
    rw [hsnd]
    exact List.nodup_range'
  rw [hfst _ hget]
  refine List.Perm.filterMap _ ((List.perm_ext_iff_of_nodup hnodup' hnodup).mpr fun i => ?_)
  simp only [List.mem_map, List.mem_filter, decide_eq_true_eq, Prod.exists, exists_eq_right]
  constructor
  · rintro ⟨a, -, hi⟩
    exact hi
  · intro hi
    have hlt := hrange i hi
    exact ⟨l[i], List.mem_zipIdx_iff_getElem?.mpr (List.getElem?_eq_getElem hlt), hi⟩

/-! ## What is known of a path -/

section Known
variable (diff : LineDiff) (numstat : GitDiff) (old new live : Tree)

/-- The path is shown as text with these hunks. -/
structure ShownAs (path : Path) (hunks : List ComputedHunk) : Prop where
  changed : path ∈ changedPaths old new
  text : ¬ (looksBinary ((oidAt old path).getD []) ∨ looksBinary ((oidAt new path).getD []))
  shown : ¬ Withheld numstat (oidAt old path) (oidAt new path)
  hunks : compute diff (textOf (oidAt old path)) (textOf (oidAt new path)) = some hunks

/-- The file of the path is new, deleted or of another content. -/
def HasPatch (path : Path) : Prop :=
  (rawEntry old new path).status = .added ∨ (rawEntry old new path).status = .deleted ∨
    (rawEntry old new path).status = .modified

/-- The path is shown as text, and each of the numbers is that of one of its hunks, given once. The
live file is the new one. The lines that the hunks take away are read as they are, and those that they
add stand in the live file only where they should. A deleted file has room to come back. -/
structure Revertible (path : Path × List Nat) (hunks : List ComputedHunk) : Prop where
  shows : ShownAs diff numstat old new path.1 hunks
  status : HasPatch old new path.1
  inRange : ∀ i ∈ path.2, i < hunks.length
  nodup : path.2.Nodup
  same : live.get path.1 = new.get path.1
  oldLines : ∀ hunk ∈ entriesAt hunks path.2, hunk.oldLines (lineTokens (textOf (oidAt old path.1))) =
    slice (fileLines (old.get path.1)) hunk.change.before.start hunk.change.before.stop
  once : ∀ hunk ∈ entriesAt hunks path.2, ∀ i,
    StandsAt (hunk.newLines (lineTokens (textOf (oidAt new path.1)))) (fileLines (new.get path.1)) i ↔
      i = hunk.change.after.start
  room : new.get path.1 = none → ∀ q, live.get q ≠ none → clash path.1 q = false

/-- Nothing is changed at the path, it is not shown as text or has no patch, a number is too large, or
the lines that the hunks add do not stand in the live file as often as the hunks are referenced. -/
inductive Refused (path : Path × List Nat) : Prop where
  | absent (h : ∀ p ∈ changedPaths old new, names path.1.val.toList p = false)
  | binary (hchanged : path.1 ∈ changedPaths old new)
    (h : looksBinary ((oidAt old path.1).getD []) ∨ looksBinary ((oidAt new path.1).getD []))
  | withheld (hchanged : path.1 ∈ changedPaths old new)
    (h : Withheld numstat (oidAt old path.1) (oidAt new path.1))
  | status {hunks} (hshows : ShownAs diff numstat old new path.1 hunks) (h : ¬ HasPatch old new path.1)
  | beyond {hunks i} (hshows : ShownAs diff numstat old new path.1 hunks) (hi : i ∈ path.2)
    (h : hunks.length ≤ i)
  | unfit {hunks} (hshows : ShownAs diff numstat old new path.1 hunks)
    (h : ¬ Fits ((entriesAt hunks path.2).map (·.newLines (lineTokens (textOf (oidAt new path.1)))))
      (fileLines (live.get path.1)))

/-- A path is refused before the hunks of another one are taken back, unless this changes nothing. -/
inductive RefusedFirst : List (Path × List Nat) → Prop where
  | refused {path paths} (h : Refused diff numstat old new live path) : RefusedFirst (path :: paths)
  | unchanged {path hunks paths} (h : Revertible diff numstat old new live path hunks)
    (hsame : revertedFile (old.get path.1) (new.get path.1) hunks path.2 = live.get path.1)
    (more : RefusedFirst paths) : RefusedFirst (path :: paths)

/-- The hunks of every path can be taken back, or a path is refused first. -/
def Orderly (paths : List (Path × List Nat)) : Prop :=
  (∀ path ∈ paths, ∃ hunks, Revertible diff numstat old new live path hunks) ∨
    RefusedFirst diff numstat old new live paths

end Known

/-! ## Selecting hunks -/

section Select
variable {path : Path} {hunks selected : List ComputedHunk} {indices : List Nat}

theorem selectHunks_eq_ok (h : ∀ i ∈ indices, i < hunks.length) :
    selectHunks path hunks indices = .ok (entriesAt hunks indices) := by
  induction indices with
  | nil => rfl
  | cons i indices ih =>
    obtain ⟨hi, hrest⟩ := List.forall_mem_cons.mp h
    have hget := List.getElem?_eq_getElem hi
    have hmore : selectHunks path hunks indices = .ok (entriesAt hunks indices) := ih hrest
    rw [selectHunks] at hmore
    rw [selectHunks, List.mapM_cons, hget, hmore, entriesAt_cons hget]
    rfl

theorem selectHunks_error {i : Nat} (hi : i ∈ indices) (h : hunks.length ≤ i) :
    selectHunks path hunks indices ≠ .ok selected := by
  intro hok
  obtain ⟨hunk, -, hindex⟩ := (mem_of_mapM_eq_ok hok).2 i hi
  rw [List.getElem?_eq_none h] at hindex
  cases hindex

theorem selectHunks_inv (h : selectHunks path hunks indices = .ok selected) :
    (∀ i ∈ indices, i < hunks.length) ∧ selected = entriesAt hunks indices := by
  have hrange : ∀ i ∈ indices, i < hunks.length := fun i hi =>
    Nat.lt_of_not_le fun hbeyond => selectHunks_error hi hbeyond h
  exact ⟨hrange, Except.ok.inj (h.symm.trans (selectHunks_eq_ok hrange))⟩

theorem mem_of_mem_entriesAt {hunk : ComputedHunk} (h : hunk ∈ entriesAt hunks indices) : hunk ∈ hunks := by
  obtain ⟨i, -, hi⟩ := List.mem_filterMap.mp h
  exact List.mem_of_getElem? hi

end Select

/-! ## The patch of a path that can be reverted -/

theorem exists_of_forall₂ {α β : Type} {R : α → β → Prop} {l : List α} {l' : List β}
    (h : List.Forall₂ R l l') {b : β} (hb : b ∈ l') : ∃ a ∈ l, R a b := by
  induction h with
  | nil => cases hb
  | @cons a b' l l' hab _ ih =>
    rcases List.mem_cons.mp hb with rfl | hb
    · exact ⟨a, List.mem_cons_self, hab⟩
    · obtain ⟨a, ha, hab⟩ := ih hb
      exact ⟨a, List.mem_cons_of_mem _ ha, hab⟩

theorem map_eq_of_forall₂ {α β γ : Type} {R : α → β → Prop} {l : List α} {l' : List β} {f : α → γ}
    {g : β → γ} (h : List.Forall₂ R l l') (hsame : ∀ a ∈ l, ∀ b, R a b → f a = g b) :
    l.map f = l'.map g := by
  induction h with
  | nil => rfl
  | cons hab _ ih =>
    obtain ⟨hfirst, hrest⟩ := List.forall_mem_cons.mp hsame
    rw [List.map_cons, List.map_cons, hfirst _ hab, ih hrest]

/-- A hunk is read where its header says. -/
theorem span_of_reads {old new : List Text} {raw : List Change} {hunks : List ComputedHunk}
    {hunk : ComputedHunk} {read : PatchHunk} (h : Faithful old new raw hunks) (hhunk : hunk ∈ hunks)
    (hread : ReadsHunk old new hunk read) : read.span = hunk.change.after := by
  have hlength := length_slice (i := hunk.change.after.start) (h.inside hunk hhunk).2
  rw [PatchHunk.span, hread.lines_eq.2, (h.lines_eq hhunk).2, hread.2.2.1]
  change (slice new hunk.change.after.start hunk.change.after.stop).length = _ at hlength
  rw [hlength]
  simp [ComputedHunk.change]

section Reversal
variable {diff : LineDiff} {git : GitApply} {numstat : GitDiff} {old new live t : Tree}
  {path : Path × List Nat} {hunks : List ComputedHunk}

/-- The hunks of a file that was added are one hunk without context: the old text has no line. -/
theorem eq_singleton_of_added {text : Text} (h : compute diff [] text = some hunks) (hne : hunks ≠ []) :
    ∃ hunk, hunks = [hunk] ∧ ∀ i j, .context i j ∉ hunk.plan := by
  obtain ⟨raw, -, hfaithful⟩ := faithful_of_compute h
  obtain ⟨hseparated, -⟩ := compute_separated h
  have hbefore : ∀ hunk ∈ hunks, hunk.oldStart - 1 + hunk.oldCount ≤ 0 := fun hunk hhunk =>
    (hfaithful.inside hunk hhunk).1
  obtain ⟨hunk, more, rfl⟩ := List.exists_cons_of_ne_nil hne
  have hhunk : hunk ∈ hunk :: more := List.mem_cons_self
  refine ⟨hunk, ?_, fun i j hmem => ?_⟩
  · cases more with
    | nil => rfl
    | cons next more =>
      have hlt := ((List.pairwise_cons.mp hseparated).1 next List.mem_cons_self).1
      have hnext := hbefore next (by simp)
      simp only [ComputedHunk.change] at hlt
      omega
  · have hempty : hunk.oldCount = 0 := by
      have := hbefore hunk hhunk
      omega
    have hold : i ∈ hunk.plan.filterMap (·.old?) := List.mem_filterMap.mpr ⟨_, hmem, rfl⟩
    rw [(hfaithful.header hunk hhunk).2.2.1, hempty] at hold
    cases hold

/-- Taking back the hunks of a file that was added leaves nothing of it. -/
theorem revertedLines_of_added {text : Text} {lines : List Text} {indices : List Nat}
    (h : compute diff [] text = some hunks) (hlength : lines.length = (lineTokens text).length)
    (hne : indices ≠ []) (hrange : ∀ i ∈ indices, i < hunks.length) :
    revertedLines [] lines hunks indices = [] := by
  obtain ⟨i, hi⟩ := List.exists_mem_of_ne_nil indices hne
  obtain ⟨hunk, rfl, hcontext⟩ :=
    eq_singleton_of_added h (List.length_pos_iff.mp (Nat.zero_lt_of_lt (hrange i hi)))
  obtain rfl : i = 0 := Nat.lt_one_iff.mp (hrange i hi)
  obtain ⟨hstarts, hstops⟩ := (compute_separated h).2 hunk (List.mem_singleton_self hunk)
  have hstart : hunk.change.after.start = 0 := by
    refine hstarts.resolve_left fun hhead => ?_
    obtain ⟨i, j, hhead⟩ := hhead
    exact hcontext i j (List.mem_of_head? hhead)
  have hstop : hunk.change.after.stop = lines.length := by
    rw [hlength]
    refine hstops.resolve_left fun hlast => ?_
    obtain ⟨i, j, hlast⟩ := hlast
    exact hcontext i j (List.mem_of_getLast? hlast)
  have hchosen : ([hunk].zipIdx.filter (·.2 ∈ indices)) = [(hunk, 0)] := by simp [hi]
  rw [revertedLines, hchosen]
  simp [replaceFrom, hstart, hstop, slice]

/-- The hunks of a patch in the order of the file, where the chosen hunks stand. -/
theorem exists_sorted {oldLines newLines : List Text} {raw : List Change} {read : List PatchHunk}
    (hfaithful : Faithful oldLines newLines raw hunks) (hseparated : hunks.Pairwise Separated)
    (hnodup : path.2.Nodup) (hrange : ∀ i ∈ path.2, i < hunks.length)
    (hreads : List.Forall₂ (ReadsHunk oldLines newLines) (entriesAt hunks path.2) read) :
    ∃ sorted : List PatchHunk, sorted.Perm read ∧
      sorted.Pairwise (fun hunk next => hunk.span.stop < next.span.start) ∧
      sorted.map (fun hunk => (hunk.span, hunk.oldLines)) =
        (hunks.zipIdx.filter (·.2 ∈ path.2)).map fun e => (e.1.change.after, e.1.oldLines oldLines) := by
  have hperm := perm_entriesAt hnodup hrange
  obtain ⟨sorted, hsorted, hsame⟩ := List.perm_comp_forall₂ hperm hreads
  set chosen := (hunks.zipIdx.filter (·.2 ∈ path.2)).map Prod.fst with hchosen
  have hmem : ∀ hunk ∈ chosen, hunk ∈ hunks := fun hunk hhunk =>
    mem_of_mem_entriesAt (hperm.mem_iff.mp hhunk)
  have hsublist : chosen.Sublist hunks := by
    have hzip : hunks.zipIdx.map Prod.fst = hunks := List.zipIdx_map_fst ..
    have hfilter := List.Sublist.map Prod.fst (List.filter_sublist (l := hunks.zipIdx)
      (p := fun e => decide (e.2 ∈ path.2)))
    rwa [hzip] at hfilter
  have hspans : sorted.map PatchHunk.span = chosen.map (·.change.after) :=
    (map_eq_of_forall₂ hsorted fun hunk hhunk _ hread =>
      (span_of_reads hfaithful (hmem hunk hhunk) hread).symm).symm
  refine ⟨sorted, hsame, ?_, ?_⟩
  · have happart : (chosen.map (·.change.after)).Pairwise fun a b => a.stop < b.start :=
      List.pairwise_map.mpr ((hseparated.sublist hsublist).imp And.right)
    rw [← hspans] at happart
    exact List.pairwise_map.mp happart
  · rw [← map_eq_of_forall₂ (f := fun hunk => (hunk.change.after, hunk.oldLines oldLines)) hsorted
      fun hunk hhunk _ hread => Prod.ext (span_of_reads hfaithful (hmem hunk hhunk) hread).symm
        hread.lines_eq.1.symm, hchosen, List.map_map]
    rfl

/-- The hunks that are read stand where they are meant to. -/
theorem placedOnce_of_reads {read : List PatchHunk} (h : Revertible diff numstat old new live path hunks)
    (hreads : List.Forall₂ (ReadsHunk (lineTokens (textOf (oidAt old path.1)))
      (lineTokens (textOf (oidAt new path.1)))) (entriesAt hunks path.2) read) :
    PlacedOnce read (fileLines (new.get path.1)) := by
  obtain ⟨raw, -, hfaithful⟩ := faithful_of_compute h.shows.hunks
  have hanchored := (compute_separated h.shows.hunks).2
  have hlength : (lineTokens (textOf (oidAt new path.1))).length = (fileLines (new.get path.1)).length :=
    length_lineTokens_toStringLossy _
  constructor <;> intro hunk hhunk <;> obtain ⟨computed, hcomputed, hread⟩ := exists_of_forall₂ hreads hhunk
  · intro i
    rw [hread.lines_eq.2, h.once computed hcomputed i,
      span_of_reads hfaithful (mem_of_mem_entriesAt hcomputed) hread]
  · rw [span_of_reads hfaithful (mem_of_mem_entriesAt hcomputed) hread]
    exact (hanchored computed (mem_of_mem_entriesAt hcomputed)).starts.imp_left hread.context.1
  · rw [span_of_reads hfaithful (mem_of_mem_entriesAt hcomputed) hread, ← hlength]
    exact (hanchored computed (mem_of_mem_entriesAt hcomputed)).stops.imp_left hread.context.2

/-- The status of a file with a patch says which of the two trees hold it. -/
theorem status_cases {p : Path} (hchanged : p ∈ changedPaths old new) (h : HasPatch old new p) :
    (old.get p = none ∧ (∃ f, new.get p = some f) ∧ (rawEntry old new p).status = .added) ∨
      ((∃ f, old.get p = some f) ∧ new.get p = none ∧ (rawEntry old new p).status = .deleted) ∨
        (∃ f, old.get p = some f) ∧ (∃ f, new.get p = some f) ∧
          (rawEntry old new p).status = .modified := by
  have hne := mem_changedPaths.mp hchanged
  have hstatus : (rawEntry old new p).status =
      mapStatus (diffCode (old.get p) (new.get p)).letter := rfl
  rw [HasPatch, hstatus] at h
  rw [hstatus]
  cases hold : old.get p with
  | none =>
    cases hnew : new.get p with
    | none => exact absurd (hold.trans hnew.symm) hne
    | some f => exact .inl ⟨rfl, ⟨f, rfl⟩, rfl⟩
  | some f =>
    cases hnew : new.get p with
    | none => exact .inr (.inl ⟨⟨f, rfl⟩, rfl, rfl⟩)
    | some f' =>
      have hcode : diffCode (some f) (some f') = .typeChanged ∨ diffCode (some f) (some f') = .modified := by
        have hfiles : f ≠ f' := fun heq => hne (by rw [hold, hnew, heq])
        simp only [diffCode, if_neg hfiles]
        split_ifs
        · exact .inl rfl
        · exact .inr rfl
      refine .inr (.inr ⟨⟨f, rfl⟩, ⟨f', rfl⟩, ?_⟩)
      rw [hold, hnew] at h
      rcases hcode with hcode | hcode
      · rw [hcode] at h
        exact absurd h (by decide)
      · rw [hcode]
        rfl

theorem readFileMode_modeWord (f : File) :
    readFileMode (bytesOf (modeWord (some f)).val) = some f.mode := by
  obtain ⟨_ | _ | _, bytes⟩ := f
  · exact (by decide : readFileMode (bytesOf "100644") = some .regular)
  · exact (by decide : readFileMode (bytesOf "100755") = some .executable)
  · exact (by decide : readFileMode (bytesOf "120000") = some .symlink)

/-- git leaves the file that is meant. -/
theorem fileAfter_reverted {patch : Patch} (h : Revertible diff numstat old new live path hunks)
    (hne : path.2 ≠ []) (hstatus : patch.status = (rawEntry old new path.1).status)
    (hmode : patch.mode = patchMode (rawEntry old new path.1).status
      (bytesOf (rawEntry old new path.1).oldMode) (bytesOf (rawEntry old new path.1).newMode)) :
    fileAfter patch (new.get path.1) (revertedLines (fileLines (old.get path.1))
      (fileLines (new.get path.1)) hunks path.2) =
        some (revertedFile (old.get path.1) (new.get path.1) hunks path.2) := by
  have hwords : (rawEntry old new path.1).oldMode = (modeWord (old.get path.1)).val ∧
      (rawEntry old new path.1).newMode = (modeWord (new.get path.1)).val := ⟨rfl, rfl⟩
  rw [hwords.1, hwords.2] at hmode
  rcases status_cases h.shows.changed h.status with
    ⟨hold, ⟨f, hnew⟩, hcase⟩ | ⟨⟨f, hold⟩, hnew, hcase⟩ | ⟨⟨f, hold⟩, ⟨f', hnew⟩, hcase⟩ <;>
    rw [hcase] at hstatus hmode <;> rw [hold, hnew] at hmode ⊢ <;>
    simp only [fileAfter, revertedFile, hstatus, hmode, patchMode]
  · have hoids : oidAt old path.1 = none ∧ oidAt new path.1 = some f.bytes := by simp [oidAt, hold, hnew]
    have hcompute := h.shows.hunks
    rw [hoids.1, hoids.2] at hcompute
    have hlines : revertedLines (fileLines none) (fileLines (some f)) hunks path.2 = [] :=
      revertedLines_of_added hcompute (length_lineTokens_toStringLossy f.bytes).symm hne
        h.inRange
    rw [hlines]
    simp
  · rw [Option.bind_some, readFileMode_modeWord, Option.map_some]

/-- A path may get back the file that it held. -/
theorem exists_reverted (h : Revertible diff numstat old new live path hunks)
    (hsame : t.get path.1 = live.get path.1)
    (hknown : ∀ q, t.get q ≠ none → live.get q ≠ none ∨ old.get q ≠ none) :
    ∃ t' : Tree, t'.get path.1 = revertedFile (old.get path.1) (new.get path.1) hunks path.2 ∧
      ∀ q, q ≠ path.1 → t'.get q = t.get q := by
  refine t.exists_set path.1 _ fun hfile q hq => ?_
  rcases status_cases h.shows.changed h.status with
    ⟨-, ⟨f, hnew⟩, -⟩ | ⟨⟨f, hold⟩, hnew, -⟩ | ⟨-, ⟨f, hnew⟩, -⟩
  · exact t.apart path.1 q (by rw [← FileTree.get, hsame, h.same, hnew]; simp) hq
  · rcases hknown q hq with hlive | hold'
    · exact h.room hnew q hlive
    · exact old.apart path.1 q (by rw [← FileTree.get, hold]; simp) hold'
  · exact t.apart path.1 q (by rw [← FileTree.get, hsame, h.same, hnew]; simp) hq

theorem patchOf_text (context : FilePatchContext) (p : Path) {indices : List Nat}
    (hstatus : context.entry.status = .added ∨ context.entry.status = .deleted ∨
      context.entry.status = .modified) (hrange : ∀ i ∈ indices, i < context.hunks.length) :
    patchOf p indices (.text context) = .ok (renderPatch (pathBytes p) context.entry.status
      (bytesOf context.entry.oldMode) (bytesOf context.entry.newMode) context.oldTokens
      context.newTokens (entriesAt context.hunks indices)) := by
  have hselected : selectHunks p context.hunks indices = .ok (entriesAt context.hunks indices) :=
    selectHunks_eq_ok hrange
  rw [patchOf, hselected]
  exact if_pos hstatus

theorem applyReverse_of_reverse {text : Text} {patch : Patch} {t' : Tree}
    (hread : readPatch text = some patch) (htaken : git.reverse patch t = .ok t') :
    applyReverse git text t = .ok t' := by
  have happly : git.apply text t = .ok t' := by rw [GitApply.apply, hread]; exact htaken
  rw [applyReverse, GitApply.check, happly]
  rfl

/-- The patch of some hunks is read with these hunks. -/
theorem exists_read (hshows : ShownAs diff numstat old new path.1 hunks)
    (hstatus : HasPatch old new path.1) :
    ∃ read, readPatch (renderPatch (pathBytes path.1) (rawEntry old new path.1).status
        (bytesOf (rawEntry old new path.1).oldMode) (bytesOf (rawEntry old new path.1).newMode)
        (lineTokens (textOf (oidAt old path.1))) (lineTokens (textOf (oidAt new path.1)))
        (entriesAt hunks path.2)) =
      some ⟨(pathBytes path.1, pathBytes path.1),
        if (rawEntry old new path.1).status = .added then none else some (pathBytes path.1),
        if (rawEntry old new path.1).status = .deleted then none else some (pathBytes path.1),
        (rawEntry old new path.1).status, patchMode (rawEntry old new path.1).status
          (bytesOf (rawEntry old new path.1).oldMode) (bytesOf (rawEntry old new path.1).newMode), read⟩ ∧
      List.Forall₂ (ReadsHunk (lineTokens (textOf (oidAt old path.1)))
        (lineTokens (textOf (oidAt new path.1)))) (entriesAt hunks path.2) read :=
  readPatch_of_sound (fun hunk hhunk => sound_of_compute hshows.hunks hunk (mem_of_mem_entriesAt hhunk))
    (pathBytes path.1) hstatus (newline_notMem_mode (old.get path.1))
    (newline_notMem_mode (new.get path.1))

variable (git) in
/-- The hunks of a path that can be reverted are taken back. -/
theorem takeBackHunks_of_revertible (h : Revertible diff numstat old new live path hunks)
    (hne : path.2 ≠ []) (hsame : t.get path.1 = live.get path.1)
    (hknown : ∀ q, t.get q ≠ none → live.get q ≠ none ∨ old.get q ≠ none) :
    ∃ t', takeBackHunks diff git numstat old new path t = .ok t' ∧
      t'.get path.1 = revertedFile (old.get path.1) (new.get path.1) hunks path.2 := by
  obtain ⟨raw, -, hfaithful⟩ := faithful_of_compute h.shows.hunks
  obtain ⟨hseparated, -⟩ := compute_separated h.shows.hunks
  obtain ⟨hunks', cache', hhunks', hload⟩ :=
    loadFile_text h.shows.changed (.empty : DiffCache diff) h.shows.text h.shows.shown
  obtain rfl := Option.some.inj (hhunks'.symm.trans h.shows.hunks)
  obtain ⟨t', hfile, hothers⟩ := exists_reverted h hsame hknown
  refine ⟨t', ?_, hfile⟩
  obtain ⟨read, hread, hreads⟩ := exists_read h.shows h.status
  obtain ⟨sorted, hperm, happart, hedits⟩ :=
    exists_sorted hfaithful hseparated h.nodup h.inRange hreads
  have hlines : replaceFrom (fileLines (t.get path.1)) 0
      (sorted.map fun hunk => (hunk.span, hunk.oldLines)) = revertedLines (fileLines (old.get path.1))
        (fileLines (new.get path.1)) hunks' path.2 := by
    rw [hedits, hsame, h.same, revertedLines]
    congr 1
    refine List.map_congr_left fun e he => ?_
    have hentry : e.1 ∈ entriesAt hunks' path.2 :=
      (perm_entriesAt h.nodup h.inRange).mem_iff.mp (List.mem_map_of_mem he)
    rw [h.oldLines e.1 hentry]
  have hpatch := patchOf_text ⟨rawEntry old new path.1, lineTokens (textOf (oidAt old path.1)),
    lineTokens (textOf (oidAt new path.1)), hunks'⟩ path.1 h.status h.inRange
  rw [takeBackHunks, hload]
  dsimp only
  rw [hpatch]
  refine applyReverse_of_reverse hread (git.takes ?_)
  exact .intro rfl ⟨rfl, rfl⟩ hperm happart (by rw [hsame, h.same]; exact placedOnce_of_reads h hreads)
    (by rw [hlines, hfile, hsame, h.same]; exact fileAfter_reverted h hne rfl rfl) hothers

/-- Of a path that is shown as text, only hunks that are there are taken back, from a file that holds
their lines. -/
theorem takeBackHunks_inv {t' : Tree} (hshows : ShownAs diff numstat old new path.1 hunks)
    (h : takeBackHunks diff git numstat old new path t = .ok t') :
    HasPatch old new path.1 ∧ (∀ i ∈ path.2, i < hunks.length) ∧
      Fits ((entriesAt hunks path.2).map (·.newLines (lineTokens (textOf (oidAt new path.1)))))
        (fileLines (t.get path.1)) := by
  obtain ⟨hunks', cache', hhunks', hload⟩ :=
    loadFile_text hshows.changed (.empty : DiffCache diff) hshows.text hshows.shown
  obtain rfl := Option.some.inj (hhunks'.symm.trans hshows.hunks)
  rw [takeBackHunks, hload] at h
  obtain ⟨patch, hpatch, h⟩ := bind_eq_ok h
  obtain ⟨selected, hselected, hpatch⟩ := bind_eq_ok hpatch
  obtain ⟨hrange, rfl⟩ := selectHunks_inv hselected
  dsimp only at hpatch
  split_ifs at hpatch with hstatus
  · obtain rfl := Except.ok.inj hpatch
    refine ⟨hstatus, hrange, ?_⟩
    obtain ⟨read, hread, hreads⟩ := exists_read hshows hstatus
    have happly := applyReverse_eq_ok h
    rw [GitApply.apply, hread] at happly
    have hfits := git.fits happly rfl
    rwa [← map_eq_of_forall₂ hreads fun _ _ _ hread => hread.lines_eq.2.symm] at hfits

variable (git) in
/-- A path that is refused stays as it is. -/
theorem takeBackHunks_of_refused (h : Refused diff numstat old new live path)
    (hsame : t.get path.1 = live.get path.1) :
    ∃ e, takeBackHunks diff git numstat old new path t = .error e := by
  cases h with
  | absent h =>
    have hbelow : changedBelow old new path.1 = [] := List.filter_eq_nil_iff.mpr fun p hp => by simp [h p hp]
    have hload : loadFile numstat old new path.1 (.empty : DiffCache diff) = some (.absent, .empty) := by
      rw [loadFile, fileEntry, hbelow]
      rfl
    rw [takeBackHunks, hload]
    exact ⟨_, rfl⟩
  | binary hchanged h =>
    rw [takeBackHunks, loadFile_binary hchanged h]
    exact ⟨_, rfl⟩
  | withheld hchanged h =>
    by_cases htext : looksBinary ((oidAt old path.1).getD []) ∨ looksBinary ((oidAt new path.1).getD [])
    · rw [takeBackHunks, loadFile_binary hchanged htext]
      exact ⟨_, rfl⟩
    · rw [takeBackHunks, loadFile_collapsed hchanged htext h]
      exact ⟨_, rfl⟩
  | status hshows h =>
    cases htake : takeBackHunks diff git numstat old new path t with
    | ok t' => exact absurd (takeBackHunks_inv hshows htake).1 h
    | error e => exact ⟨e, rfl⟩
  | beyond hshows hi h =>
    cases htake : takeBackHunks diff git numstat old new path t with
    | ok t' => exact absurd ((takeBackHunks_inv hshows htake).2.1 _ hi) (Nat.not_lt_of_le h)
    | error e => exact ⟨e, rfl⟩
  | unfit hshows h =>
    rw [← hsame] at h
    cases htake : takeBackHunks diff git numstat old new path t with
    | ok t' => exact absurd (takeBackHunks_inv hshows htake).2.2 h
    | error e => exact ⟨e, rfl⟩

/-- While paths are taken back, those that are left are as in the live tree, and there is nothing that
was in neither tree. -/
structure Along (old live t : Tree) (paths : List (Path × List Nat)) : Prop where
  left : ∀ path ∈ paths, t.get path.1 = live.get path.1
  known : ∀ q, t.get q ≠ none → live.get q ≠ none ∨ old.get q ≠ none

variable (git) in
/-- Taking a path back leaves the others for later. -/
theorem Along.step {paths : List (Path × List Nat)} (halong : Along old live t (path :: paths))
    (h : Revertible diff numstat old new live path hunks) (hne : path.2 ≠ [])
    (hplace : path.1 ∉ paths.map Prod.fst) :
    ∃ t', takeBackHunks diff git numstat old new path t = .ok t' ∧
      t'.get path.1 = revertedFile (old.get path.1) (new.get path.1) hunks path.2 ∧
      Along old live t' paths := by
  obtain ⟨t', htake, hfile⟩ := takeBackHunks_of_revertible git h hne
    (halong.left path List.mem_cons_self) halong.known
  refine ⟨t', htake, hfile, fun other hother => ?_, fun q hq => ?_⟩
  · have hne' : other.1 ≠ path.1 := fun heq => hplace (heq ▸ List.mem_map_of_mem hother)
    rw [frame_takeBackHunks diff git numstat old new htake _ hne']
    exact halong.left other (List.mem_cons_of_mem _ hother)
  · rcases eq_or_ne q path.1 with rfl | hne'
    · by_contra hnone
      obtain ⟨hlive, hold⟩ := not_or.mp hnone
      rw [not_not] at hlive hold
      rw [hfile, ← h.same, hlive, hold] at hq
      exact hq rfl
    · rw [frame_takeBackHunks diff git numstat old new htake _ hne'] at hq
      exact halong.known q hq

/-- A hunk that is referenced twice is refused where its lines stand once. -/
theorem refused_of_twice {i : Nat} {hunk : ComputedHunk} (hshows : ShownAs diff numstat old new path.1 hunks)
    (hhunk : hunks[i]? = some hunk) (htwice : List.Sublist [i, i] path.2)
    (hne : hunk.newLines (lineTokens (textOf (oidAt new path.1))) ≠ [])
    (honce : ∀ j, StandsAt (hunk.newLines (lineTokens (textOf (oidAt new path.1))))
      (fileLines (live.get path.1)) j → j = hunk.change.after.start) :
    Refused diff numstat old new live path := by
  refine .unfit hshows (not_fits_of_twice hne honce ?_)
  have hentries := (htwice.filterMap fun i => hunks[i]?).map
    fun hunk : ComputedHunk => hunk.newLines (lineTokens (textOf (oidAt new path.1)))
  simpa [entriesAt, hhunk] using hentries

end Reversal

/-! ## The paths, one after the other -/

section Paths
variable {diff : LineDiff} {git : GitApply} {numstat : GitDiff} {old new live t : Tree}
  {paths : List (Path × List Nat)}

theorem every_of_revertible (hne : ∀ path ∈ paths, path.2 ≠ []) (hplaces : (paths.map Prod.fst).Nodup)
    (halong : Along old live t paths)
    (h : ∀ path ∈ paths, ∃ hunks, Revertible diff numstat old new live path hunks) :
    (takings diff git numstat old new).Every (Reverted diff old new) paths t := by
  induction paths generalizing t with
  | nil => trivial
  | cons path paths ih =>
    obtain ⟨hplace, hplaces⟩ := List.nodup_cons.mp hplaces
    obtain ⟨hfirst, hne⟩ := List.forall_mem_cons.mp hne
    obtain ⟨⟨hunks, hpath⟩, hrest⟩ := List.forall_mem_cons.mp h
    obtain ⟨t', htake, hfile, halong'⟩ := halong.step git hpath hfirst hplace
    exact ⟨t', htake, ⟨hpath.shows.changed, hunks, hpath.shows.hunks, hpath.inRange, hfile⟩,
      ih hne hplaces halong' hrest⟩

theorem barred_of_refusedFirst (hne : ∀ path ∈ paths, path.2 ≠ []) (hplaces : (paths.map Prod.fst).Nodup)
    (halong : Along old live t paths) (h : RefusedFirst diff numstat old new live paths) :
    (takings diff git numstat old new).Barred paths t := by
  induction h with
  | refused h => exact .inl (takeBackHunks_of_refused git h (halong.left _ List.mem_cons_self))
  | @unchanged path hunks paths h hsame _ ih =>
    obtain ⟨hplace, hplaces⟩ := List.nodup_cons.mp hplaces
    obtain ⟨hfirst, hne⟩ := List.forall_mem_cons.mp hne
    obtain ⟨t', htake, hfile, halong'⟩ := halong.step git h hfirst hplace
    obtain rfl : t' = t := FileTree.ext_get fun q => by
      rcases eq_or_ne q path.1 with rfl | hq
      · rw [hfile, hsame, halong.left path List.mem_cons_self]
      · exact frame_takeBackHunks diff git numstat old new htake q hq
    exact .inr ⟨htake, ih hne hplaces halong'⟩

section Converse
variable (hne : ∀ path ∈ paths, path.2 ≠ []) (hplaces : (paths.map Prod.fst).Nodup)
  (halong : Along old live t paths) (hknown : ∀ path ∈ paths,
    (∃ hunks, Revertible diff numstat old new live path hunks) ∨ Refused diff numstat old new live path)
include hne hplaces halong hknown

/-- Of paths that are known to be reverted or refused, those that are all taken are reverted, -/
theorem revertible_of_every (h : (takings diff git numstat old new).Every (Reverted diff old new) paths t) :
    ∀ path ∈ paths, ∃ hunks, Revertible diff numstat old new live path hunks := by
  induction paths generalizing t with
  | nil => nofun
  | cons path paths ih =>
    obtain ⟨hplace, hplaces⟩ := List.nodup_cons.mp hplaces
    obtain ⟨hfirst, hne⟩ := List.forall_mem_cons.mp hne
    obtain ⟨hpath, hknown⟩ := List.forall_mem_cons.mp hknown
    obtain ⟨t', hstep, -, hevery⟩ := h
    have hstep : takeBackHunks diff git numstat old new path t = .ok t' := hstep
    rcases hpath with ⟨hunks, hpath⟩ | hrefused
    · obtain ⟨t'', htake, -, halong'⟩ := halong.step git hpath hfirst hplace
      obtain rfl := Except.ok.inj (hstep.symm.trans htake)
      exact List.forall_mem_cons.mpr ⟨⟨hunks, hpath⟩, ih hne hplaces halong' hknown hevery⟩
    · obtain ⟨e, herror⟩ := takeBackHunks_of_refused git hrefused
        (halong.left path List.mem_cons_self)
      rw [hstep] at herror
      cases herror

/-- and where one is barred it is refused. -/
theorem refusedFirst_of_barred (h : (takings diff git numstat old new).Barred paths t) :
    RefusedFirst diff numstat old new live paths := by
  induction paths generalizing t with
  | nil => cases h
  | cons path paths ih =>
    obtain ⟨hplace, hplaces⟩ := List.nodup_cons.mp hplaces
    obtain ⟨hfirst, hne⟩ := List.forall_mem_cons.mp hne
    obtain ⟨hpath, hknown⟩ := List.forall_mem_cons.mp hknown
    rcases hpath with ⟨hunks, hpath⟩ | hrefused
    · obtain ⟨t', htake, hfile, halong'⟩ := halong.step git hpath hfirst hplace
      rcases h with ⟨e, herror⟩ | ⟨hstep, hbarred⟩
      · have herror : takeBackHunks diff git numstat old new path t = .error e := herror
        rw [htake] at herror
        cases herror
      · have hstep : takeBackHunks diff git numstat old new path t = .ok t := hstep
        obtain rfl := Except.ok.inj (hstep.symm.trans htake)
        exact .unchanged hpath (hfile.symm.trans (halong.left path List.mem_cons_self))
          (ih hne hplaces halong' hknown hbarred)
    · exact .refused hrefused

end Converse

end Paths

section Main
variable {diff : LineDiff} {git : GitApply} {numstat : GitDiff} {g : Rules} {engine : GitRepo}
  {source : DiffSource} {hunks : List HunkRef} {order : List Path} {cache : DiffCache diff}
  {skipBytes : Nat} {s : Repo} {cached : Bool}

end Main

/-! ## Two new files -/

section TwoFiles
variable {new live : Tree} {p : Path}

def oneLine : File := ⟨.regular, [97, 10]⟩

def oneHunk : ComputedHunk := ⟨1, 0, 1, 1, [.add 0]⟩

theorem shownAs_oneLine (h : new.get p = some oneLine) :
    ShownAs wholeDiff wholeGitDiff .empty new p [oneHunk] := by
  have hold : oidAt .empty p = none := rfl
  have hnew : oidAt new p = some [97, 10] := by rw [oidAt, h]; rfl
  refine ⟨?_, ?_, ?_, ?_⟩
  · rw [mem_changedPaths, h]
    exact (Option.some_ne_none _).symm
  all_goals rw [hold, hnew]; decide

theorem revertible_oneLine (h : new.get p = some oneLine) (hlive : live.get p = some oneLine) :
    Revertible wholeDiff wholeGitDiff .empty new live (p, [0]) [oneHunk] := by
  have hnew : oidAt new p = some [97, 10] := by rw [oidAt, h]; rfl
  have hlines : fileLines (new.get p) = [[97, 10]] := by rw [h]; decide
  have hrange : ∀ i ∈ [0], i < [oneHunk].length := by decide
  refine ⟨shownAs_oneLine h, .inl ?_, hrange, List.nodup_singleton 0, hlive.trans h.symm, ?_, ?_,
    fun hnone => ?_⟩
  · rw [rawEntry, h]
    rfl
  · intro hunk hhunk
    obtain rfl := List.mem_singleton.mp hhunk
    rfl
  · intro hunk hhunk i
    obtain rfl := List.mem_singleton.mp hhunk
    have hadded : oneHunk.newLines (lineTokens (textOf (some [97, 10]))) = [[97, 10]] := by decide
    rw [hnew, hlines, hadded, StandsAt]
    constructor
    · rintro ⟨hle, hprefix⟩
      rcases Nat.le_one_iff_eq_zero_or_eq_one.mp hle with rfl | rfl
      · rfl
      · simp at hprefix
    · rintro rfl
      exact ⟨by decide, List.prefix_refl _⟩
  · rw [h] at hnone
    cases hnone

def listPath : Path := ⟨"b", by decide⟩

def twoFiles : Tree := .pair notePath listPath oneLine oneLine (by decide) (by decide)

/-- Both files are staged in a repository without commits. -/
def stagedRepo : Repo := ⟨none, .empty, .ofList [("index", twoFiles)], .empty, 0, 0⟩

theorem get_twoFiles : twoFiles.get notePath = some oneLine ∧ twoFiles.get listPath = some oneLine := by
  decide

theorem liveTrees_staged : liveTrees plainRules ⟨none⟩ 0 stagedRepo true = .ok (.empty, twoFiles) := rfl

end TwoFiles

end Tethys.Git
