import Tethys.Git.Patches

/-!
# Displayed lines

`to_display` gives the lines of a hunk to the user without their terminators. A last line that has
no terminator to strip comes out empty; `displays_iff` says for which texts no such line is shown.
-/

namespace Tethys.Git

open Lib

structure DiffLine where
  kind : DiffLineKind
  text : Text
  deriving DecidableEq

structure DiffHunk where
  oldStart : Nat
  oldLines : Nat
  newStart : Nat
  newLines : Nat
  lines : List DiffLine
  deriving DecidableEq

/-- The text before this last byte. -/
def stripLast (b : UInt8) (text : Text) : Option Text :=
  if text.getLast? = some b then some text.dropLast else none

def carriageReturn : UInt8 := 13

/-- The text of a line without its newline; nothing for a line that has none. -/
def stripNewline (tokens : List Text) (i : Nat) : Text :=
  ((stripLast newline (token tokens i)).map fun line => (stripLast carriageReturn line).getD line).getD []

def displayLine (old new : List Text) : PlanLine → DiffLine
  | .context i _ => ⟨.context, stripNewline old i⟩
  | .remove i => ⟨.deletion, stripNewline old i⟩
  | .add i => ⟨.addition, stripNewline new i⟩

def toDisplay (hunk : ComputedHunk) (old new : List Text) : DiffHunk where
  oldStart := hunk.oldStart
  oldLines := hunk.oldCount
  newStart := hunk.newStart
  newLines := hunk.newCount
  lines := hunk.plan.map (displayLine old new)

/-! ## Exact lines -/

/-- A line without its terminator, which may be missing. -/
def withoutTerminator (line : Text) : Text :=
  match stripLast newline line with
  | some text => (stripLast carriageReturn text).getD text
  | none => line

/-- A displayed line has the text of the line of the plan. -/
def Shows (old new : List Text) : PlanLine → DiffLine → Prop
  | .context i j, line => line.kind = .context ∧
    (∃ text, old[i]? = some text ∧ line.text = withoutTerminator text) ∧
      ∃ text, new[j]? = some text ∧ line.text = withoutTerminator text
  | .remove i, line => line.kind = .deletion ∧
    ∃ text, old[i]? = some text ∧ line.text = withoutTerminator text
  | .add i, line => line.kind = .addition ∧
    ∃ text, new[i]? = some text ∧ line.text = withoutTerminator text

def DisplaysExactly (old new : List Text) (hunk : ComputedHunk) : Prop :=
  List.Forall₂ (Shows old new) hunk.plan (toDisplay hunk old new).lines

/-- The text has no last line without newline. -/
def Closed (text : Text) : Prop := ∀ b ∈ text.getLast?, b = newline

section Lines
variable {text : Text} {tokens old new : List Text} {i : Nat}

theorem stripNewline_eq_iff {line : Text} (h : tokens[i]? = some line) (hne : line ≠ []) :
    stripNewline tokens i = withoutTerminator line ↔ line.getLast? = some newline := by
  have htoken : token tokens i = line := by rw [token, h, Option.getD_some]
  rw [stripNewline, withoutTerminator, htoken, stripLast]
  split_ifs with hlast
  · simp [hlast]
  · simp [hlast, hne.symm]

theorem ne_nil_of_mem_lineTokens {line : Text} (h : line ∈ lineTokens text) : line ≠ [] := by
  obtain ⟨word, -, rfl | ⟨rfl, hne⟩⟩ := isLine_of_mem h
  · simp
  · exact hne

/-- A line ends with a newline unless it is the last line of a text that does not. -/
theorem getLast?_line {line : Text} (h : (lineTokens text)[i]? = some line) :
    line.getLast? = some newline ↔ i + 1 < (lineTokens text).length ∨ Closed text := by
  have hmem := List.mem_of_getElem? h
  have hne := ne_nil_of_mem_lineTokens hmem
  obtain ⟨hi, hget⟩ := List.getElem?_eq_some_iff.mp h
  by_cases hlast : i + 1 < (lineTokens text).length
  · have hearly : line ∈ (lineTokens text).dropLast := by
      have hi' : i < (lineTokens text).dropLast.length := by rw [List.length_dropLast]; omega
      rw [← hget, ← List.getElem_dropLast hi']
      exact List.getElem_mem hi'
    have hsplit : (lineTokens text).dropLast ⊆ (splitInclusive newline text).dropLast := by
      cases text with
      | nil => simp [lineTokens]
      | cons b text => exact List.Subset.refl _
    simp [getLast?_of_mem_dropLast (hsplit hearly), hlast]
  · have hend : (lineTokens text).getLast? = some line := by
      rw [List.getLast?_eq_getElem?, ← h]
      congr 1
      omega
    obtain ⟨front, hfront⟩ := List.getLast?_eq_some_iff.mp hend
    have hflatten := flatten_lineTokens text
    rw [hfront, List.flatten_append, List.flatten_singleton] at hflatten
    have hsame : text.getLast? = line.getLast? := by
      rw [← hflatten, List.getLast?_append_of_ne_nil _ hne]
    obtain ⟨b, hb⟩ : ∃ b, line.getLast? = some b := ⟨_, List.getLast?_eq_some_getLast hne⟩
    simp [hlast, Closed, hsame, hb]

theorem shows_iff {oldText newText : Text} {line : PlanLine}
    (h : Reads (lineTokens oldText) (lineTokens newText) line
      ⟨lineKind line, lineToken (lineTokens oldText) (lineTokens newText) line⟩) :
    Shows (lineTokens oldText) (lineTokens newText) line
        (displayLine (lineTokens oldText) (lineTokens newText) line) ↔
      (∀ i ∈ line.old?, i + 1 < (lineTokens oldText).length ∨ Closed oldText) ∧
        ∀ i ∈ line.new?, i + 1 < (lineTokens newText).length ∨ Closed newText := by
  have hshow : ∀ {text : Text} {i : Nat} {t : Text}, (lineTokens text)[i]? = some t →
      (stripNewline (lineTokens text) i = withoutTerminator t ↔
        i + 1 < (lineTokens text).length ∨ Closed text) := fun h =>
    (stripNewline_eq_iff h (ne_nil_of_mem_lineTokens (List.mem_of_getElem? h))).trans (getLast?_line h)
  cases line with
  | context i j =>
    obtain ⟨-, hold, hnew⟩ := h
    have holdLast := hshow hold
    have hnewLast := getLast?_line hnew
    rw [← getLast?_line hold] at holdLast
    simp only [Shows, displayLine, hold, hnew, Option.some.injEq, exists_eq_left', PlanLine.old?,
      PlanLine.new?, Option.mem_def, forall_eq', true_and]
    rw [holdLast, and_self, ← getLast?_line hold, ← hnewLast, and_self]
  | remove i =>
    obtain ⟨-, hold⟩ := h
    simp [Shows, displayLine, hold, hshow hold, PlanLine.old?, PlanLine.new?]
  | add i =>
    obtain ⟨-, hnew⟩ := h
    simp [Shows, displayLine, hnew, hshow hnew, PlanLine.old?, PlanLine.new?]

/-- A hunk is displayed exactly if it does not come to an end that has no newline. -/
theorem displaysExactly_iff {oldText newText : Text} {hunk : ComputedHunk}
    (h : Sound (lineTokens oldText) (lineTokens newText) hunk) :
    DisplaysExactly (lineTokens oldText) (lineTokens newText) hunk ↔
      (∀ i ∈ hunk.plan.filterMap (·.old?), i + 1 < (lineTokens oldText).length ∨ Closed oldText) ∧
        ∀ i ∈ hunk.plan.filterMap (·.new?), i + 1 < (lineTokens newText).length ∨ Closed newText := by
  have hlines : DisplaysExactly (lineTokens oldText) (lineTokens newText) hunk ↔ ∀ line ∈ hunk.plan,
      Shows (lineTokens oldText) (lineTokens newText) line
        (displayLine (lineTokens oldText) (lineTokens newText) line) := by
    rw [DisplaysExactly, toDisplay, List.forall₂_map_right_iff, List.forall₂_same]
  rw [hlines]
  constructor
  · refine fun hall => ⟨fun i hi => ?_, fun i hi => ?_⟩
    · obtain ⟨line, hline, hold⟩ := List.mem_filterMap.mp hi
      exact ((shows_iff (h.reads line hline)).mp (hall line hline)).1 i hold
    · obtain ⟨line, hline, hnew⟩ := List.mem_filterMap.mp hi
      exact ((shows_iff (h.reads line hline)).mp (hall line hline)).2 i hnew
  · rintro ⟨hold, hnew⟩ line hline
    refine (shows_iff (h.reads line hline)).mpr ⟨fun i hi => ?_, fun i hi => ?_⟩
    · exact hold i (List.mem_filterMap.mpr ⟨line, hline, hi⟩)
    · exact hnew i (List.mem_filterMap.mpr ⟨line, hline, hi⟩)

theorem lineTokens_ne_nil (h : ¬ Closed text) : 0 < (lineTokens text).length := by
  refine List.length_pos_iff.mpr fun hnil => h ?_
  have hflatten := flatten_lineTokens text
  rw [hnil] at hflatten
  rw [← hflatten]
  nofun

/-- The same, by the header of the hunk. -/
theorem displaysExactly_iff_header {oldText newText : Text} {raw : List Change}
    {hunks : List ComputedHunk} {hunk : ComputedHunk}
    (h : Faithful (lineTokens oldText) (lineTokens newText) raw hunks) (hhunk : hunk ∈ hunks) :
    DisplaysExactly (lineTokens oldText) (lineTokens newText) hunk ↔
      (hunk.change.before.start < hunk.change.before.stop →
        hunk.change.before.stop < (lineTokens oldText).length ∨ Closed oldText) ∧
      (hunk.change.after.start < hunk.change.after.stop →
        hunk.change.after.stop < (lineTokens newText).length ∨ Closed newText) := by
  have hrange : ∀ {start count n : Nat} {p : Prop},
      (∀ i ∈ List.range' start count, i + 1 < n ∨ p) ↔ (start < start + count → start + count < n ∨ p) := by
    intro start count n p
    constructor
    · intro hall hlt
      have hlast := hall (start + count - 1) (List.mem_range'_1.mpr (by omega))
      rwa [Nat.sub_add_cancel (by omega)] at hlast
    · intro hend i hi
      have hi' := List.mem_range'_1.mp hi
      exact (hend (by omega)).imp_left fun hlt => by omega
  obtain ⟨-, -, hold, hnew⟩ := h.header hunk hhunk
  rw [displaysExactly_iff (h.sound hhunk), hold, hnew, hrange, hrange]
  rfl

/-- The displayed lines of two texts are exactly their lines if and only if both texts end with a
newline, or more lines than a hunk has as context follow the last change. -/
theorem displays_iff (diff : LineDiff) (old new : Text) {raw : List Change}
    (hraw : diff.hunks (lineTokens old) (lineTokens new) = some raw) :
    ∃ hunks, compute diff old new = some hunks ∧
      ((∀ hunk ∈ hunks, DisplaysExactly (lineTokens old) (lineTokens new) hunk) ↔
        ∀ last ∈ raw.getLast?, last.before.stop + contextLines < (lineTokens old).length ∨
          Closed old ∧ Closed new) := by
  obtain ⟨hold, hnew⟩ := diff.fits hraw
  have hold' : (lineTokens old).length < 2 ^ 32 := by omega
  have hnew' : (lineTokens new).length < 2 ^ 32 := by omega
  have hchanged := diff.changed hraw
  have hfaithful := faithful_groupHunks hchanged hold' hnew'
  refine ⟨_, by rw [compute, hraw, Option.map_some], ?_⟩
  rw [Nat.mod_eq_of_lt hold', Nat.mod_eq_of_lt hnew']
  constructor
  · intro hall last hlast
    obtain ⟨hunk, hhunk, ⟨group, hcover, hgroup⟩, -⟩ := last_groupHunks hchanged hold' hnew' hlast
    obtain ⟨hshowOld, hshowNew⟩ := (displaysExactly_iff_header hfaithful hhunk).mp (hall hunk hhunk)
    obtain ⟨hstop, hstop'⟩ := hcover.stops last hgroup
    have hsteps := (hchanged.rest hlast).steps
    have hinside := (hchanged.rest hlast).before
    have hinside' := (hchanged.rest hlast).after
    obtain ⟨first, hfirst⟩ : ∃ first, group.head? = some first := by
      cases group with
      | nil => cases hgroup
      | cons first group => exact ⟨first, rfl⟩
    obtain ⟨hstart, hstart'⟩ := hcover.starts first hfirst
    have hbounds := hcover.changed.stops (List.mem_of_head? hfirst)
    rw [Classical.or_iff_not_imp_left]
    intro hnear
    simp only [contextLines] at hnear hstop hstop' hstart hstart'
    constructor
    · by_contra hopen
      have hlines := lineTokens_ne_nil hopen
      exact (hshowOld (by omega)).elim (by omega) hopen
    · by_contra hopen
      have hlines := lineTokens_ne_nil hopen
      exact (hshowNew (by omega)).elim (by omega) hopen
  · intro hend hunk hhunk
    rw [displaysExactly_iff_header hfaithful hhunk]
    obtain ⟨last, hlast⟩ : ∃ last, raw.getLast? = some last := by
      cases hlast : raw.getLast? with
      | none =>
        obtain rfl := List.getLast?_eq_none_iff.mp hlast
        cases hhunk
      | some last => exact ⟨last, rfl⟩
    obtain ⟨lastHunk, -, ⟨group, hcover, hgroup⟩, hmost⟩ :=
      last_groupHunks hchanged hold' hnew' hlast
    obtain ⟨hstop, hstop'⟩ := hcover.stops last hgroup
    have hsteps := (hchanged.rest hlast).steps
    have hmost := hmost hunk hhunk
    simp only [contextLines] at hend hstop hstop'
    rcases hend last hlast with hfar | ⟨hclosed, hclosed'⟩
    · exact ⟨fun _ => .inl (by omega), fun _ => .inl (by omega)⟩
    · exact ⟨fun _ => .inr hclosed, fun _ => .inr hclosed'⟩

theorem displays_line : ∃ hunks, compute wholeDiff [97, 10] [98, 10] = some hunks ∧
    ((∀ hunk ∈ hunks, DisplaysExactly (lineTokens [97, 10]) (lineTokens [98, 10]) hunk) ↔
      ∀ last ∈ [(⟨⟨0, 1⟩, ⟨0, 1⟩⟩ : Change)].getLast?,
        last.before.stop + contextLines < (lineTokens [97, 10]).length ∨
          Closed [97, 10] ∧ Closed [98, 10]) :=
  displays_iff wholeDiff [97, 10] [98, 10] (by decide)

/-- Two different lines without newline are shown as the same. -/
theorem last_lines_alike : compute wholeDiff [97] [98] = some [⟨1, 1, 1, 1, [.remove 0, .add 0]⟩] ∧
    (toDisplay ⟨1, 1, 1, 1, [.remove 0, .add 0]⟩ (lineTokens [97]) (lineTokens [98])).lines =
      [⟨.deletion, []⟩, ⟨.addition, []⟩] ∧
    ¬ DisplaysExactly (lineTokens [97]) (lineTokens [98]) ⟨1, 1, 1, 1, [.remove 0, .add 0]⟩ := by
  refine ⟨by decide, by decide, fun h => ?_⟩
  obtain ⟨⟨-, text, htext, hshown⟩, -⟩ := List.forall₂_cons.mp h
  obtain rfl : text = [97] := by simpa [lineTokens, splitInclusive] using htext.symm
  revert hshown
  decide

end Lines

end Tethys.Git
