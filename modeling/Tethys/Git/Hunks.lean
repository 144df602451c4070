import Tethys.Lib.Changes
import Tethys.Lib.Fields
import Mathlib.Data.List.Chain

/-!
# Hunks

A line diff gives the changes between two texts; `group_hunks` puts changes that are close to each
other into one hunk, with three lines of context around them. The plan of a hunk lists its lines
by their numbers in the two texts. The diff itself is a library, of which only its contract is
known. A text is the list of the bytes that encode it.
-/

namespace Tethys.Git

open Lib

abbrev Text := List UInt8

def newline : UInt8 := 10

def contextLines : Nat := 3

/-- One line of a hunk, by its place in the old or in the new text. -/
inductive PlanLine where
  | context (old new : Nat)
  | remove (old : Nat)
  | add (new : Nat)
  deriving DecidableEq

structure ComputedHunk where
  oldStart : Nat
  oldCount : Nat
  newStart : Nat
  newCount : Nat
  plan : List PlanLine
  deriving DecidableEq

/-- Lines with their newline. -/
def lineTokens (text : Text) : List Text :=
  if text.isEmpty then [] else splitInclusive newline text

theorem flatten_lineTokens (text : Text) : (lineTokens text).flatten = text := by
  cases text with
  | nil => rfl
  | cons b text => exact flatten_splitInclusive newline _

def looksBinary (bytes : Text) : Bool := (bytes.take 8192).any (· = 0)

/-- A line diff: it takes lists that are not too long, and between the changes it finds, which
ascend, the lists agree. -/
structure LineDiff where
  hunks : List Text → List Text → Option (List Change)
  takes : ∀ {old new}, old.length < 2 ^ 31 - 1 → new.length < 2 ^ 31 - 1 → (hunks old new).isSome
  fits : ∀ {old new raw}, hunks old new = some raw → old.length < 2 ^ 31 - 1 ∧ new.length < 2 ^ 31 - 1
  changed : ∀ {old new raw}, hunks old new = some raw → Changed old new 0 0 raw old.length new.length

/-! ## Grouping -/

def saturatingAdd (a b : Nat) : Nat := min (a + b) (2 ^ 32 - 1)

def merges (previous hunk : Change) : Bool :=
  hunk.before.start ≤ saturatingAdd previous.before.stop (2 * contextLines)

/-- A change joins the last group, or starts one. -/
def addToGroups (groups : List (List Change)) (hunk : Change) : List (List Change) :=
  match groups.getLast? with
  | some group =>
    if group.getLast?.any (merges · hunk) then groups.dropLast ++ [group ++ [hunk]]
    else groups ++ [[hunk]]
  | none => groups ++ [[hunk]]

/-- Lines of context, until the old text is at this line. -/
def contextUntil (old new stop : Nat) : List PlanLine :=
  (List.range (stop - old)).map fun i => .context (old + i) (new + i)

/-- The plan of a group, from a line of each text on. -/
def planGroup (oldHi : Nat) : Nat → Nat → List Change → List PlanLine
  | old, new, [] => contextUntil old new oldHi
  | old, new, hunk :: group =>
    contextUntil old new hunk.before.start ++
      (List.range' hunk.before.start (hunk.before.stop - hunk.before.start)).map .remove ++
      (List.range' hunk.after.start (hunk.after.stop - hunk.after.start)).map .add ++
      planGroup oldHi hunk.before.stop hunk.after.stop group

def computeHunk (oldLen newLen : Nat) (group : List Change) : ComputedHunk :=
  let first := group.head?.getD ⟨⟨0, 0⟩, ⟨0, 0⟩⟩
  let last := group.getLast?.getD ⟨⟨0, 0⟩, ⟨0, 0⟩⟩
  let oldLo := first.before.start - contextLines
  let oldHi := min (saturatingAdd last.before.stop contextLines) oldLen
  let newLo := first.after.start - contextLines
  let newHi := min (saturatingAdd last.after.stop contextLines) newLen
  { oldStart := oldLo + 1
    oldCount := oldHi - oldLo
    newStart := newLo + 1
    newCount := newHi - newLo
    plan := planGroup oldHi oldLo newLo group }

def groupHunks (raw : List Change) (oldLen newLen : Nat) : List ComputedHunk :=
  (raw.foldl addToGroups []).map (computeHunk oldLen newLen)

/-- The hunks between two texts; none if there are too many lines for the diff. -/
def compute (diff : LineDiff) (old new : Text) : Option (List ComputedHunk) :=
  (diff.hunks (lineTokens old) (lineTokens new)).map fun raw =>
    groupHunks raw ((lineTokens old).length % 2 ^ 32) ((lineTokens new).length % 2 ^ 32)

/-- The numbers of added and of removed lines. -/
def countChanges (hunks : List ComputedHunk) : Nat × Nat :=
  let lines := hunks.flatMap (·.plan)
  (lines.countP fun | .add _ => true | _ => false, lines.countP fun | .remove _ => true | _ => false)

/-! ## Groups -/

/-- Two groups are too far from each other to be merged. -/
def Apart (group next : List Change) : Prop :=
  ∀ a ∈ group.getLast?, ∀ b ∈ next.head?, merges a b = false

structure Grouped (groups : List (List Change)) : Prop where
  nonempty : ∀ group ∈ groups, group ≠ []
  apart : groups.IsChain Apart

theorem addToGroups_concat (groups : List (List Change)) (group : List Change) (hunk : Change) :
    addToGroups (groups ++ [group]) hunk =
      if group.getLast?.any (merges · hunk) then groups ++ [group ++ [hunk]]
      else groups ++ [group] ++ [[hunk]] := by
  simp [addToGroups]

theorem flatten_addToGroups (groups : List (List Change)) (hunk : Change) :
    (addToGroups groups hunk).flatten = groups.flatten ++ [hunk] := by
  obtain rfl | ⟨front, group, rfl⟩ := List.eq_nil_or_concat' groups
  · rfl
  · rw [addToGroups_concat]
    split <;> simp

theorem Grouped.add {groups : List (List Change)} (h : Grouped groups) (hunk : Change) :
    Grouped (addToGroups groups hunk) := by
  obtain rfl | ⟨front, group, rfl⟩ := List.eq_nil_or_concat' groups
  · exact ⟨by simp [addToGroups], by simp [addToGroups]⟩
  · obtain ⟨hnonempty, hapart⟩ := h
    have hgroup : group ≠ [] := hnonempty group (by simp)
    rw [addToGroups_concat]
    split
    · refine ⟨fun g hg => ?_, ?_⟩
      · rcases List.mem_append.mp hg with hg | hg
        · exact hnonempty g (List.mem_append_left _ hg)
        · simp_all
      · rw [List.isChain_append] at hapart ⊢
        refine ⟨hapart.1, by simp, fun g hg next hnext a ha b hb => ?_⟩
        obtain rfl : next = group ++ [hunk] := by simpa using hnext.symm
        rw [List.head?_append_of_ne_nil _ hgroup] at hb
        exact hapart.2.2 g hg group (by simp) a ha b hb
    · rename_i hmerges
      refine ⟨fun g hg => ?_, ?_⟩
      · rcases List.mem_append.mp hg with hg | hg
        · exact hnonempty g hg
        · simp_all
      · rw [List.isChain_append]
        refine ⟨hapart, by simp, fun g hg next hnext a ha b hb => ?_⟩
        obtain rfl : g = group := by simpa using hg.symm
        obtain rfl : next = [hunk] := by simpa using hnext.symm
        obtain rfl : b = hunk := by simpa using hb.symm
        simpa [Option.mem_def.mp ha] using hmerges

theorem grouped_foldl (raw : List Change) :
    Grouped (raw.foldl addToGroups []) ∧ (raw.foldl addToGroups []).flatten = raw := by
  induction raw using List.reverseRecOn with
  | nil => exact ⟨⟨by simp, by simp⟩, rfl⟩
  | append_singleton raw hunk ih =>
    rw [List.foldl_append, List.foldl_cons, List.foldl_nil, flatten_addToGroups, ih.2]
    exact ⟨ih.1.add hunk, rfl⟩

/-! ## The lines of a hunk -/

namespace PlanLine

def old? : PlanLine → Option Nat
  | context old _ | remove old => some old
  | add _ => none

def new? : PlanLine → Option Nat
  | context _ new | add new => some new
  | remove _ => none

end PlanLine

namespace ComputedHunk
variable (hunk : ComputedHunk)

/-- The lines of the two texts that the header of a hunk names. -/
def change : Change where
  before := ⟨hunk.oldStart - 1, hunk.oldStart - 1 + hunk.oldCount⟩
  after := ⟨hunk.newStart - 1, hunk.newStart - 1 + hunk.newCount⟩

/-- The lines of the plan in the old text. -/
def oldLines (old : List Text) : List Text := (hunk.plan.filterMap (·.old?)).filterMap fun i => old[i]?

def newLines (new : List Text) : List Text := (hunk.plan.filterMap (·.new?)).filterMap fun i => new[i]?

end ComputedHunk

section Plans
variable {old new : List Text} {o n o' n' : Nat} {group : List Change}

theorem old?_contextUntil (stop : Nat) :
    (contextUntil o n stop).filterMap (·.old?) = List.range' o (stop - o) := by
  rw [contextUntil, List.filterMap_map, List.range'_eq_map_range]
  exact congrFun List.filterMap_eq_map _

theorem new?_contextUntil (stop : Nat) :
    (contextUntil o n stop).filterMap (·.new?) = List.range' n (stop - o) := by
  rw [contextUntil, List.filterMap_map, List.range'_eq_map_range]
  exact congrFun List.filterMap_eq_map _

theorem old?_removes (l : List Nat) : (l.map PlanLine.remove).filterMap (·.old?) = l := by
  rw [List.filterMap_map]
  exact List.filterMap_some

theorem old?_adds (l : List Nat) : (l.map PlanLine.add).filterMap (·.old?) = [] := by
  rw [List.filterMap_map]
  exact List.filterMap_eq_nil_iff.mpr fun _ _ => rfl

theorem new?_removes (l : List Nat) : (l.map PlanLine.remove).filterMap (·.new?) = [] := by
  rw [List.filterMap_map]
  exact List.filterMap_eq_nil_iff.mpr fun _ _ => rfl

theorem new?_adds (l : List Nat) : (l.map PlanLine.add).filterMap (·.new?) = l := by
  rw [List.filterMap_map]
  exact List.filterMap_some

/-- The plan goes through the lines of the old text one by one, -/
theorem old?_planGroup (h : Changed old new o n group o' n') :
    (planGroup o' o n group).filterMap (·.old?) = List.range' o (o' - o) := by
  induction group generalizing o n with
  | nil => exact old?_contextUntil o'
  | cons hunk group ih =>
    obtain ⟨hgap, hbefore, hafter, hrest⟩ := h
    simp only [planGroup, List.filterMap_append, old?_contextUntil, old?_removes, old?_adds, ih hrest]
    rw [List.append_nil, range'_sub_append hgap.before hbefore,
      range'_sub_append (hgap.before.trans hbefore) hrest.le.1]

/-- and through those of the new text. -/
theorem new?_planGroup (h : Changed old new o n group o' n') :
    (planGroup o' o n group).filterMap (·.new?) = List.range' n (n' - n) := by
  induction group generalizing o n with
  | nil => rw [planGroup, new?_contextUntil, h.steps]
  | cons hunk group ih =>
    obtain ⟨hgap, hbefore, hafter, hrest⟩ := h
    simp only [planGroup, List.filterMap_append, new?_contextUntil, new?_removes, new?_adds, ih hrest]
    rw [List.append_nil, hgap.steps, range'_sub_append hgap.after hafter,
      range'_sub_append (hgap.after.trans hafter) hrest.le.2]

/-- A line of context is the same line in both texts. -/
theorem getElem?_of_context (h : Changed old new o n group o' n') {i j : Nat}
    (hline : .context i j ∈ planGroup o' o n group) : old[i]? = new[j]? := by
  have hcontext : ∀ {o n o' n'}, Agree old new o n o' n' → .context i j ∈ contextUntil o n o' →
      old[i]? = new[j]? := by
    intro o n o' n' hagree hmem
    simp only [contextUntil, List.mem_map, List.mem_range, PlanLine.context.injEq] at hmem
    obtain ⟨k, hk, rfl, rfl⟩ := hmem
    have hsteps := hagree.steps
    rw [← getElem?_slice (show o + k < o' by omega), hagree.same, getElem?_slice (by omega)]
  induction group generalizing o n with
  | nil => exact hcontext h hline
  | cons hunk group ih =>
    obtain ⟨hgap, hbefore, hafter, hrest⟩ := h
    simp only [planGroup, List.mem_append] at hline
    rcases hline with ((hline | hline) | hline) | hline
    · exact hcontext hgap hline
    · simp at hline
    · simp at hline
    · exact ih hrest hline

end Plans

/-! ## Hunks cover their group -/

section Covers
variable {old new : List Text}

/-- A hunk with the header of these lines, for the changes of a group, with the context before the
first and after the last of them. -/
structure Covers (old new : List Text) (group : List Change) (hunk : ComputedHunk) : Prop where
  oldStart : 1 ≤ hunk.oldStart
  newStart : 1 ≤ hunk.newStart
  changed : Changed old new hunk.change.before.start hunk.change.after.start group
    hunk.change.before.stop hunk.change.after.stop
  plan : hunk.plan =
    planGroup hunk.change.before.stop hunk.change.before.start hunk.change.after.start group
  starts : ∀ first ∈ group.head?,
    hunk.change.before.start = first.before.start - contextLines ∧
      hunk.change.after.start = first.after.start - contextLines
  stops : ∀ last ∈ group.getLast?,
    hunk.change.before.stop = min (last.before.stop + contextLines) old.length ∧
      hunk.change.after.stop = min (last.after.stop + contextLines) new.length

/-- The lists agree up to the context before the first change, or up to the end. -/
def Reaches (old new : List Text) (o n : Nat) : List Change → Prop
  | [] => Agree old new o n old.length new.length
  | c :: _ =>
    Agree old new o n (c.before.start - contextLines) (c.after.start - contextLines) ∧
      Agree old new (c.before.start - contextLines) (c.after.start - contextLines) c.before.start
        c.after.start

theorem reaches_first {raw : List Change} (h : Changed old new 0 0 raw old.length new.length) :
    Reaches old new 0 0 raw := by
  cases raw with
  | nil => exact h
  | cons c raw =>
    obtain ⟨hgap, -⟩ := h
    have hsteps : c.before.start = c.after.start := by simpa using hgap.steps
    have hfront := hgap.part (Nat.zero_le (c.before.start - contextLines)) (by omega)
    have hback := hgap.part (Nat.sub_le c.before.start contextLines) (by omega)
    simp only [Nat.zero_add] at hfront hback
    refine ⟨?_, ?_⟩
    · rwa [← hsteps]
    · rwa [← hsteps]

/-- After a change there is room for its context, and for that of the next one. -/
theorem reaches_next {raw : List Change} {o n : Nat}
    (h : Changed old new o n raw old.length new.length)
    (hapart : ∀ c ∈ raw.head?, o + 2 * contextLines < c.before.start) :
    Agree old new o n (min (o + contextLines) old.length) (min (n + contextLines) new.length) ∧
      Reaches old new (min (o + contextLines) old.length) (min (n + contextLines) new.length) raw := by
  cases raw with
  | nil =>
    have hsteps := h.steps
    have hbefore := h.before
    have hafter := h.after
    obtain ⟨k, hk⟩ : ∃ k, k = min contextLines (old.length - o) := ⟨_, rfl⟩
    have ho : min (o + contextLines) old.length = o + k := by omega
    have hn : min (n + contextLines) new.length = n + k := by omega
    have hfront := h.part (Nat.zero_le k) (by omega)
    have hback := h.part (show k ≤ old.length - o by omega) (by omega)
    rw [ho, hn]
    refine ⟨hfront, ?_⟩
    have hend : o + (old.length - o) = old.length ∧ n + (old.length - o) = new.length := by omega
    rwa [hend.1, hend.2] at hback
  | cons c raw =>
    obtain ⟨hgap, -⟩ := h
    have hfar : o + 2 * contextLines < c.before.start := hapart c rfl
    have hsteps := hgap.steps
    have hbefore := hgap.inBefore
    have hafter := hgap.inAfter
    have hle := hgap.after
    simp only [contextLines] at hfar ⊢
    have ho : min (o + 3) old.length = o + 3 := by omega
    have hn : min (n + 3) new.length = n + 3 := by omega
    obtain ⟨k, hk⟩ : ∃ k, c.before.start = o + k := ⟨c.before.start - o, by omega⟩
    have hk' : c.after.start = n + k := by omega
    have hfront := hgap.part (Nat.zero_le 3) (by omega)
    have hmiddle := hgap.part (show 3 ≤ k - 3 by omega) (by omega)
    have hback := hgap.part (show k - 3 ≤ k by omega) (by omega)
    have hlo : o + (k - 3) = c.before.start - 3 ∧ n + (k - 3) = c.after.start - 3 := by omega
    rw [hlo.1, hlo.2] at hmiddle hback
    rw [ho, hn]
    refine ⟨hfront, hmiddle, ?_⟩
    rwa [hk, hk'] at hback ⊢

/-- A group whose changes lie between the context before and after them makes up a hunk. -/
theorem covers_computeHunk {group : List Change} {first last : Change} (hfirst : group.head? = some first)
    (hlast : group.getLast? = some last) (hold : old.length < 2 ^ 32) (hnew : new.length < 2 ^ 32)
    (h : Changed old new (first.before.start - contextLines) (first.after.start - contextLines) group
      (min (last.before.stop + contextLines) old.length)
      (min (last.after.stop + contextLines) new.length)) :
    (computeHunk old.length new.length group).change =
        ⟨⟨first.before.start - contextLines, min (last.before.stop + contextLines) old.length⟩,
          ⟨first.after.start - contextLines, min (last.after.stop + contextLines) new.length⟩⟩ ∧
      Covers old new group (computeHunk old.length new.length group) := by
  have hbefore : min (saturatingAdd last.before.stop contextLines) old.length =
      min (last.before.stop + contextLines) old.length := by
    rw [saturatingAdd]
    omega
  have hafter : min (saturatingAdd last.after.stop contextLines) new.length =
      min (last.after.stop + contextLines) new.length := by
    rw [saturatingAdd]
    omega
  have hchange : (computeHunk old.length new.length group).change =
      ⟨⟨first.before.start - contextLines, min (last.before.stop + contextLines) old.length⟩,
        ⟨first.after.start - contextLines, min (last.after.stop + contextLines) new.length⟩⟩ := by
    have hle := h.le
    simp only [ComputedHunk.change, computeHunk, hfirst, hlast, Option.getD_some, hbefore, hafter,
      Nat.add_sub_cancel, Nat.add_sub_cancel' hle.1, Nat.add_sub_cancel' hle.2]
  refine ⟨hchange, Nat.le_add_left _ _, Nat.le_add_left _ _, ?_, ?_, ?_, ?_⟩
  · rwa [hchange]
  · rw [hchange]
    simp only [computeHunk, hfirst, hlast, Option.getD_some, hbefore]
  · rw [hchange, hfirst]
    rintro _ ⟨⟩
    exact ⟨rfl, rfl⟩
  · rw [hchange, hlast]
    rintro _ ⟨⟩
    exact ⟨rfl, rfl⟩

/-- The hunks are changes between the texts, as the ones they are made of. -/
theorem covers_groups {groups : List (List Change)} {o n co cn : Nat} (hgrouped : Grouped groups)
    (hold : old.length < 2 ^ 32) (hnew : new.length < 2 ^ 32)
    (h : Changed old new o n groups.flatten old.length new.length)
    (hreach : Reaches old new co cn groups.flatten) :
    Changed old new co cn ((groups.map (computeHunk old.length new.length)).map (·.change)) old.length
        new.length ∧
      ∀ group ∈ groups, Covers old new group (computeHunk old.length new.length group) := by
  induction groups generalizing o n co cn with
  | nil => exact ⟨hreach, by simp⟩
  | cons group groups ih =>
    obtain ⟨hnonempty, hapart⟩ := hgrouped
    rw [List.isChain_cons] at hapart
    obtain ⟨first, tail, rfl⟩ := List.exists_cons_of_ne_nil (hnonempty group List.mem_cons_self)
    set last := (first :: tail).getLast (by simp) with hlast
    have hlast? : (first :: tail).getLast? = some last := List.getLast?_eq_some_getLast _
    rw [List.flatten_cons] at h hreach
    obtain ⟨hgroup, hrest⟩ := h.split (by simp)
    have hfar : ∀ c ∈ groups.flatten.head?, last.before.stop + 2 * contextLines < c.before.start := by
      intro c hc
      cases groups with
      | nil => cases hc
      | cons next groups =>
        have hnext : next ≠ [] := hnonempty next (by simp)
        have hinside := (hrest.stops (List.mem_of_head? hc))
        rw [List.flatten_cons, List.head?_append_of_ne_nil _ hnext] at hc
        have hmerges := of_decide_eq_false (hapart.1 next (by simp) last hlast? c hc)
        rw [saturatingAdd] at hmerges
        omega
    obtain ⟨hcontext, hreach'⟩ := reaches_next hrest hfar
    obtain ⟨hago, hlo⟩ := hreach
    have hinner : Changed old new (first.before.start - contextLines)
        (first.after.start - contextLines) (first :: tail)
        (min (last.before.stop + contextLines) old.length)
        (min (last.after.stop + contextLines) new.length) :=
      Changed.extend ⟨hlo, hgroup.2⟩ hcontext
    obtain ⟨hchange, hcovers⟩ := covers_computeHunk rfl hlast? hold hnew hinner
    obtain ⟨hchanged, hall⟩ := ih ⟨fun g hg => hnonempty g (List.mem_cons_of_mem _ hg), hapart.2⟩ hrest
      hreach'
    refine ⟨?_, List.forall_mem_cons.mpr ⟨hcovers, hall⟩⟩
    rw [List.map_cons, List.map_cons, hchange]
    exact ⟨hago, hinner.le.1, hinner.le.2, hchanged⟩

end Covers

/-! ## What the hunks say about the texts -/

/-- The hunks ascend, their headers are those of their lines, and each of them can be made in the
old text and taken back in the new one. -/
structure Faithful (old new : List Text) (raw : List Change) (hunks : List ComputedHunk) : Prop where
  ascending : hunks.Pairwise fun hunk next =>
    hunk.oldStart + hunk.oldCount ≤ next.oldStart ∧ hunk.newStart + hunk.newCount ≤ next.newStart
  header : ∀ hunk ∈ hunks, 1 ≤ hunk.oldStart ∧ 1 ≤ hunk.newStart ∧
    hunk.plan.filterMap (·.old?) = List.range' (hunk.oldStart - 1) hunk.oldCount ∧
    hunk.plan.filterMap (·.new?) = List.range' (hunk.newStart - 1) hunk.newCount
  inside : ∀ hunk ∈ hunks, hunk.oldStart - 1 + hunk.oldCount ≤ old.length ∧
    hunk.newStart - 1 + hunk.newCount ≤ new.length
  context : ∀ hunk ∈ hunks, ∀ i j, .context i j ∈ hunk.plan → old[i]? = new[j]?
  made : replaceFrom old 0 (hunks.map fun hunk => (hunk.change.before, hunk.newLines new)) = new
  reverted : ∀ chosen : ComputedHunk → Bool,
    replaceFrom new 0 ((hunks.filter chosen).map fun hunk => (hunk.change.after, hunk.oldLines old)) =
      replaceFrom old 0 ((hunks.filter fun hunk => !chosen hunk).map fun hunk =>
        (hunk.change.before, hunk.newLines new))
  counted : countChanges hunks = ((raw.map fun c => c.after.stop - c.after.start).sum,
    (raw.map fun c => c.before.stop - c.before.start).sum)

section Hunks
variable {old new : List Text} {raw group : List Change} {hunk : ComputedHunk}

/-- The lines of a hunk are those that its header names. -/
theorem Faithful.lines_eq {hunks : List ComputedHunk} (h : Faithful old new raw hunks)
    (hhunk : hunk ∈ hunks) :
    hunk.oldLines old = slice old hunk.change.before.start hunk.change.before.stop ∧
      hunk.newLines new = slice new hunk.change.after.start hunk.change.after.stop := by
  obtain ⟨-, -, hold, hnew⟩ := h.header hunk hhunk
  obtain ⟨hinOld, hinNew⟩ := h.inside hunk hhunk
  have hlines : ∀ (l : List Text) (i n : Nat), i + n ≤ l.length →
      (List.range' i n).filterMap (fun j => l[j]?) = slice l i (i + n) := fun l i n hin => by
    have hslice := filterMap_range'_eq_slice (Nat.le_add_right i n) hin
    rwa [Nat.add_sub_cancel_left] at hslice
  rw [ComputedHunk.oldLines, hold, ComputedHunk.newLines, hnew]
  exact ⟨hlines old _ _ hinOld, hlines new _ _ hinNew⟩

theorem Covers.header (h : Covers old new group hunk) :
    hunk.plan.filterMap (·.old?) = List.range' (hunk.oldStart - 1) hunk.oldCount ∧
      hunk.plan.filterMap (·.new?) = List.range' (hunk.newStart - 1) hunk.newCount := by
  have hchanged := h.changed
  have hplan := h.plan
  constructor
  · rw [hplan, old?_planGroup hchanged]
    simp [ComputedHunk.change]
  · rw [hplan, new?_planGroup hchanged]
    simp [ComputedHunk.change]

theorem Covers.oldLines (h : Covers old new group hunk) :
    hunk.oldLines old = slice old hunk.change.before.start hunk.change.before.stop := by
  have hchanged := h.changed
  have hplan := h.plan
  rw [ComputedHunk.oldLines, hplan, old?_planGroup hchanged]
  exact filterMap_range'_eq_slice hchanged.le.1 hchanged.inside.1

theorem Covers.newLines (h : Covers old new group hunk) :
    hunk.newLines new = slice new hunk.change.after.start hunk.change.after.stop := by
  have hchanged := h.changed
  have hplan := h.plan
  rw [ComputedHunk.newLines, hplan, new?_planGroup hchanged]
  exact filterMap_range'_eq_slice hchanged.le.2 hchanged.inside.2

theorem countP_planGroup (oldHi o n : Nat) (group : List Change) :
    (planGroup oldHi o n group).countP (fun | .add _ => true | _ => false) =
        (group.map fun c => c.after.stop - c.after.start).sum ∧
      (planGroup oldHi o n group).countP (fun | .remove _ => true | _ => false) =
        (group.map fun c => c.before.stop - c.before.start).sum := by
  induction group generalizing o n with
  | nil => simp [planGroup, contextUntil, List.countP_map, Function.comp_def]
  | cons c group ih =>
    simp [planGroup, contextUntil, List.countP_map, List.countP_append, Function.comp_def, ih]

theorem countChanges_eq {groups : List (List Change)} {f : List Change → ComputedHunk}
    (h : ∀ group ∈ groups, Covers old new group (f group)) :
    countChanges (groups.map f) = ((groups.flatten.map fun c => c.after.stop - c.after.start).sum,
      (groups.flatten.map fun c => c.before.stop - c.before.start).sum) := by
  induction groups with
  | nil => rfl
  | cons group groups ih =>
    rw [List.forall_mem_cons] at h
    obtain ⟨hcover, hrest⟩ := h
    have hplan := hcover.plan
    have hcount := Prod.ext_iff.mp (ih hrest)
    simp only [countChanges] at hcount
    simp only [countChanges, List.map_cons, List.flatMap_cons, List.countP_append, hplan,
      (countP_planGroup _ _ _ _).1, (countP_planGroup _ _ _ _).2, hcount.1, hcount.2,
      List.flatten_cons, List.map_append, List.sum_append]

/-- The hunks that `group_hunks` makes of the changes between two texts are faithful to them. -/
theorem faithful_groupHunks (h : Changed old new 0 0 raw old.length new.length)
    (hold : old.length < 2 ^ 32) (hnew : new.length < 2 ^ 32) :
    Faithful old new raw (groupHunks raw old.length new.length) := by
  obtain ⟨hgrouped, hflatten⟩ := grouped_foldl raw
  rw [groupHunks]
  set groups := raw.foldl addToGroups [] with hgroups
  rw [← hflatten] at h
  obtain ⟨hchanged, hcovers⟩ := covers_groups hgrouped hold hnew h (reaches_first h)
  set hunks := groups.map (computeHunk old.length new.length) with hhunks
  have hall : ∀ hunk ∈ hunks, ∃ group, Covers old new group hunk := by
    intro hunk hhunk
    obtain ⟨group, hgroup, rfl⟩ := List.mem_map.mp hhunk
    exact ⟨group, hcovers group hgroup⟩
  have hmake : ∀ hs, hs ⊆ hunks → replaceFrom old 0 (hs.map fun hunk =>
      (hunk.change.before, hunk.newLines new)) = makeAll old new 0 (hs.map (·.change)) := by
    intro hs hsub
    rw [makeAll, List.map_map]
    congr 1
    refine List.map_congr_left fun hunk hhunk => ?_
    obtain ⟨group, hcovers⟩ := hall hunk (hsub hhunk)
    rw [hcovers.newLines]
    rfl
  have hback : ∀ hs, hs ⊆ hunks → replaceFrom new 0 (hs.map fun hunk =>
      (hunk.change.after, hunk.oldLines old)) = takeBack old new 0 (hs.map (·.change)) := by
    intro hs hsub
    rw [takeBack, List.map_map]
    congr 1
    refine List.map_congr_left fun hunk hhunk => ?_
    obtain ⟨group, hcovers⟩ := hall hunk (hsub hhunk)
    rw [hcovers.oldLines]
    rfl
  have hpairwise := List.pairwise_map.mp hchanged.pairwise
  have hstart : ∀ hunk ∈ hunks, 1 ≤ hunk.oldStart ∧ 1 ≤ hunk.newStart := fun hunk hhunk => by
    obtain ⟨group, hcover⟩ := hall hunk hhunk
    exact ⟨hcover.oldStart, hcover.newStart⟩
  constructor
  case ascending =>
    refine hpairwise.imp_of_mem fun {hunk next} hhunk hnext hle => ?_
    have hstart₁ := hstart hunk hhunk
    have hstart₂ := hstart next hnext
    simp only [ComputedHunk.change] at hle
    omega
  case header =>
    intro hunk hhunk
    obtain ⟨group, hcovers⟩ := hall hunk hhunk
    exact ⟨(hstart hunk hhunk).1, (hstart hunk hhunk).2, hcovers.header⟩
  case inside =>
    intro hunk hhunk
    obtain ⟨group, hcover⟩ := hall hunk hhunk
    exact hcover.changed.inside
  case context =>
    intro hunk hhunk i j hline
    obtain ⟨group, hcover⟩ := hall hunk hhunk
    rw [hcover.plan] at hline
    exact getElem?_of_context hcover.changed hline
  case made =>
    rw [hmake hunks (List.Subset.refl _), hchanged.makeAll_eq, List.drop_zero]
  case reverted =>
    intro chosen
    rw [hmake _ (List.filter_subset_self _), hback _ (List.filter_subset_self _)]
    exact hchanged.takeBack_filter chosen
  case counted =>
    rw [countChanges_eq hcovers, hflatten]

/-- The last hunk is the one of the last change, and no hunk goes beyond it. -/
theorem last_groupHunks (h : Changed old new 0 0 raw old.length new.length)
    (hold : old.length < 2 ^ 32) (hnew : new.length < 2 ^ 32) {last : Change}
    (hlast : raw.getLast? = some last) :
    ∃ hunk ∈ groupHunks raw old.length new.length,
      (∃ group, Covers old new group hunk ∧ group.getLast? = some last) ∧
      ∀ other ∈ groupHunks raw old.length new.length,
        other.change.before.stop ≤ hunk.change.before.stop ∧
          other.change.after.stop ≤ hunk.change.after.stop := by
  obtain ⟨hgrouped, hflatten⟩ := grouped_foldl raw
  rw [groupHunks]
  set groups := raw.foldl addToGroups [] with hgroups
  rw [← hflatten] at h hlast
  obtain ⟨hchanged, hcovers⟩ := covers_groups hgrouped hold hnew h (reaches_first h)
  obtain hnil | ⟨front, group, hconcat⟩ := List.eq_nil_or_concat' groups
  · rw [hnil] at hlast
    cases hlast
  · rw [hconcat] at hlast hchanged hcovers ⊢
    have hgroup : group ≠ [] := hgrouped.nonempty group (by simp [hconcat])
    have hcover := hcovers group (by simp)
    rw [List.flatten_append, List.flatten_singleton, List.getLast?_append_of_ne_nil _ hgroup] at hlast
    refine ⟨_, List.mem_map_of_mem (by simp), ⟨group, hcover, hlast⟩, ?_⟩
    rw [List.map_append, List.map_append, List.map_singleton, List.map_singleton] at hchanged
    rw [List.map_append, List.map_singleton]
    intro other hother
    rcases List.mem_append.mp hother with hother | hother
    · have hbefore := (List.pairwise_append.mp hchanged.pairwise).2.2 other.change
        (List.mem_map_of_mem hother) _ (List.mem_singleton_self _)
      have hle := hcover.changed.le
      exact ⟨hbefore.1.trans hle.1, hbefore.2.trans hle.2⟩
    · obtain rfl := List.mem_singleton.mp hother
      exact ⟨le_rfl, le_rfl⟩

/-- A line of each text at least lies between a hunk and the next one. -/
def Separated (hunk next : ComputedHunk) : Prop :=
  hunk.change.before.stop < next.change.before.start ∧ hunk.change.after.stop < next.change.after.start

theorem separated_groups {groups : List (List Change)} {o n : Nat} (hgrouped : Grouped groups)
    (hold : old.length < 2 ^ 32) (h : Changed old new o n groups.flatten old.length new.length)
    (hcovers : ∀ group ∈ groups, Covers old new group (computeHunk old.length new.length group)) :
    (groups.map (computeHunk old.length new.length)).IsChain Separated := by
  induction groups generalizing o n with
  | nil => exact .nil
  | cons group groups ih =>
    obtain ⟨hnonempty, hapart⟩ := hgrouped
    obtain ⟨hcover, hcovers⟩ := List.forall_mem_cons.mp hcovers
    have hgroup := hnonempty group List.mem_cons_self
    have hlast := List.getLast?_eq_some_getLast hgroup
    set last := group.getLast hgroup
    rw [List.isChain_cons] at hapart
    rw [List.flatten_cons] at h
    have hrest : Changed old new last.before.stop last.after.stop groups.flatten old.length new.length :=
      (h.split hgroup).2
    rw [List.map_cons, List.isChain_cons]
    refine ⟨fun next hnext => ?_, ih ⟨fun g hg => hnonempty g (List.mem_cons_of_mem _ hg), hapart.2⟩
      hrest hcovers⟩
    cases groups with
    | nil => cases hnext
    | cons group' groups =>
      obtain rfl := Option.some.inj hnext
      obtain ⟨first, tail, rfl⟩ := List.exists_cons_of_ne_nil (hnonempty group' (by simp))
      rw [List.flatten_cons, List.cons_append] at hrest
      -- the gap between the changes is wider than the context of both hunks
      have hgap := hrest.1.steps
      have hfar := of_decide_eq_false (hapart.1 _ rfl last hlast first rfl)
      have hinside := hrest.stops List.mem_cons_self
      have hstops := hcover.stops last hlast
      have hstarts := (hcovers _ List.mem_cons_self).starts first rfl
      rw [saturatingAdd] at hfar
      unfold Separated
      simp only [contextLines] at hfar hstops hstarts
      omega

theorem separated_groupHunks (h : Changed old new 0 0 raw old.length new.length)
    (hold : old.length < 2 ^ 32) (hnew : new.length < 2 ^ 32) :
    (groupHunks raw old.length new.length).Pairwise Separated := by
  obtain ⟨hgrouped, hflatten⟩ := grouped_foldl raw
  rw [← hflatten] at h
  obtain ⟨-, hcovers⟩ := covers_groups hgrouped hold hnew h (reaches_first h)
  have htrans : IsTrans ComputedHunk Separated := ⟨fun hunk next last hnext hlast => by
    simp only [Separated, ComputedHunk.change] at hnext hlast ⊢
    omega⟩
  exact List.isChain_iff_pairwise.mp (separated_groups hgrouped hold h hcovers)

/-- The plan of a group ends with the context after its last change. -/
theorem exists_planGroup_eq {last : Change} (oldHi o n : Nat) (hlast : group.getLast? = some last) :
    ∃ front, planGroup oldHi o n group =
      front ++ contextUntil last.before.stop last.after.stop oldHi := by
  induction group generalizing o n with
  | nil => cases hlast
  | cons c group ih =>
    cases group with
    | nil =>
      obtain rfl := Option.some.inj hlast
      exact ⟨_, rfl⟩
    | cons d group =>
      rw [List.getLast?_cons_cons] at hlast
      obtain ⟨front, hfront⟩ := ih c.before.stop c.after.stop hlast
      exact ⟨_, by rw [planGroup, hfront, ← List.append_assoc]⟩

/-- A hunk begins and ends with context, or where the new text does. -/
structure Anchored (new : List Text) (hunk : ComputedHunk) : Prop where
  starts : (∃ i j, hunk.plan.head? = some (.context i j)) ∨ hunk.change.after.start = 0
  stops : (∃ i j, hunk.plan.getLast? = some (.context i j)) ∨ hunk.change.after.stop = new.length

theorem Covers.anchored (h : Covers old new group hunk) (hgroup : group ≠ []) : Anchored new hunk := by
  obtain ⟨first, tail, rfl⟩ := List.exists_cons_of_ne_nil hgroup
  have hlast := List.getLast?_eq_some_getLast hgroup
  set last := (first :: tail).getLast hgroup
  have hstarts := h.starts first rfl
  have hstops := h.stops last hlast
  have hbefore := h.changed.1.steps
  have hafter := (h.changed.rest hlast).steps
  have hle := (h.changed.rest hlast).before
  have hle' := (h.changed.rest hlast).after
  have hfront := h.changed.1.after
  simp only [contextLines] at hstarts hstops
  constructor
  · by_cases hcontext : hunk.change.before.start < first.before.start
    · refine .inl ⟨hunk.change.before.start, hunk.change.after.start, ?_⟩
      obtain ⟨k, hk⟩ := Nat.exists_eq_add_of_lt hcontext
      rw [h.plan, planGroup, contextUntil, hk, Nat.add_assoc, Nat.add_sub_cancel_left,
        List.range_succ_eq_map]
      rfl
    · exact .inr (by omega)
  · obtain ⟨front, hplan⟩ := exists_planGroup_eq hunk.change.before.stop hunk.change.before.start
      hunk.change.after.start hlast
    by_cases hcontext : last.before.stop < hunk.change.before.stop
    · obtain ⟨k, hk⟩ := Nat.exists_eq_add_of_lt hcontext
      refine .inl ⟨last.before.stop + k, last.after.stop + k, ?_⟩
      rw [h.plan, hplan, contextUntil, hk, Nat.add_assoc, Nat.add_sub_cancel_left, List.range_succ,
        List.map_append, ← List.append_assoc]
      exact List.getLast?_concat
    · exact .inr (by omega)

theorem anchored_groupHunks (h : Changed old new 0 0 raw old.length new.length)
    (hold : old.length < 2 ^ 32) (hnew : new.length < 2 ^ 32) :
    ∀ hunk ∈ groupHunks raw old.length new.length, Anchored new hunk := by
  obtain ⟨hgrouped, hflatten⟩ := grouped_foldl raw
  rw [← hflatten] at h
  obtain ⟨-, hcovers⟩ := covers_groups hgrouped hold hnew h (reaches_first h)
  intro hunk hhunk
  obtain ⟨group, hgroup, rfl⟩ := List.mem_map.mp hhunk
  exact (hcovers group hgroup).anchored (hgrouped.nonempty group hgroup)

section Compute
variable {diff : LineDiff} {oldText newText : Text}

theorem lengths_lt (hraw : diff.hunks (lineTokens oldText) (lineTokens newText) = some raw) :
    (lineTokens oldText).length < 2 ^ 32 ∧ (lineTokens newText).length < 2 ^ 32 := by
  obtain ⟨hold, hnew⟩ := diff.fits hraw
  omega

/-- The numbers of lines are not cut off. -/
theorem compute_eq (hraw : diff.hunks (lineTokens oldText) (lineTokens newText) = some raw) :
    compute diff oldText newText =
      some (groupHunks raw (lineTokens oldText).length (lineTokens newText).length) := by
  obtain ⟨hold, hnew⟩ := lengths_lt hraw
  rw [compute, hraw, Option.map_some, Nat.mod_eq_of_lt hold, Nat.mod_eq_of_lt hnew]

theorem exists_raw_of_compute {hunks : List ComputedHunk}
    (h : compute diff oldText newText = some hunks) :
    ∃ raw, diff.hunks (lineTokens oldText) (lineTokens newText) = some raw ∧
      hunks = groupHunks raw (lineTokens oldText).length (lineTokens newText).length := by
  obtain ⟨raw, hraw, -⟩ := Option.map_eq_some_iff.mp h
  exact ⟨raw, hraw, Option.some.inj (h.symm.trans (compute_eq hraw))⟩

theorem faithful_of_compute {hunks : List ComputedHunk} (h : compute diff oldText newText = some hunks) :
    ∃ raw, diff.hunks (lineTokens oldText) (lineTokens newText) = some raw ∧
      Faithful (lineTokens oldText) (lineTokens newText) raw hunks := by
  obtain ⟨raw, hraw, rfl⟩ := exists_raw_of_compute h
  obtain ⟨hold, hnew⟩ := lengths_lt hraw
  exact ⟨raw, hraw, faithful_groupHunks (diff.changed hraw) hold hnew⟩

theorem compute_separated {hunks : List ComputedHunk} (h : compute diff oldText newText = some hunks) :
    hunks.Pairwise Separated ∧ ∀ hunk ∈ hunks, Anchored (lineTokens newText) hunk := by
  obtain ⟨raw, hraw, rfl⟩ := exists_raw_of_compute h
  obtain ⟨hold, hnew⟩ := lengths_lt hraw
  exact ⟨separated_groupHunks (diff.changed hraw) hold hnew,
    anchored_groupHunks (diff.changed hraw) hold hnew⟩

end Compute

/-- The hunks of two texts that the diff takes are faithful to the lines of these texts. -/
theorem compute_faithful (diff : LineDiff) (old new : Text) {raw : List Change}
    (hraw : diff.hunks (lineTokens old) (lineTokens new) = some raw) :
    ∃ hunks, compute diff old new = some hunks ∧
      Faithful (lineTokens old) (lineTokens new) raw hunks ∧
      (lineTokens old).flatten = old ∧ (lineTokens new).flatten = new := by
  obtain ⟨hold, hnew⟩ := lengths_lt hraw
  exact ⟨_, compute_eq hraw, faithful_groupHunks (diff.changed hraw) hold hnew, flatten_lineTokens old,
    flatten_lineTokens new⟩

/-- The change that replaces everything, if there is anything to replace. -/
def wholeChange (old new : List Text) : List Change :=
  if old = new then [] else [⟨⟨0, old.length⟩, ⟨0, new.length⟩⟩]

theorem changed_wholeChange (old new : List Text) :
    Changed old new 0 0 (wholeChange old new) old.length new.length := by
  unfold wholeChange
  split_ifs with hsame
  · subst hsame
    exact ⟨Nat.zero_le _, Nat.zero_le _, le_rfl, le_rfl, rfl⟩
  · exact ⟨⟨le_rfl, le_rfl, Nat.zero_le _, Nat.zero_le _, by simp⟩, Nat.zero_le _, Nat.zero_le _,
      le_rfl, le_rfl, le_rfl, le_rfl, by simp⟩

/-- The diff that finds this change. -/
def wholeDiff : LineDiff where
  hunks old new :=
    if old.length < 2 ^ 31 - 1 ∧ new.length < 2 ^ 31 - 1 then some (wholeChange old new) else none
  takes hold hnew := by rw [if_pos ⟨hold, hnew⟩]; rfl
  fits h := by
    by_contra hfits
    rw [if_neg hfits] at h
    cases h
  changed {old new raw} h := by
    split_ifs at h
    obtain rfl := Option.some.inj h
    exact changed_wholeChange old new

def threeLines : List Text := [[97, 10], [98, 10], [99, 10]]

def otherEnds : List Text := [[120, 10], [98, 10], [121, 10]]

/-- A diff that finds the two changes between these lines. -/
def endsDiff : LineDiff where
  hunks old new :=
    if old = threeLines ∧ new = otherEnds then some [⟨⟨0, 1⟩, ⟨0, 1⟩⟩, ⟨⟨2, 3⟩, ⟨2, 3⟩⟩]
    else wholeDiff.hunks old new
  takes hold hnew := by
    split_ifs
    · rfl
    · exact wholeDiff.takes hold hnew
  fits h := by
    split_ifs at h with hlines
    · obtain ⟨rfl, rfl⟩ := hlines
      decide
    · exact wholeDiff.fits h
  changed h := by
    split_ifs at h with hlines
    · obtain ⟨rfl, rfl⟩ := hlines
      obtain rfl := Option.some.inj h
      exact ⟨⟨by decide, by decide, by decide, by decide, rfl⟩, by decide, by decide,
        ⟨by decide, by decide, by decide, by decide, rfl⟩, by decide, by decide,
        ⟨by decide, by decide, by decide, by decide, rfl⟩⟩
    · exact wholeDiff.changed h

/-- Two changes that are one line apart are merged into one hunk. -/
theorem compute_faithful_lines :
    ∃ hunks, compute endsDiff threeLines.flatten otherEnds.flatten = some hunks ∧
      hunks = [⟨1, 3, 1, 3, [.remove 0, .add 0, .context 1 1, .remove 2, .add 2]⟩] ∧
      Faithful (lineTokens threeLines.flatten) (lineTokens otherEnds.flatten)
        [⟨⟨0, 1⟩, ⟨0, 1⟩⟩, ⟨⟨2, 3⟩, ⟨2, 3⟩⟩] hunks ∧
      (lineTokens threeLines.flatten).flatten = threeLines.flatten ∧
      (lineTokens otherEnds.flatten).flatten = otherEnds.flatten := by
  have hraw : endsDiff.hunks (lineTokens threeLines.flatten) (lineTokens otherEnds.flatten) =
      some [⟨⟨0, 1⟩, ⟨0, 1⟩⟩, ⟨⟨2, 3⟩, ⟨2, 3⟩⟩] := by decide
  have hmerged : compute endsDiff threeLines.flatten otherEnds.flatten =
      some [⟨1, 3, 1, 3, [.remove 0, .add 0, .context 1 1, .remove 2, .add 2]⟩] := by decide
  obtain ⟨hunks, hcompute, hfaithful, hlines⟩ := compute_faithful endsDiff _ _ hraw
  exact ⟨hunks, hcompute, Option.some.inj (hcompute.symm.trans hmerged), hfaithful, hlines⟩

end Hunks

end Tethys.Git
