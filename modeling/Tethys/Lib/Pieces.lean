import Tethys.Lib.Text
import Mathlib.Tactic.Common

/-!
# The pieces of a text

A text is cut at a separator and its empty pieces are left out, so that separators may be doubled or
stand at an end. White space is trimmed from the first and from the last piece only, as no separator
is white space.
-/

namespace Tethys.Lib

section Pieces
variable {α : Type*} [DecidableEq α] {sep : α} {a b l part : List α} {parts : List (List α)}

/-- The pieces between the separators that are not empty. -/
def pieces (sep : α) (l : List α) : List (List α) := (l.splitOn sep).filter (· ≠ [])

theorem pieces_append_cons (a b : List α) :
    pieces sep (a ++ sep :: b) = pieces sep a ++ pieces sep b := by
  rw [pieces, List.splitOn_append_cons_self, List.filter_append, pieces, pieces]

theorem pieces_of_notMem (h : sep ∉ a) : pieces sep a = [a].filter (· ≠ []) := by
  rw [pieces, List.splitOn_eq_singleton h]

@[simp] theorem pieces_nil : pieces sep [] = [] := by
  rw [pieces_of_notMem List.not_mem_nil]
  rfl

@[simp] theorem pieces_cons_self (b : List α) : pieces sep (sep :: b) = pieces sep b := by
  have h : pieces sep ([] ++ sep :: b) = pieces sep [] ++ pieces sep b := pieces_append_cons [] b
  rwa [List.nil_append, pieces_nil, List.nil_append] at h

theorem pieces_replicate (n : Nat) (b : List α) :
    pieces sep (List.replicate n sep ++ b) = pieces sep b := by
  induction n with
  | zero => rfl
  | succ n ih => rw [List.replicate_succ, List.cons_append, pieces_cons_self, ih]

/-- A piece ends where a separator stands, or at the end. -/
theorem pieces_append_of_head (h : sep ∉ a) (hb : ∀ c ∈ b.head?, c = sep) :
    pieces sep (a ++ b) = [a].filter (· ≠ []) ++ pieces sep b := by
  cases b with
  | nil => rw [List.append_nil, pieces_of_notMem h, pieces_nil, List.append_nil]
  | cons c b =>
    obtain rfl : c = sep := hb c rfl
    rw [pieces_append_cons, pieces_of_notMem h, pieces_cons_self]

theorem notMem_of_mem_splitOn (h : part ∈ l.splitOn sep) : sep ∉ part := by
  induction l generalizing part with
  | nil =>
    obtain rfl := List.mem_singleton.mp (by simpa using h)
    exact List.not_mem_nil
  | cons c l ih =>
    rw [List.splitOn_cons_eq_if_modifyHead] at h
    split_ifs at h with hc
    · rcases List.mem_cons.mp h with rfl | h
      · exact List.not_mem_nil
      · exact ih h
    · obtain ⟨first, rest, hsplit⟩ := List.exists_cons_of_ne_nil (List.splitOn_ne_nil sep l)
      rw [hsplit] at ih
      rw [hsplit, List.modifyHead_cons] at h
      rcases List.mem_cons.mp h with rfl | h
      · have hne : sep ≠ c := fun heq => hc (beq_iff_eq.mpr heq.symm)
        exact List.not_mem_cons_of_ne_of_not_mem hne (ih List.mem_cons_self)
      · exact ih (List.mem_cons_of_mem _ h)

theorem length_splitOn (sep : α) (l : List α) : (l.splitOn sep).length = l.count sep + 1 := by
  induction l with
  | nil => rfl
  | cons c l ih =>
    rw [List.splitOn_cons_eq_if_modifyHead, List.count_cons]
    split_ifs with hc
    · rw [List.length_cons, ih]
    · rw [List.length_modifyHead, ih, Nat.add_zero]

/-- A text is its last piece, or ends with it after a separator. -/
theorem exists_last_piece (sep : α) (l : List α) :
    sep ∉ l ∨ ∃ front last, sep ∉ last ∧ l = front ++ sep :: last := by
  by_cases hmem : sep ∈ l
  · obtain ⟨a, b, hreverse, ha⟩ := List.eq_append_cons_of_mem (List.mem_reverse.mpr hmem)
    refine .inr ⟨b.reverse, a.reverse, by simpa using ha, ?_⟩
    have hl := congrArg List.reverse hreverse
    simpa using hl
  · exact .inl hmem

/-- Text without separators lengthens the last piece. -/
theorem splitOn_append_of_notMem (hb : sep ∉ b) (a : List α) :
    ∃ init last, a.splitOn sep = init ++ [last] ∧ (a ++ b).splitOn sep = init ++ [last ++ b] := by
  have hone {last : List α} (hlast : sep ∉ last) : (last ++ b).splitOn sep = [last ++ b] :=
    List.splitOn_eq_singleton fun hmem => (List.mem_append.mp hmem).elim hlast hb
  rcases exists_last_piece sep a with ha | ⟨front, last, hlast, rfl⟩
  · exact ⟨[], a, List.splitOn_eq_singleton ha, hone ha⟩
  · refine ⟨front.splitOn sep, last, ?_, ?_⟩
    · rw [List.splitOn_append_cons_self, List.splitOn_eq_singleton hlast]
    · rw [List.append_assoc, List.cons_append, List.splitOn_append_cons_self, hone hlast]

/-- Between two separators in a row there is an empty piece. -/
theorem nil_mem_splitOn (a b : List α) : [] ∈ (a ++ sep :: sep :: b).splitOn sep := by
  have hnil : (sep :: b).splitOn sep = [] :: b.splitOn sep := List.splitOn_append_cons_self [] b
  rw [List.splitOn_append_cons_self, hnil]
  exact List.mem_append_right _ List.mem_cons_self

/-- The text of the parts, each after at least one separator. -/
def spaced (sep : α) (gap : Nat → Nat) : List (List α) → List α
  | [] => []
  | part :: parts => List.replicate (gap 0 + 1) sep ++ part ++ spaced sep (fun i => gap (i + 1)) parts

omit [DecidableEq α] in
theorem head?_spaced (gap : Nat → Nat) (n : Nat) :
    ∀ c ∈ (spaced sep gap parts ++ List.replicate n sep).head?, c = sep := by
  cases parts with
  | nil => cases n <;> simp [spaced, List.replicate_succ]
  | cons part parts => simp [spaced, List.replicate_succ]

/-- Reading the text back gives the parts that are not empty. -/
theorem pieces_spaced (h : ∀ part ∈ parts, sep ∉ part) (gap : Nat → Nat) (n : Nat) :
    pieces sep (spaced sep gap parts ++ List.replicate n sep) = parts.filter (· ≠ []) := by
  induction parts generalizing gap with
  | nil =>
    have hreplicate : pieces sep (List.replicate n sep ++ []) = pieces sep [] := pieces_replicate n []
    rwa [List.append_nil, pieces_nil] at hreplicate
  | cons part parts ih =>
    rw [List.forall_mem_cons] at h
    rw [spaced, List.append_assoc, List.append_assoc, pieces_replicate,
      pieces_append_of_head h.1 (head?_spaced _ n), ih h.2, ← List.filter_append]
    rfl

omit [DecidableEq α] in
/-- The last part stands behind a separator. -/
theorem exists_spaced_concat (sep : α) (gap : Nat → Nat) (parts : List (List α)) :
    ∃ front, ∀ part, spaced sep gap (parts ++ [part]) = front ++ sep :: part := by
  induction parts generalizing gap with
  | nil => exact ⟨List.replicate (gap 0) sep, fun part => by simp [spaced, List.replicate_succ']⟩
  | cons first parts ih =>
    obtain ⟨front, hfront⟩ := ih fun i => gap (i + 1)
    exact ⟨List.replicate (gap 0 + 1) sep ++ first ++ front, fun part => by
      simp [spaced, hfront]⟩

end Pieces

/-! ## The first separator -/

section Once
variable {sep : Char} {text a b : List Char}

theorem splitOnce_eq_none : splitOnce sep text = none ↔ sep ∉ text := by
  simp [splitOnce]

theorem splitOnce_append_cons (h : sep ∉ a) (b : List Char) :
    splitOnce sep (a ++ sep :: b) = some (a, b) := by
  have hne : ∀ c ∈ a, decide (c ≠ sep) = true := fun c hc => decide_eq_true fun heq => h (heq ▸ hc)
  rw [splitOnce, if_pos (by simp), List.takeWhile_append_of_pos hne, List.dropWhile_append_of_pos hne]
  simp

theorem splitOnce_eq_some : splitOnce sep text = some (a, b) ↔ sep ∉ a ∧ text = a ++ sep :: b := by
  refine ⟨fun h => ?_, fun ⟨ha, htext⟩ => htext ▸ splitOnce_append_cons ha b⟩
  have hmem : sep ∈ text := by
    by_contra hmem
    rw [splitOnce_eq_none.mpr hmem] at h
    cases h
  obtain ⟨a', b', rfl, ha'⟩ := List.eq_append_cons_of_mem hmem
  rw [splitOnce_append_cons ha', Option.some.injEq, Prod.mk.injEq] at h
  obtain ⟨rfl, rfl⟩ := h
  exact ⟨ha', rfl⟩

end Once

/-! ## White space at the ends -/

def trimStart (text : List Char) : List Char := text.dropWhile isWhitespace

def trimEnd (text : List Char) : List Char := text.rdropWhile isWhitespace

theorem trim_eq (text : List Char) : trim text = trimEnd (trimStart text) := rfl

section Trim
variable {c : Char}

theorem trimStart_append_cons (h : isWhitespace c = false) (a b : List Char) :
    trimStart (a ++ c :: b) = trimStart a ++ c :: b := by
  induction a with
  | nil => simp [trimStart, h]
  | cons d a ih =>
    by_cases hd : isWhitespace d = true
    · simpa [trimStart, hd] using ih
    · simp [trimStart, hd]

theorem trimEnd_append_cons (h : isWhitespace c = false) (a b : List Char) :
    trimEnd (a ++ c :: b) = a ++ c :: trimEnd b := by
  have hreverse : trimEnd (a ++ c :: b) = (trimStart (b.reverse ++ c :: a.reverse)).reverse := by
    simp [trimEnd, trimStart, List.rdropWhile]
  rw [hreverse, trimStart_append_cons h]
  simp [trimEnd, trimStart, List.rdropWhile]

theorem trimEnd_sublist (text : List Char) : List.Sublist (trimEnd text) text :=
  (List.rdropWhile_prefix _ text).sublist

/-- Trimming touches the last piece only. -/
theorem splitOn_trimEnd (h : isWhitespace c = false) (text : List Char) :
    ∃ init last, text.splitOn c = init ++ [last] ∧ (trimEnd text).splitOn c = init ++ [trimEnd last] := by
  rcases exists_last_piece c text with hmem | ⟨front, last, hlast, rfl⟩
  · exact ⟨[], text, List.splitOn_eq_singleton hmem,
      List.splitOn_eq_singleton fun hc => hmem ((trimEnd_sublist text).mem hc)⟩
  · refine ⟨front.splitOn c, last, ?_, ?_⟩
    · rw [List.splitOn_append_cons_self, List.splitOn_eq_singleton hlast]
    · rw [trimEnd_append_cons h, List.splitOn_append_cons_self,
        List.splitOn_eq_singleton fun hc => hlast ((trimEnd_sublist last).mem hc)]

theorem count_trimEnd (h : isWhitespace c = false) (text : List Char) :
    (trimEnd text).count c = text.count c := by
  obtain ⟨init, last, htext, htrim⟩ := splitOn_trimEnd h text
  have hlength := length_splitOn c text
  have hlength' := length_splitOn c (trimEnd text)
  rw [htext] at hlength
  rw [htrim] at hlength'
  simp only [List.length_append, List.length_singleton] at hlength hlength'
  omega

theorem mem_trimEnd (h : isWhitespace c = false) {text : List Char} : c ∈ trimEnd text ↔ c ∈ text := by
  rw [← List.count_pos_iff, count_trimEnd h, List.count_pos_iff]

theorem length_pieces_trimEnd_le (h : isWhitespace c = false) (text : List Char) :
    (pieces c (trimEnd text)).length ≤ (pieces c text).length := by
  obtain ⟨init, last, htext, htrim⟩ := splitOn_trimEnd h text
  rw [pieces, pieces, htext, htrim, List.filter_append, List.filter_append, List.length_append,
    List.length_append]
  cases last with
  | nil => exact le_rfl
  | cons d last =>
    have := List.length_filter_le (fun part : List Char => decide (part ≠ [])) [trimEnd (d :: last)]
    simp only [List.length_singleton] at this
    simpa using this

/-- Text without separators that is put behind another adds one piece at most, whatever is trimmed
of the other. -/
theorem length_pieces_append_le (h : isWhitespace c = false) {a b : List Char} (hb : c ∉ b) :
    (pieces c (a ++ b)).length ≤ (pieces c (trimEnd a)).length + 1 := by
  have hone {part : List Char} (hpart : c ∉ part) : (pieces c part).length ≤ 1 := by
    rw [pieces_of_notMem hpart]
    exact List.length_filter_le _ _
  rcases exists_last_piece c a with ha | ⟨front, last, hlast, rfl⟩
  · have hab : c ∉ a ++ b := fun hc => (List.mem_append.mp hc).elim ha hb
    have := hone hab
    omega
  · have hlastb : c ∉ last ++ b := fun hc => (List.mem_append.mp hc).elim hlast hb
    have := hone hlastb
    rw [trimEnd_append_cons h, List.append_assoc, List.cons_append, pieces_append_cons,
      pieces_append_cons, List.length_append, List.length_append]
    omega

end Trim

end Tethys.Lib
