import Mathlib.Data.List.Basic
import Mathlib.Tactic.Common

/-!
# Separated and terminated fields

Texts that are cut at a separator: at every occurrence, or only at the first few ones, so that
the last field may contain the separator.
-/

namespace Tethys.Lib

variable {α : Type*}

/-- Words that are each followed by the separator, and then the last field. -/
def joined (sep : α) (words : List (List α)) (last : List α) : List α :=
  words.foldr (fun word rest => word ++ sep :: rest) last

@[simp] theorem joined_nil (sep : α) (last : List α) : joined sep [] last = last := rfl

@[simp] theorem joined_cons (sep : α) (word : List α) (words : List (List α)) (last : List α) :
    joined sep (word :: words) last = word ++ sep :: joined sep words last := rfl

/-- Joining makes no character that is in no part. -/
theorem notMem_joined {a sep : α} {words : List (List α)} {last : List α}
    (hwords : ∀ word ∈ words, a ∉ word) (hsep : a ≠ sep) (hlast : a ∉ last) :
    a ∉ joined sep words last := by
  induction words with
  | nil => exact hlast
  | cons word words ih =>
    rw [List.forall_mem_cons] at hwords
    rw [joined_cons, List.mem_append, List.mem_cons, not_or, not_or]
    exact ⟨hwords.1, hsep, ih hwords.2⟩

variable [DecidableEq α]

/-- At most the given number of fields; the last one is the rest of the text. -/
def splitn (sep : α) : Nat → List α → List (List α)
  | 0, _ => []
  | 1, l => [l]
  | n + 2, l =>
    match l.dropWhile (· ≠ sep) with
    | [] => [l]
    | _ :: rest => l.takeWhile (· ≠ sep) :: splitn sep (n + 1) rest

theorem splitn_append_cons {sep : α} {word : List α} (h : sep ∉ word) (n : Nat) (rest : List α) :
    splitn sep (n + 2) (word ++ sep :: rest) = word :: splitn sep (n + 1) rest := by
  have hword : ∀ a ∈ word, decide (a ≠ sep) = true := fun a ha =>
    decide_eq_true (ne_of_mem_of_not_mem ha h)
  have hdrop : (word ++ sep :: rest).dropWhile (· ≠ sep) = sep :: rest := by
    rw [List.dropWhile_append_of_pos hword, List.dropWhile_cons_of_neg (by simp)]
  have htake : (word ++ sep :: rest).takeWhile (· ≠ sep) = word := by
    rw [List.takeWhile_append_of_pos hword, List.takeWhile_cons_of_neg (by simp), List.append_nil]
  rw [splitn, hdrop, htake]

/-- Words without the separator are cut off one by one, whatever the last field is. -/
theorem splitn_joined {sep : α} {words : List (List α)} (h : ∀ word ∈ words, sep ∉ word)
    (last : List α) : splitn sep (words.length + 1) (joined sep words last) = words ++ [last] := by
  induction words with
  | nil => rfl
  | cons word words ih =>
    rw [List.forall_mem_cons] at h
    rw [joined_cons, List.length_cons, splitn_append_cons h.1, ih h.2]
    rfl

/-- If the last field has no separator either, the text is cut into its fields. -/
theorem splitOn_joined {sep : α} {words : List (List α)} {last : List α}
    (h : ∀ word ∈ words, sep ∉ word) (hlast : sep ∉ last) :
    (joined sep words last).splitOn sep = words ++ [last] := by
  induction words with
  | nil => exact List.splitOn_eq_singleton hlast
  | cons word words ih =>
    rw [List.forall_mem_cons] at h
    rw [joined_cons, List.splitOn_append_cons_self_of_not_mem h.1, ih h.2]
    rfl

/-- Chunks that are each followed by the separator are the pieces between its occurrences. -/
theorem splitOn_terminated {sep : α} {chunks : List (List α)} (h : ∀ chunk ∈ chunks, sep ∉ chunk) :
    (chunks.flatMap (· ++ [sep])).splitOn sep = chunks ++ [[]] := by
  induction chunks with
  | nil => rfl
  | cons chunk chunks ih =>
    rw [List.forall_mem_cons] at h
    rw [List.flatMap_cons, List.append_assoc, List.singleton_append,
      List.splitOn_append_cons_self_of_not_mem h.1, ih h.2]
    rfl

/-! ## Parts with their separator -/

/-- The parts of a list, each up to and with the next separator. -/
def splitInclusive (sep : α) : List α → List (List α)
  | [] => []
  | a :: l =>
    if a = sep then [a] :: splitInclusive sep l
    else
      match splitInclusive sep l with
      | [] => [[a]]
      | part :: parts => (a :: part) :: parts

theorem flatten_splitInclusive (sep : α) (l : List α) : (splitInclusive sep l).flatten = l := by
  induction l with
  | nil => rfl
  | cons a l ih =>
    rw [splitInclusive]
    split
    · simp [ih]
    · cases hl : splitInclusive sep l with
      | nil => simp_all
      | cons part parts => simp_all

/-- A part has the separator at its end only, or it has none and is not empty. -/
theorem mem_splitInclusive {sep : α} {l part : List α} (h : part ∈ splitInclusive sep l) :
    ∃ word, sep ∉ word ∧ (part = word ++ [sep] ∨ part = word ∧ word ≠ []) := by
  induction l generalizing part with
  | nil => cases h
  | cons a l ih =>
    rw [splitInclusive] at h
    split at h
    · rename_i ha
      cases h with
      | head => exact ⟨[], by simp, .inl (by simp [ha])⟩
      | tail _ h => exact ih h
    · rename_i ha
      have ha' : sep ≠ a := Ne.symm ha
      cases hl : splitInclusive sep l with
      | nil =>
        obtain rfl : part = [a] := by simpa [hl] using h
        exact ⟨[a], by simp [ha'], .inr ⟨rfl, by simp⟩⟩
      | cons first parts =>
        rw [hl] at h
        cases h with
        | head =>
          obtain ⟨word, hword, hfirst⟩ := ih (hl ▸ List.mem_cons_self)
          refine ⟨a :: word, by simp [ha', hword], ?_⟩
          rcases hfirst with rfl | ⟨rfl, -⟩
          · exact .inl rfl
          · exact .inr ⟨rfl, by simp⟩
        | tail _ h => exact ih (hl ▸ List.mem_cons_of_mem _ h)

/-- Parts that each end with the separator are found again. -/
theorem splitInclusive_flatten {sep : α} {parts : List (List α)}
    (h : ∀ part ∈ parts, ∃ word, sep ∉ word ∧ part = word ++ [sep]) :
    splitInclusive sep parts.flatten = parts := by
  induction parts with
  | nil => rfl
  | cons part parts ih =>
    rw [List.forall_mem_cons] at h
    obtain ⟨⟨word, hword, rfl⟩, hparts⟩ := h
    rw [List.flatten_cons]
    induction word with
    | nil => simp [splitInclusive, ih hparts]
    | cons a word ihword =>
      have ha : a ≠ sep := fun heq => hword (heq ▸ List.mem_cons_self)
      have hrest := ihword fun hmem => hword (List.mem_cons_of_mem _ hmem)
      rw [List.cons_append, List.cons_append, splitInclusive, if_neg ha, hrest]

/-- There are as many parts as separators, and one more if the last part has none. -/
theorem length_splitInclusive (sep : α) (l : List α) : (splitInclusive sep l).length =
    l.count sep + if ∀ a ∈ l.getLast?, a = sep then 0 else 1 := by
  induction l with
  | nil => simp [splitInclusive]
  | cons a l ih =>
    cases l with
    | nil =>
      by_cases ha : a = sep
      · simp [splitInclusive, ha]
      · simp [splitInclusive, ha]
    | cons b l =>
      rw [List.getLast?_cons_cons]
      by_cases ha : a = sep
      · rw [splitInclusive, if_pos ha, List.length_cons, ih, ha, List.count_cons_self]
        omega
      · rw [splitInclusive, if_neg ha, List.count_cons_of_ne ha, ← ih]
        cases hparts : splitInclusive sep (b :: l) with
        | nil =>
          have hflatten := flatten_splitInclusive sep (b :: l)
          rw [hparts] at hflatten
          cases hflatten
        | cons part parts => rfl

theorem length_splitInclusive_le (sep : α) (l : List α) : (splitInclusive sep l).length ≤ l.length := by
  induction l with
  | nil => simp [splitInclusive]
  | cons a l ih =>
    rw [splitInclusive]
    split
    · simpa using ih
    · cases hparts : splitInclusive sep l with
      | nil => simp
      | cons part parts =>
        rw [hparts] at ih
        simp only [List.length_cons] at ih ⊢
        omega

/-- Only the last part may have no separator at its end. -/
theorem getLast?_of_mem_dropLast {sep : α} {l part : List α} (h : part ∈ (splitInclusive sep l).dropLast) :
    part.getLast? = some sep := by
  induction l generalizing part with
  | nil => cases h
  | cons a l ih =>
    rw [splitInclusive] at h
    split at h
    · rename_i ha
      cases hl : splitInclusive sep l with
      | nil => simp [hl] at h
      | cons first parts =>
        rw [hl, List.dropLast_cons_of_ne_nil (by simp)] at h
        cases h with
        | head => simp [ha]
        | tail _ h => exact ih (hl ▸ h)
    · cases hl : splitInclusive sep l with
      | nil => simp [hl] at h
      | cons first parts =>
        rw [hl] at h
        cases parts with
        | nil => simp at h
        | cons next parts =>
          rw [List.dropLast_cons_of_ne_nil (by simp)] at h
          cases h with
          | head =>
            have hfirst : first.getLast? = some sep := ih (by simp [hl])
            rw [List.getLast?_cons, hfirst, Option.getD_some]
          | tail _ h => exact ih (by rw [hl, List.dropLast_cons_of_ne_nil (by simp)]; exact .tail _ h)

/-! ## Parts with separators between them -/

omit [DecidableEq α] in
/-- What holds of all letters of the parts and of the separator holds of all letters. -/
theorem forall_mem_intercalate {P : α → Prop} {sep : α} {parts : List (List α)} (hsep : P sep)
    (h : ∀ part ∈ parts, ∀ a ∈ part, P a) : ∀ a ∈ [sep].intercalate parts, P a := by
  induction parts with
  | nil => simp
  | cons part parts ih =>
    rw [List.forall_mem_cons] at h
    by_cases hparts : parts = []
    · simpa [hparts] using h.1
    · rw [List.intercalate_cons_of_ne_nil hparts]
      simp only [List.mem_append, List.mem_singleton]
      rintro a ((ha | rfl) | ha)
      · exact h.1 a ha
      · exact hsep
      · exact ih h.2 a ha

omit [DecidableEq α] in
theorem infix_intercalate {sep : α} {part : List α} {parts : List (List α)} (h : part ∈ parts) :
    part <:+: [sep].intercalate parts := by
  induction parts with
  | nil => simp at h
  | cons first parts ih =>
    by_cases hparts : parts = []
    · obtain rfl : part = first := by simpa [hparts] using h
      have hsingle : [sep].intercalate [part] = part := List.intercalate_singleton
      exact hparts ▸ hsingle.symm ▸ List.infix_rfl
    · rw [List.intercalate_cons_of_ne_nil hparts, List.append_assoc]
      rcases List.mem_cons.mp h with rfl | h
      · exact (List.prefix_append _ _).isInfix
      · exact (ih h).trans ((List.suffix_append _ _).trans (List.suffix_append _ _)).isInfix

/-- Each piece of a list is a part of it. -/
theorem infix_of_mem_splitOn {sep : α} {part l : List α} (h : part ∈ l.splitOn sep) : part <:+: l := by
  have hinfix : part <:+: [sep].intercalate (l.splitOn sep) := infix_intercalate h
  rwa [List.intercalate_splitOn] at hinfix

end Tethys.Lib
