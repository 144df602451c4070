import Mathlib.Data.List.Basic
import Mathlib.Tactic.Common

/-!
# Lossy decoding of UTF-8

Reading a byte string as UTF-8, character by character. Where no character starts, the bytes
up to the first one that cannot continue it are one malformed part; `toStringLossy` puts the
replacement character in its place. The other lemma is about strings that end with a byte
they do not contain: such a string can be split off in one way only.
-/

namespace Tethys.Lib

/-- A byte that continues a character. -/
def isContinuation (b : UInt8) : Bool := 0x80 ≤ b && b ≤ 0xBF

/-- The number of bytes of a character with this first byte, zero if there is none. -/
def utf8Width (b : UInt8) : Nat :=
  if b < 0x80 then 1
  else if 0xC2 ≤ b ∧ b ≤ 0xDF then 2
  else if 0xE0 ≤ b ∧ b ≤ 0xEF then 3
  else if 0xF0 ≤ b ∧ b ≤ 0xF4 then 4
  else 0

/-- The second bytes of the longer characters, which leave out overlong forms, surrogates and
numbers that are too large. -/
def isSecond (b c : UInt8) : Bool :=
  if b = 0xE0 then 0xA0 ≤ c && c ≤ 0xBF
  else if b = 0xED then 0x80 ≤ c && c ≤ 0x9F
  else if b = 0xF0 then 0x90 ≤ c && c ≤ 0xBF
  else if b = 0xF4 then 0x80 ≤ c && c ≤ 0x8F
  else isContinuation c

/-- Whether a character starts with these bytes, and how many bytes it or the malformed part
has. A missing byte counts as zero. -/
def utf8Step (b : UInt8) (rest : List UInt8) : Bool × Nat :=
  let byte := fun i => (rest[i]?).getD 0
  match utf8Width b with
  | 1 => (true, 1)
  | 2 => if isContinuation (byte 0) then (true, 2) else (false, 1)
  | 3 =>
    if isSecond b (byte 0) then if isContinuation (byte 1) then (true, 3) else (false, 2)
    else (false, 1)
  | 4 =>
    if isSecond b (byte 0) then
      if isContinuation (byte 1) then
        if isContinuation (byte 2) then (true, 4) else (false, 3)
      else (false, 2)
    else (false, 1)
  | _ => (false, 1)

/-- The replacement character U+FFFD. -/
def replacementChar : List UInt8 := [0xEF, 0xBF, 0xBD]

/-- Decode as many characters as the fuel allows. -/
def lossyWith : Nat → List UInt8 → List UInt8
  | 0, _ | _ + 1, [] => []
  | fuel + 1, b :: rest =>
    let (valid, n) := utf8Step b rest
    (if valid then (b :: rest).take n else replacementChar) ++ lossyWith fuel ((b :: rest).drop n)

/-- Every malformed part replaced. A character has a byte, so the length is fuel enough. -/
def toStringLossy (bytes : List UInt8) : List UInt8 := lossyWith bytes.length bytes

def validWith : Nat → List UInt8 → Bool
  | 0, _ | _ + 1, [] => true
  | fuel + 1, b :: rest =>
    let (valid, n) := utf8Step b rest
    valid && validWith fuel ((b :: rest).drop n)

def isUtf8 (bytes : List UInt8) : Bool := validWith bytes.length bytes

theorem zero_notMem_lossyWith {fuel : Nat} {bytes : List UInt8} (h : 0 ∉ bytes) :
    0 ∉ lossyWith fuel bytes := by
  induction fuel generalizing bytes with
  | zero => simp [lossyWith]
  | succ fuel ih =>
    cases bytes with
    | nil => simp [lossyWith]
    | cons b rest =>
      simp only [lossyWith, List.mem_append, not_or]
      refine ⟨?_, ih fun hmem => h (List.mem_of_mem_drop hmem)⟩
      split_ifs
      · exact fun hmem => h (List.mem_of_mem_take hmem)
      · decide

/-- Decoding makes no zero byte. -/
theorem zero_notMem_toStringLossy {bytes : List UInt8} (h : 0 ∉ bytes) : 0 ∉ toStringLossy bytes :=
  zero_notMem_lossyWith h

theorem utf8Step_pos (b : UInt8) (rest : List UInt8) : 0 < (utf8Step b rest).2 := by
  unfold utf8Step
  grind

theorem lossyWith_eq {fuel : Nat} {bytes : List UInt8} (hfuel : bytes.length ≤ fuel)
    (h : 0xEF ∉ lossyWith fuel bytes) : lossyWith fuel bytes = bytes := by
  induction fuel generalizing bytes with
  | zero => simp_all [lossyWith]
  | succ fuel ih =>
    cases bytes with
    | nil => simp [lossyWith]
    | cons b rest =>
      simp only [lossyWith, List.mem_append, not_or] at h ⊢
      have hpos := utf8Step_pos b rest
      have hlength : ((b :: rest).drop (utf8Step b rest).2).length ≤ fuel := by
        simp only [List.length_drop, List.length_cons] at hfuel ⊢
        omega
      rw [ih hlength h.2]
      split_ifs with hvalid
      · exact List.take_append_drop _ _
      · simp [hvalid, replacementChar] at h

/-- A text without the first byte of the replacement character is the bytes it was read from. -/
theorem toStringLossy_eq {bytes : List UInt8} (h : 0xEF ∉ toStringLossy bytes) :
    toStringLossy bytes = bytes :=
  lossyWith_eq (Nat.le_refl _) h

/-! ## Bytes that decoding keeps -/

theorem le_of_isSecond {b c : UInt8} (h : isSecond b c = true) : 0x80 ≤ c := by
  unfold isSecond isContinuation at h
  grind

/-- A malformed part has a first byte beyond ASCII, and up to two bytes that could go on after it. -/
theorem utf8Step_malformed {b : UInt8} {rest : List UInt8} (h : (utf8Step b rest).1 = false) :
    0x80 ≤ b ∧ (utf8Step b rest).2 ≤ 3 ∧
      (2 ≤ (utf8Step b rest).2 → 0x80 ≤ (rest[0]? : Option UInt8).getD 0) ∧
      (3 ≤ (utf8Step b rest).2 → 0x80 ≤ (rest[1]? : Option UInt8).getD 0) := by
  have hfirst : utf8Width b ≠ 1 → 0x80 ≤ b := by
    unfold utf8Width
    grind
  have hsecond := le_of_isSecond (b := b) (c := (rest[0]?).getD 0)
  have hthird : ∀ c, isContinuation c = true → 0x80 ≤ c := by
    unfold isContinuation
    grind
  unfold utf8Step at h ⊢
  grind

theorem le_of_mem_malformed {b c : UInt8} {rest : List UInt8} (h : (utf8Step b rest).1 = false)
    (hc : c ∈ (b :: rest).take (utf8Step b rest).2) : 0x80 ≤ c := by
  obtain ⟨hfirst, hlength, hsecond, hthird⟩ := utf8Step_malformed h
  obtain ⟨i, hi, rfl⟩ := List.mem_take_iff_getElem.mp hc
  match i with
  | 0 => exact hfirst
  | 1 =>
    have hlt : 0 < rest.length := by simp at hi; omega
    simpa [hlt] using hsecond (by omega)
  | 2 =>
    have hlt : 1 < rest.length := by simp at hi; omega
    simpa [hlt] using hthird (by omega)
  | i + 3 => omega

section Kept
variable {a : UInt8} {bytes : List UInt8} {fuel : Nat}

theorem lossyWith_eq_nil (hfuel : bytes.length ≤ fuel) : lossyWith fuel bytes = [] ↔ bytes = [] := by
  cases bytes with
  | nil => cases fuel <;> simp [lossyWith]
  | cons b rest =>
    cases fuel with
    | zero => simp at hfuel
    | succ fuel =>
      have hpos := utf8Step_pos b rest
      simp only [lossyWith]
      split_ifs <;> simp [replacementChar]; omega

/-- Decoding keeps the ASCII bytes, and whether such a byte is the last one. -/
theorem kept_lossyWith (ha : a < 0x80) (hfuel : bytes.length ≤ fuel) :
    (lossyWith fuel bytes).count a = bytes.count a ∧
      ((lossyWith fuel bytes).getLast? = some a ↔ bytes.getLast? = some a) := by
  induction fuel generalizing bytes with
  | zero =>
    obtain rfl : bytes = [] := by simpa using hfuel
    simp [lossyWith]
  | succ fuel ih =>
    cases bytes with
    | nil => simp [lossyWith]
    | cons b rest =>
      have hpos := utf8Step_pos b rest
      have hlength : ((b :: rest).drop (utf8Step b rest).2).length ≤ fuel := by
        simp only [List.length_drop, List.length_cons] at hfuel ⊢
        omega
      obtain ⟨hcount, hlast⟩ := ih hlength
      have hnil := lossyWith_eq_nil hlength
      have hsplit := List.take_append_drop (utf8Step b rest).2 (b :: rest)
      have hmalformed : (utf8Step b rest).1 = false → a ∉ (b :: rest).take (utf8Step b rest).2 :=
        fun h hmem => absurd (le_of_mem_malformed h hmem) (by simpa using ha)
      simp only [lossyWith]
      generalize (b :: rest).take (utf8Step b rest).2 = part at hsplit hmalformed ⊢
      generalize (b :: rest).drop (utf8Step b rest).2 = tail at hcount hlast hnil hsplit ⊢
      have hpart : (if (utf8Step b rest).1 then part else replacementChar).count a = part.count a ∧
          ((if (utf8Step b rest).1 then part else replacementChar).getLast? = some a ↔
            part.getLast? = some a) := by
        split_ifs with hvalid
        · simp
        · have hout := hmalformed (by simpa using hvalid)
          have hreplacement : a ∉ replacementChar := fun hmem => absurd ha (by
            simp only [replacementChar, List.mem_cons, List.not_mem_nil, or_false] at hmem
            rcases hmem with rfl | rfl | rfl <;> decide)
          rw [List.count_eq_zero.mpr hout, List.count_eq_zero.mpr hreplacement]
          exact ⟨rfl, iff_of_false (fun h => hreplacement (List.mem_of_getLast? h))
            fun h => hout (List.mem_of_getLast? h)⟩
      rw [← hsplit, List.count_append, List.count_append, hpart.1, hcount, List.getLast?_append,
        List.getLast?_append]
      refine ⟨rfl, ?_⟩
      by_cases htail : tail = []
      · rw [hnil.mpr htail, htail]
        exact hpart.2
      · obtain ⟨c, hc⟩ : ∃ c, tail.getLast? = some c := ⟨_, List.getLast?_eq_some_getLast htail⟩
        obtain ⟨d, hd⟩ : ∃ d, (lossyWith fuel tail).getLast? = some d :=
          ⟨_, List.getLast?_eq_some_getLast fun h => htail (hnil.mp h)⟩
        simpa [hc, hd] using hlast

/-- Decoding keeps the ASCII bytes, -/
theorem count_toStringLossy (ha : a < 0x80) : (toStringLossy bytes).count a = bytes.count a :=
  (kept_lossyWith ha (Nat.le_refl _)).1

/-- and whether such a byte is the last one. -/
theorem getLast?_toStringLossy (ha : a < 0x80) :
    (toStringLossy bytes).getLast? = some a ↔ bytes.getLast? = some a :=
  (kept_lossyWith ha (Nat.le_refl _)).2

@[simp]
theorem toStringLossy_eq_nil : toStringLossy bytes = [] ↔ bytes = [] := lossyWith_eq_nil (Nat.le_refl _)

end Kept

/-- Joining makes no byte that is neither in a part nor the separator. -/
theorem notMem_intercalate {α : Type*} {a sep : α} {parts : List (List α)} (hsep : a ≠ sep)
    (h : ∀ part ∈ parts, a ∉ part) : a ∉ [sep].intercalate parts := by
  induction parts with
  | nil => simp
  | cons part parts ih =>
    obtain ⟨hpart, hparts⟩ := List.forall_mem_cons.mp h
    cases parts with
    | nil => simpa using hpart
    | cons part' parts =>
      have := ih hparts
      simp_all [List.intercalate_cons_cons]

/-- What stands before the first separator is determined. -/
theorem append_sep_inj {α : Type*} {sep : α} {a a' b b' : List α} (ha : sep ∉ a) (ha' : sep ∉ a')
    (h : a ++ sep :: b = a' ++ sep :: b') : a = a' ∧ b = b' := by
  induction a generalizing a' with
  | nil =>
    cases a' with
    | nil => simpa using h
    | cons x a' =>
      obtain rfl : sep = x := by simpa using congrArg List.head? h
      simp at ha'
  | cons x a ih =>
    cases a' with
    | nil =>
      obtain rfl : x = sep := by simpa using congrArg List.head? h
      simp at ha
    | cons x' a' =>
      simp only [List.cons_append, List.cons.injEq] at h
      obtain ⟨rfl, h⟩ := h
      obtain ⟨rfl, hb⟩ := ih (fun hm => ha (List.mem_cons_of_mem _ hm))
        (fun hm => ha' (List.mem_cons_of_mem _ hm)) h
      exact ⟨rfl, hb⟩

end Tethys.Lib
