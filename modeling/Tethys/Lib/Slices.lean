import Mathlib.Algebra.BigOperators.Group.List.Basic
import Mathlib.Data.List.TakeWhile
import Mathlib.Tactic.Common
import Mathlib.Algebra.GroupWithZero.Nat

/-!
# Slices of text by bytes

A text is a list of characters that take one to four bytes each. It can be cut at a byte where a
character begins, and nowhere else.
-/

namespace Tethys.Lib

def byteLength (text : List Char) : Nat := (text.map Char.utf8Size).sum

/-- The text before a byte and the text from it on, unless the byte is inside a character or behind
the end. -/
def splitAtByte : Nat → List Char → Option (List Char × List Char)
  | 0, text => some ([], text)
  | _ + 1, [] => none
  | n + 1, c :: text =>
    if c.utf8Size ≤ n + 1 then
      (splitAtByte (n + 1 - c.utf8Size) text).map fun (before, after) => (c :: before, after)
    else none

@[simp] theorem byteLength_nil : byteLength [] = 0 := rfl

@[simp] theorem byteLength_cons (c : Char) (text : List Char) :
    byteLength (c :: text) = c.utf8Size + byteLength text := rfl

@[simp] theorem byteLength_append (a b : List Char) : byteLength (a ++ b) = byteLength a + byteLength b := by
  rw [byteLength, List.map_append, List.sum_append]
  rfl

theorem byteLength_pos {text : List Char} (h : text ≠ []) : 0 < byteLength text := by
  obtain ⟨c, text, rfl⟩ := List.exists_cons_of_ne_nil h
  have := c.utf8Size_pos
  rw [byteLength_cons]
  omega

/-- A cut is where the bytes of the first part end. -/
theorem splitAtByte_append (a b : List Char) : splitAtByte (byteLength a) (a ++ b) = some (a, b) := by
  induction a with
  | nil => cases b <;> rfl
  | cons c a ih =>
    have hpos := c.utf8Size_pos
    obtain ⟨n, hn⟩ := Nat.exists_eq_add_of_lt (Nat.add_pos_left hpos (byteLength a))
    rw [byteLength_cons, List.cons_append, hn, Nat.zero_add, splitAtByte, if_pos (by omega)]
    have hrest : n + 1 - c.utf8Size = byteLength a := by omega
    rw [hrest, ih]
    rfl

theorem splitAtByte_eq_some {n : Nat} {text a b : List Char} (h : splitAtByte n text = some (a, b)) :
    text = a ++ b ∧ byteLength a = n := by
  induction text generalizing n a with
  | nil =>
    cases n with
    | zero =>
      obtain ⟨rfl, rfl⟩ := Prod.mk.inj (Option.some.inj h)
      exact ⟨rfl, rfl⟩
    | succ n => cases h
  | cons c text ih =>
    cases n with
    | zero =>
      obtain ⟨rfl, rfl⟩ := Prod.mk.inj (Option.some.inj h)
      exact ⟨rfl, rfl⟩
    | succ n =>
      rw [splitAtByte] at h
      split_ifs at h with hsize
      obtain ⟨⟨a', b'⟩, hrest, heq⟩ := Option.map_eq_some_iff.mp h
      obtain ⟨rfl, rfl⟩ := Prod.mk.inj heq
      obtain ⟨rfl, hlength⟩ := ih hrest
      refine ⟨rfl, ?_⟩
      rw [byteLength_cons]
      omega

/-! ## The bytes of a text -/

def utf8 (text : List Char) : List UInt8 := text.flatMap String.utf8EncodeChar

@[simp] theorem utf8_nil : utf8 [] = [] := rfl

@[simp] theorem utf8_cons (c : Char) (text : List Char) :
    utf8 (c :: text) = String.utf8EncodeChar c ++ utf8 text := rfl

@[simp] theorem utf8_append (a b : List Char) : utf8 (a ++ b) = utf8 a ++ utf8 b := List.flatMap_append

@[simp] theorem length_utf8 (text : List Char) : (utf8 text).length = byteLength text := by
  induction text with
  | nil => rfl
  | cons c text ih => simp [ih]

theorem drop_utf8 (a b : List Char) : (utf8 (a ++ b)).drop (byteLength a) = utf8 b := by
  rw [utf8_append, ← length_utf8, List.drop_left]

/-- A character below 128 is its own byte. -/
theorem utf8EncodeChar_of_lt {c : Char} (h : c.toNat < 128) :
    ∃ b : UInt8, String.utf8EncodeChar c = [b] ∧ b.toNat = c.toNat := by
  have hsize : c.utf8Size = 1 := Char.utf8Size_eq_one_iff.mpr (by
    rw [UInt32.le_iff_toNat_le]
    exact Nat.le_of_lt_succ h)
  refine ⟨_, String.utf8EncodeChar_eq_singleton hsize, ?_⟩
  have hval : c.val.toNat = c.toNat := rfl
  rw [UInt32.toNat_toUInt8, hval]
  omega

theorem le_or_of_le {a b : UInt8} (h : 128 ≤ b.toNat) : 128 ≤ (a ||| b).toNat := by
  rw [UInt8.toNat_or]
  exact h.trans Nat.right_le_or

/-- The other characters have none of these bytes. -/
theorem le_of_mem_utf8EncodeChar {c : Char} (h : 128 ≤ c.toNat) {b : UInt8}
    (hb : b ∈ String.utf8EncodeChar c) : 128 ≤ b.toNat := by
  have hsize : c.utf8Size ≠ 1 := by
    rw [Ne, Char.utf8Size_eq_one_iff, UInt32.le_iff_toNat_le]
    exact Nat.not_le.mpr h
  rcases Char.utf8Size_eq c with hc | hc | hc | hc
  · exact absurd hc hsize
  · rw [String.utf8EncodeChar_eq_cons_cons hc] at hb
    simp only [List.mem_cons, List.not_mem_nil, or_false] at hb
    rcases hb with rfl | rfl <;> exact le_or_of_le (by decide)
  · rw [String.utf8EncodeChar_eq_cons_cons_cons hc] at hb
    simp only [List.mem_cons, List.not_mem_nil, or_false] at hb
    rcases hb with rfl | rfl | rfl <;> exact le_or_of_le (by decide)
  · rw [String.utf8EncodeChar_eq_cons_cons_cons_cons hc] at hb
    simp only [List.mem_cons, List.not_mem_nil, or_false] at hb
    rcases hb with rfl | rfl | rfl | rfl <;> exact le_or_of_le (by decide)

/-- A test of numbers that are all alike from 128 on is the same test of bytes and of characters. -/
theorem takeWhile_utf8 {test : Nat → Bool} (h : ∀ n, 128 ≤ n → test n = test 128) (text : List Char) :
    (utf8 text).takeWhile (fun b => test b.toNat) = utf8 (text.takeWhile fun c => test c.toNat) := by
  have hbytes (c : Char) : ∀ b ∈ String.utf8EncodeChar c, test b.toNat = test c.toNat := by
    intro b hb
    by_cases hc : c.toNat < 128
    · obtain ⟨b', henc, hb'⟩ := utf8EncodeChar_of_lt hc
      rw [henc, List.mem_singleton] at hb
      rw [hb, hb']
    · have hc := Nat.le_of_not_lt hc
      rw [h _ (le_of_mem_utf8EncodeChar hc hb), h _ hc]
  induction text with
  | nil => rfl
  | cons c text ih =>
    by_cases hc : test c.toNat = true
    · rw [utf8_cons, List.takeWhile_append_of_pos fun b hb => (hbytes c b hb).trans hc, ih,
        List.takeWhile_cons, if_pos hc, utf8_cons]
    · obtain ⟨b, bs, henc⟩ := List.exists_cons_of_ne_nil (String.utf8EncodeChar_ne_nil (c := c))
      have hb : ¬ test b.toNat = true := by
        rw [hbytes c b (henc ▸ List.mem_cons_self)]
        exact hc
      rw [utf8_cons, henc, List.cons_append, List.takeWhile_cons, if_neg hb, List.takeWhile_cons,
        if_neg hc, utf8_nil]

/-! ## Slices -/

/-- The text between two bytes, unless one of them is inside a character or behind the end. -/
def byteSlice (text : List Char) (start finish : Nat) : Option (List Char) :=
  (splitAtByte finish text).bind fun (before, _) => (splitAtByte start before).map Prod.snd

theorem byteSlice_append (a b c : List Char) :
    byteSlice (a ++ b ++ c) (byteLength a) (byteLength (a ++ b)) = some b := by
  rw [byteSlice, splitAtByte_append, Option.bind_some]
  dsimp only
  rw [splitAtByte_append]
  rfl

end Tethys.Lib
