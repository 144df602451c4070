import Mathlib.Data.List.DropRight

/-!
# Cutting text

The functions on strings that the sources use: cutting at a character, at line ends and at white
space, which is Unicode's. Text is a list of characters here.
-/

namespace Tethys.Lib

/-- The property White_Space of Unicode. -/
def isWhitespace (c : Char) : Bool :=
  let n := c.toNat
  (0x9 ≤ n && n ≤ 0xD) || n = 0x20 || n = 0x85 || n = 0xA0 || n = 0x1680 ||
    (0x2000 ≤ n && n ≤ 0x200A) || n = 0x2028 || n = 0x2029 || n = 0x202F || n = 0x205F || n = 0x3000

/-- Without the characters at both ends that match. -/
def trimMatches (p : Char → Bool) (text : List Char) : List Char :=
  ((text.dropWhile p).reverse.dropWhile p).reverse

def trim (text : List Char) : List Char := trimMatches isWhitespace text

/-- Only characters that match are left out as a whole. -/
theorem trimMatches_eq_nil {p : Char → Bool} {text : List Char} :
    trimMatches p text = [] ↔ ∀ c ∈ text, p c = true := by
  change List.rdropWhile p (text.dropWhile p) = [] ↔ _
  rw [List.rdropWhile_eq_nil_iff, ← List.dropWhile_eq_nil_iff, List.dropWhile_idempotent,
    List.dropWhile_eq_nil_iff]

theorem exists_mem_trimMatches {p : Char → Bool} {text : List Char} (h : trimMatches p text ≠ []) :
    ∃ c ∈ trimMatches p text, p c = false := by
  change List.rdropWhile p (text.dropWhile p) ≠ [] at h
  refine ⟨_, List.getLast_mem h, ?_⟩
  simpa using List.rdropWhile_last_not p _ h

/-- Each place where the pattern is found is replaced; the characters of it that are left are
skipped. -/
def replaceAll (pattern sub : List Char) : Nat → List Char → List Char
  | _, [] => []
  | 0, c :: rest =>
    if pattern.isPrefixOf (c :: rest) then sub ++ replaceAll pattern sub (pattern.length - 1) rest
    else c :: replaceAll pattern sub 0 rest
  | skip + 1, _ :: rest => replaceAll pattern sub skip rest

def stripPrefix (pre text : List Char) : Option (List Char) :=
  if pre.isPrefixOf text then some (text.drop pre.length) else none

theorem stripPrefix_append (pre text : List Char) : stripPrefix pre (pre ++ text) = some text := by
  simp [stripPrefix]

theorem stripPrefix_eq_some {pre text rest : List Char} :
    stripPrefix pre text = some rest ↔ text = pre ++ rest := by
  refine ⟨fun h => ?_, fun h => h ▸ stripPrefix_append pre rest⟩
  rw [stripPrefix] at h
  split_ifs at h with hpre
  obtain ⟨tail, rfl⟩ := List.isPrefixOf_iff_prefix.mp hpre
  rw [List.drop_left, Option.some.injEq] at h
  rw [h]

def stripSuffix (suf text : List Char) : Option (List Char) :=
  if suf.isSuffixOf text then some (text.take (text.length - suf.length)) else none

/-- What stands before and after the first separator. -/
def splitOnce (sep : Char) (text : List Char) : Option (List Char × List Char) :=
  if sep ∈ text then some (text.takeWhile (· ≠ sep), (text.dropWhile (· ≠ sep)).tail) else none

/-- The lines, whose ends may have a carriage return. The last line needs no end. -/
def lines (text : List Char) : List (List Char) :=
  let parts := text.splitOn '\n'
  let ended := parts.dropLast.map fun line => (stripSuffix ['\r'] line).getD line
  match parts.getLast? with
  | some [] | none => ended
  | some last => ended ++ [last]

/-! ## Printed numbers -/

theorem toList_toString (n : Nat) : (toString n).toList = Nat.toDigits 10 n := by
  simp

/-- Numbers that print alike are equal. -/
theorem toString_injective {m n : Nat} (h : (toString m).toList = (toString n).toList) : m = n := by
  rw [toList_toString, toList_toString] at h
  have hvalue := congrArg (fun digits => Nat.ofDigitChars 10 digits 0) h
  simpa using hvalue

end Tethys.Lib
