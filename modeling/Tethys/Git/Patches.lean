import Tethys.Git.Hunks

/-!
# Patches

`render_patch` writes chosen hunks of a file as a patch for git. `readPatch` reads a patch by the
grammar that git documents: C-style quoted names, the lines of the header, hunks whose counts say
where they end, and the marker for a missing newline. What is read is what was rendered.
-/

namespace Tethys.Git

open Lib

/-! ## Rendering -/

inductive DiffFileStatus where
  | added | modified | deleted | renamed | copied | typeChanged | unmerged | other
  deriving DecidableEq

inductive DiffLineKind where
  | context | addition | deletion
  deriving DecidableEq

/-- The bytes of a text of ASCII characters. -/
def bytesOf (text : String) : Text := text.toList.map fun c => UInt8.ofNat c.toNat

def decimal (n : Nat) : Text := (Nat.toDigits 10 n).map fun c => UInt8.ofNat c.toNat

/-- Three octal digits. -/
def octal (b : UInt8) : Text := [48 + b / 64, 48 + b / 8 % 8, 48 + b % 8]

def escapeByte (b : UInt8) : Text :=
  if b = 34 then bytesOf "\\\""
  else if b = 92 then bytesOf "\\\\"
  else if 0x20 ≤ b ∧ b ≤ 0x7e then [b]
  else 92 :: octal b

def pathForHeader (side path : Text) : Text :=
  let full := side ++ bytesOf "/" ++ path
  if full.all fun b => 0x21 ≤ b && b ≤ 0x7e then full
  else bytesOf "\"" ++ full.flatMap escapeByte ++ bytesOf "\""

def token (tokens : List Text) (i : Nat) : Text := (tokens[i]?).getD []

def pushPatchLine (mark : UInt8) (token : Text) : Text :=
  mark :: token ++
    (if token.getLast? = some newline then [] else newline :: bytesOf "\\ No newline at end of file\n")

def renderLine (old new : List Text) : PlanLine → Text
  | .context i _ => pushPatchLine 32 (token old i)
  | .remove i => pushPatchLine 45 (token old i)
  | .add i => pushPatchLine 43 (token new i)

def hunkHeader (hunk : ComputedHunk) : Text :=
  bytesOf "@@ -" ++ decimal hunk.oldStart ++ bytesOf "," ++ decimal hunk.oldCount ++ bytesOf " +" ++
    decimal hunk.newStart ++ bytesOf "," ++ decimal hunk.newCount ++ bytesOf " @@\n"

def renderHunk (old new : List Text) (hunk : ComputedHunk) : Text :=
  hunkHeader hunk ++ hunk.plan.flatMap (renderLine old new)

def headerLine (path : Text) : Text :=
  bytesOf "diff --git " ++ pathForHeader (bytesOf "a") path ++ bytesOf " " ++
    pathForHeader (bytesOf "b") path ++ bytesOf "\n"

/-- The mode of a file that is new or deleted; a modified file has no such line. -/
def modeLines (status : DiffFileStatus) (oldMode newMode : Text) : List Text :=
  match status with
  | .added => [bytesOf "new file mode " ++ newMode ++ bytesOf "\n"]
  | .deleted => [bytesOf "deleted file mode " ++ oldMode ++ bytesOf "\n"]
  | _ => []

def minusLine (path : Text) (status : DiffFileStatus) : Text :=
  match status with
  | .added => bytesOf "--- /dev/null\n"
  | _ => bytesOf "--- " ++ pathForHeader (bytesOf "a") path ++ bytesOf "\n"

def plusLine (path : Text) (status : DiffFileStatus) : Text :=
  match status with
  | .deleted => bytesOf "+++ /dev/null\n"
  | _ => bytesOf "+++ " ++ pathForHeader (bytesOf "b") path ++ bytesOf "\n"

def renderPatch (path : Text) (status : DiffFileStatus) (oldMode newMode : Text)
    (old new : List Text) (hunks : List ComputedHunk) : Text :=
  headerLine path ++ (modeLines status oldMode newMode).flatten ++ minusLine path status ++
    plusLine path status ++ hunks.flatMap (renderHunk old new)

/-! ## The grammar -/

/-- A line of a hunk as it is read, with its newline if it has one. -/
structure PatchLine where
  kind : DiffLineKind
  text : Text
  deriving DecidableEq

structure PatchHunk where
  oldStart : Nat
  oldCount : Nat
  newStart : Nat
  newCount : Nat
  lines : List PatchLine
  deriving DecidableEq

/-- What a patch says of one file. The names are those of the header and those of the two sides,
where a side may be missing. -/
structure Patch where
  headerNames : Text × Text
  oldName : Option Text
  newName : Option Text
  status : DiffFileStatus
  mode : Option Text
  hunks : List PatchHunk
  deriving DecidableEq

/-- The text after this beginning. -/
def expect (front text : Text) : Option Text :=
  if front.isPrefixOf text then some (text.drop front.length) else none

def isDigit (b : UInt8) : Bool := 48 ≤ b && b ≤ 57

def readNat (text : Text) : Option (Nat × Text) :=
  match text.takeWhile isDigit with
  | [] => none
  | digits =>
    some (Nat.ofDigitChars 10 (digits.map fun b => Char.ofNat b.toNat) 0, text.dropWhile isDigit)

/-- The escapes of a quoted name that are letters or signs. -/
def letterEscape (b : UInt8) : Option UInt8 :=
  [(97, 7), (98, 8), (102, 12), (110, 10), (114, 13), (116, 9), (118, 11), (34, 34), (92, 92)].lookup b

def readOctal (c d e : UInt8) : Option UInt8 :=
  if 48 ≤ c ∧ c ≤ 51 ∧ 48 ≤ d ∧ d ≤ 55 ∧ 48 ≤ e ∧ e ≤ 55 then
    some ((c - 48) * 64 + (d - 48) * 8 + (e - 48))
  else none

/-- The name up to the closing quote, and the text after it. -/
def readQuoted : Text → Option (Text × Text)
  | [] => none
  | b :: text =>
    if b = 34 then some ([], text)
    else if b = 92 then
      match text with
      | [] => none
      | c :: text =>
        match letterEscape c with
        | some b => (readQuoted text).map fun (name, rest) => (b :: name, rest)
        | none =>
          match text with
          | d :: e :: text =>
            (readOctal c d e).bind fun b => (readQuoted text).map fun (name, rest) => (b :: name, rest)
          | _ => none
    else (readQuoted text).map fun (name, rest) => (b :: name, rest)

/-- A name is quoted, or goes on to the next of these bytes. -/
def readName (ends : List UInt8) (text : Text) : Option (Text × Text) :=
  match expect (bytesOf "\"") text with
  | some text => readQuoted text
  | none => some (text.takeWhile (· ∉ ends), text.dropWhile (· ∉ ends))

/-- The name without its first component. -/
def stripComponent (name : Text) : Text := (name.dropWhile (· ≠ 47)).tail

def readHeader (line : Text) : Option (Text × Text) := do
  let text ← expect (bytesOf "diff --git ") line
  let (a, text) ← readName [32, 10] text
  let text ← expect (bytesOf " ") text
  let (b, text) ← readName [32, 10] text
  if text = [newline] then some (stripComponent a, stripComponent b) else none

/-- The name of a side; the null device says that it is missing. -/
def readSide (front line : Text) : Option (Option Text) := do
  let text ← expect front line
  if text = bytesOf "/dev/null\n" then return none
  let (name, _) ← readName [9, 10] text
  return some (stripComponent name)

def readMode (line : Text) : Option (DiffFileStatus × Text) :=
  match expect (bytesOf "new file mode ") line with
  | some mode => some (.added, mode.dropLast)
  | none => (expect (bytesOf "deleted file mode ") line).map fun mode => (.deleted, mode.dropLast)

def readKind (b : UInt8) : Option DiffLineKind :=
  if b = 32 then some .context else if b = 45 then some .deletion else if b = 43 then some .addition
  else none

/-- The counts of a hunk after one more line; none if the header does not allow it. -/
def countDown : DiffLineKind → Nat → Nat → Option (Nat × Nat)
  | .context, o + 1, n + 1 => some (o, n)
  | .deletion, o + 1, n => some (o, n)
  | .addition, o, n + 1 => some (o, n)
  | _, _, _ => none

def isMarker (line : Text) : Bool := line.head? = some 92

/-- The lines of a hunk, until the counts of its header are used up. A marker takes the newline
from the line before it. -/
def readHunkLines : Nat → Nat → List Text → Option (List PatchLine × List Text)
  | o, n, [] => if o = 0 ∧ n = 0 then some ([], []) else none
  | o, n, line :: lines =>
    if o = 0 ∧ n = 0 then some ([], line :: lines)
    else
      match line with
      | [] => none
      | mark :: text =>
        (readKind mark).bind fun kind =>
          (countDown kind o n).bind fun (o, n) =>
            match lines with
            | [] => (readHunkLines o n []).map fun (read, rest) => (⟨kind, text⟩ :: read, rest)
            | next :: lines =>
              if isMarker next then
                (readHunkLines o n lines).map fun (read, rest) => (⟨kind, text.dropLast⟩ :: read, rest)
              else
                (readHunkLines o n (next :: lines)).map fun (read, rest) => (⟨kind, text⟩ :: read, rest)

/-- A start and a count, which is one if it is left out. -/
def readRange (text : Text) : Option (Nat × Nat × Text) := do
  let (start, text) ← readNat text
  match expect (bytesOf ",") text with
  | some text =>
    let (count, text) ← readNat text
    return (start, count, text)
  | none => return (start, 1, text)

def readHunkHeader (line : Text) : Option (Nat × Nat × Nat × Nat) := do
  let text ← expect (bytesOf "@@ -") line
  let (oldStart, oldCount, text) ← readRange text
  let text ← expect (bytesOf " +") text
  let (newStart, newCount, text) ← readRange text
  let _ ← expect (bytesOf " @@") text
  return (oldStart, oldCount, newStart, newCount)

/-- One hunk after the other; each has a line at least. -/
def readHunks : Nat → List Text → Option (List PatchHunk)
  | _, [] => some []
  | 0, _ => none
  | fuel + 1, line :: lines => do
    let (oldStart, oldCount, newStart, newCount) ← readHunkHeader line
    let (read, lines) ← readHunkLines oldCount newCount lines
    let hunks ← readHunks fuel lines
    return ⟨oldStart, oldCount, newStart, newCount, read⟩ :: hunks

def readPatch (text : Text) : Option Patch := do
  match splitInclusive newline text with
  | header :: line :: lines =>
    let names ← readHeader header
    let (status, mode, lines) :=
      match readMode line with
      | some (status, mode) => (status, some mode, lines)
      | none => (.modified, none, line :: lines)
    match lines with
    | minus :: plus :: lines =>
      let oldName ← readSide (bytesOf "--- ") minus
      let newName ← readSide (bytesOf "+++ ") plus
      let hunks ← readHunks lines.length lines
      return ⟨names, oldName, newName, status, mode, hunks⟩
    | _ => none
  | _ => none

/-! ## Reading what was rendered -/

theorem expect_append (front text : Text) : expect front (front ++ text) = some text := by
  rw [expect, if_pos (List.isPrefixOf_iff_prefix.mpr (List.prefix_append _ _)), List.drop_left]

theorem expect_eq_none {front text : Text} {a b : UInt8} (hfront : front.head? = some a)
    (htext : text.head? = some b) (hab : a ≠ b) : expect front text = none := by
  rw [expect, if_neg]
  intro hfirst
  obtain ⟨rest, rfl⟩ := List.isPrefixOf_iff_prefix.mp hfirst
  cases front with
  | nil => cases hfront
  | cons c front =>
    rw [List.cons_append, List.head?_cons] at htext
    rw [List.head?_cons] at hfront
    exact hab (Option.some.inj (hfront.symm.trans htext))

/-- What holds of all numbers of a byte holds of all bytes. -/
theorem forall_byte {p : UInt8 → Prop} (h : ∀ n : Fin 256, p (UInt8.ofNat n)) (b : UInt8) : p b := by
  have hb := h ⟨b.toNat, b.toNat_lt⟩
  simpa using hb

section Decimal
variable (n : Nat)

theorem digit_of_mem {c : Char} (hc : c ∈ Nat.toDigits 10 n) :
    isDigit (UInt8.ofNat c.toNat) = true ∧ Char.ofNat (UInt8.ofNat c.toNat).toNat = c := by
  have hdigit := Nat.isDigit_of_mem_toDigits (by decide) (by decide) hc
  simp only [Char.isDigit, Bool.and_eq_true, decide_eq_true_eq] at hdigit
  have hlow : 48 ≤ c.toNat := hdigit.1
  have hhigh : c.toNat ≤ 57 := hdigit.2
  have hbyte : (UInt8.ofNat c.toNat).toNat = c.toNat := by
    rw [UInt8.toNat_ofNat']
    omega
  constructor
  · simp only [isDigit, Bool.and_eq_true, decide_eq_true_eq, UInt8.le_iff_toNat_le, hbyte]
    exact ⟨hlow, hhigh⟩
  · rw [hbyte, Char.ofNat_toNat]

theorem isDigit_decimal {b : UInt8} (hb : b ∈ decimal n) : isDigit b = true := by
  obtain ⟨c, hc, rfl⟩ := List.mem_map.mp hb
  exact (digit_of_mem n hc).1

theorem readNat_decimal {b : UInt8} (hb : isDigit b = false) (text : Text) :
    readNat (decimal n ++ b :: text) = some (n, b :: text) := by
  have hdigits : ∀ a ∈ decimal n, isDigit a = true := fun a ha => isDigit_decimal n ha
  have htake : (decimal n ++ b :: text).takeWhile isDigit = decimal n := by
    rw [List.takeWhile_append_of_pos hdigits, List.takeWhile_cons_of_neg (by simp [hb]), List.append_nil]
  have hdrop : (decimal n ++ b :: text).dropWhile isDigit = b :: text := by
    rw [List.dropWhile_append_of_pos hdigits, List.dropWhile_cons_of_neg (by simp [hb])]
  have hchars : (decimal n).map (fun b => Char.ofNat b.toNat) = Nat.toDigits 10 n := by
    rw [decimal, List.map_map]
    refine (List.map_congr_left fun c hc => ?_).trans (List.map_id _)
    exact (digit_of_mem n hc).2
  have hne : decimal n ≠ [] := by
    rw [decimal, ne_eq, List.map_eq_nil_iff]
    exact Nat.toDigits_ne_nil
  rw [readNat, htake, hdrop]
  split
  · contradiction
  · rw [hchars, Nat.ofDigitChars_ten_toDigits]

end Decimal

section Names
variable {side path rest : Text} {ends : List UInt8} {b e : UInt8}

theorem readOctal_octal (b : UInt8) : readOctal (48 + b / 64) (48 + b / 8 % 8) (48 + b % 8) = some b := by
  refine forall_byte (p := fun b => readOctal (48 + b / 64) (48 + b / 8 % 8) (48 + b % 8) = some b) ?_ b
  decide +kernel

theorem letterEscape_octal (b : UInt8) : letterEscape (48 + b / 64) = none := by
  refine forall_byte (p := fun b => letterEscape (48 + b / 64) = none) ?_ b
  decide +kernel

theorem le_of_mem_escapeByte (b : UInt8) : ∀ c ∈ escapeByte b, 32 ≤ c := by
  have hall : (escapeByte b).all (32 ≤ ·) = true := by
    refine forall_byte (p := fun b => (escapeByte b).all (32 ≤ ·) = true) ?_ b
    decide +kernel
  exact fun c hc => of_decide_eq_true (List.all_eq_true.mp hall c hc)

theorem readQuoted_escapeByte (b : UInt8) (text : Text) :
    readQuoted (escapeByte b ++ text) = (readQuoted text).map fun (name, rest) => (b :: name, rest) := by
  rw [escapeByte]
  split_ifs with hquote hslash hplain
  · have hescape : bytesOf "\\\"" = [92, 34] := by simp [bytesOf]
    have hletter : letterEscape 34 = some 34 := by decide
    rw [hescape, List.cons_append, List.cons_append, readQuoted.eq_def]
    simp [hletter, hquote]
  · have hescape : bytesOf "\\\\" = [92, 92] := by simp [bytesOf]
    have hletter : letterEscape 92 = some 92 := by decide
    rw [hescape, List.cons_append, List.cons_append, readQuoted.eq_def]
    simp [hletter, hslash]
  · rw [List.cons_append, List.nil_append, readQuoted.eq_def]
    simp [hquote, hslash]
  · rw [octal, List.cons_append, List.cons_append, readQuoted.eq_def]
    simp [letterEscape_octal, readOctal_octal]

theorem readQuoted_escaped (name rest : Text) :
    readQuoted (name.flatMap escapeByte ++ 34 :: rest) = some (name, rest) := by
  induction name with
  | nil =>
    rw [List.flatMap_nil, List.nil_append, readQuoted.eq_def]
    simp
  | cons b name ih => rw [List.flatMap_cons, List.append_assoc, readQuoted_escapeByte, ih, Option.map_some]

theorem bytesOf_quote : bytesOf "\"" = [34] := by simp [bytesOf]

theorem bytesOf_slash : bytesOf "/" = [47] := by simp [bytesOf]

/-- A name that is rendered reads as it is, up to the byte that ends it. -/
theorem readName_pathForHeader (hb : b ≠ 34) (hends : ∀ a ∈ ends, a ≤ 32) (he : e ∈ ends) :
    readName ends (pathForHeader [b] path ++ e :: rest) = some (b :: 47 :: path, e :: rest) := by
  have hfull : [b] ++ bytesOf "/" ++ path = b :: 47 :: path := by rw [bytesOf_slash]; rfl
  simp only [pathForHeader, hfull]
  split_ifs with hall
  · have hplain : ∀ a ∈ b :: 47 :: path, decide (a ∉ ends) = true := by
      intro a ha
      have hlow := List.all_eq_true.mp hall a ha
      simp only [Bool.and_eq_true, decide_eq_true_eq] at hlow
      refine decide_eq_true fun hmem => ?_
      have hhigh := hends a hmem
      simp only [UInt8.le_iff_toNat_le] at hlow hhigh
      have h32 : (32 : UInt8).toNat = 32 := rfl
      have h33 : (33 : UInt8).toNat = 33 := rfl
      omega
    have hnone : expect (bytesOf "\"") (b :: 47 :: path ++ e :: rest) = none := by
      rw [bytesOf_quote]
      exact expect_eq_none rfl rfl hb.symm
    rw [readName, hnone]
    simp only [List.takeWhile_append_of_pos hplain, List.dropWhile_append_of_pos hplain]
    simp [he]
  · rw [readName, bytesOf_quote, List.append_assoc, List.append_assoc, expect_append]
    exact readQuoted_escaped _ _

theorem newline_notMem_pathForHeader : newline ∉ pathForHeader [b] path := by
  have hfull : [b] ++ bytesOf "/" ++ path = b :: 47 :: path := by rw [bytesOf_slash]; rfl
  simp only [pathForHeader, hfull]
  split_ifs with hall
  · intro hmem
    have hlow := List.all_eq_true.mp hall _ hmem
    revert hlow
    decide
  · rw [bytesOf_quote]
    intro hmem
    simp only [List.mem_append, List.mem_singleton, List.mem_flatMap] at hmem
    rcases hmem with (hmem | ⟨a, -, hmem⟩) | hmem
    · revert hmem; decide
    · have hlow := le_of_mem_escapeByte a _ hmem
      revert hlow
      decide
    · revert hmem; decide

theorem stripComponent_cons (hb : b ≠ 47) : stripComponent (b :: 47 :: path) = path := by
  simp [stripComponent, hb]

theorem head?_pathForHeader (hb : b ≠ 47) : ∃ a, a ≠ 47 ∧ (pathForHeader [b] path).head? = some a := by
  have hfull : [b] ++ bytesOf "/" ++ path = b :: 47 :: path := by rw [bytesOf_slash]; rfl
  simp only [pathForHeader, hfull]
  split_ifs
  · exact ⟨b, hb, rfl⟩
  · exact ⟨34, by decide, by rw [bytesOf_quote]; rfl⟩

end Names

/-! ## The lines of the header -/

section Header
variable {path mode : Text}

theorem bytesOf_sides : bytesOf "a" = [97] ∧ bytesOf "b" = [98] := by simp [bytesOf]

theorem bytesOf_blank : bytesOf " " = [32] := by simp [bytesOf]

theorem bytesOf_newline : bytesOf "\n" = [newline] := by simp [bytesOf, newline]

theorem readHeader_rendered : readHeader (headerLine path) = some (path, path) := by
  have ha : readName [32, 10] (pathForHeader [97] path ++ 32 :: (pathForHeader [98] path ++ [newline])) =
      some (97 :: 47 :: path, 32 :: (pathForHeader [98] path ++ [newline])) :=
    readName_pathForHeader (by decide) (by simp) (by decide)
  have hb : readName [32, 10] (pathForHeader [98] path ++ [newline]) =
      some (98 :: 47 :: path, [newline]) :=
    readName_pathForHeader (by decide) (by simp) (by decide)
  have hblank : expect [32] (32 :: (pathForHeader [98] path ++ [newline])) =
      some (pathForHeader [98] path ++ [newline]) := expect_append [32] _
  simp only [headerLine, bytesOf_sides, bytesOf_blank, bytesOf_newline, List.append_assoc, readHeader, expect_append,
    List.cons_append, List.nil_append, Option.bind_eq_bind, Option.bind_some, ha, hb, hblank, if_true, stripComponent_cons (show (97 : UInt8) ≠ 47 by decide),
    stripComponent_cons (show (98 : UInt8) ≠ 47 by decide)]

theorem bytesOf_null : bytesOf "/dev/null\n" = 47 :: bytesOf "dev/null\n" := by simp [bytesOf]

theorem readSide_name (front : Text) {b : UInt8} (hb : b ≠ 34) (hb' : b ≠ 47) :
    readSide front (front ++ pathForHeader [b] path ++ bytesOf "\n") = some (some path) := by
  have hname : readName [9, 10] (pathForHeader [b] path ++ [newline]) =
      some (b :: 47 :: path, [newline]) :=
    readName_pathForHeader hb (by simp) (by decide)
  obtain ⟨a, ha, hhead⟩ : ∃ a, a ≠ 47 ∧ (pathForHeader [b] path).head? = some a :=
    head?_pathForHeader hb'
  have hnot : pathForHeader [b] path ++ [newline] ≠ bytesOf "/dev/null\n" := by
    intro heq
    rw [bytesOf_null] at heq
    have hfirst := congrArg List.head? heq
    rw [List.head?_append, hhead] at hfirst
    exact ha (Option.some.inj hfirst)
  rw [bytesOf_newline, List.append_assoc, readSide, expect_append]
  simp only [Option.bind_eq_bind, Option.bind_some, if_neg hnot, hname, stripComponent_cons hb']
  rfl

theorem readSide_null (front : Text) :
    readSide front (front ++ bytesOf "/dev/null\n") = some none := by
  rw [readSide, expect_append]
  simp

theorem readMode_added : readMode (bytesOf "new file mode " ++ mode ++ bytesOf "\n") = some (.added, mode) := by
  rw [readMode, List.append_assoc, expect_append, bytesOf_newline]
  simp only [List.dropLast_concat]

theorem readMode_deleted :
    readMode (bytesOf "deleted file mode " ++ mode ++ bytesOf "\n") = some (.deleted, mode) := by
  have hnew : (bytesOf "new file mode ").head? = some 110 := by simp [bytesOf]
  have hdeleted : (bytesOf "deleted file mode ").head? = some 100 := by simp [bytesOf]
  rw [readMode, List.append_assoc, expect_eq_none hnew (b := 100) (by simp [hdeleted]) (by decide),
    expect_append, bytesOf_newline, Option.map_some, List.dropLast_concat]

theorem readMode_none {line : Text} (h : line.head? = some 45) : readMode line = none := by
  have hnew : (bytesOf "new file mode ").head? = some 110 := by simp [bytesOf]
  have hdeleted : (bytesOf "deleted file mode ").head? = some 100 := by simp [bytesOf]
  rw [readMode, expect_eq_none hnew h (by decide), expect_eq_none hdeleted h (by decide)]
  rfl

end Header

/-! ## The lines of the hunks -/

section Hunks
variable {old new : List Text} {hunk : ComputedHunk}

theorem readRange_rendered (n m : Nat) {b : UInt8} (hb : isDigit b = false) (text : Text) :
    readRange (decimal n ++ bytesOf "," ++ decimal m ++ b :: text) = some (n, m, b :: text) := by
  have hcomma : bytesOf "," = [44] := by simp [bytesOf]
  have hfirst : readNat (decimal n ++ 44 :: (decimal m ++ b :: text)) =
      some (n, 44 :: (decimal m ++ b :: text)) := readNat_decimal n (by decide) _
  have hnext : expect [44] (44 :: (decimal m ++ b :: text)) = some (decimal m ++ b :: text) :=
    expect_append [44] _
  simp only [readRange, hcomma, List.append_assoc, List.cons_append, List.nil_append, hfirst,
    Option.bind_eq_bind, Option.bind_some, hnext, readNat_decimal m hb]
  rfl

theorem readHunkHeader_rendered (hunk : ComputedHunk) : readHunkHeader (hunkHeader hunk) =
    some (hunk.oldStart, hunk.oldCount, hunk.newStart, hunk.newCount) := by
  have hplus : bytesOf " +" = [32, 43] := by simp [bytesOf]
  have hend : bytesOf " @@\n" = 32 :: [64, 64, 10] := by simp [bytesOf]
  have hstop : bytesOf " @@" = [32, 64, 64] := by simp [bytesOf]
  have hnew : readRange (decimal hunk.newStart ++ bytesOf "," ++ decimal hunk.newCount ++
      32 :: [64, 64, 10]) = some (hunk.newStart, hunk.newCount, 32 :: [64, 64, 10]) :=
    readRange_rendered _ _ (by decide) _
  have hold : readRange (decimal hunk.oldStart ++ bytesOf "," ++ decimal hunk.oldCount ++
      32 :: 43 :: (decimal hunk.newStart ++ bytesOf "," ++ decimal hunk.newCount ++ 32 :: [64, 64, 10])) =
      some (hunk.oldStart, hunk.oldCount, 32 :: 43 :: (decimal hunk.newStart ++ bytesOf "," ++
        decimal hunk.newCount ++ 32 :: [64, 64, 10])) := readRange_rendered _ _ (by decide) _
  have hmiddle : ∀ text, expect [32, 43] (32 :: 43 :: text) = some text := expect_append [32, 43]
  have hlast : expect [32, 64, 64] (32 :: [64, 64, 10]) = some [10] := expect_append [32, 64, 64] [10]
  simp only [List.append_assoc] at hold hnew
  simp only [readHunkHeader, hunkHeader, hplus, hend, hstop, List.append_assoc, expect_append,
    List.cons_append, List.nil_append, Option.bind_eq_bind, Option.bind_some, hold, hmiddle, hnew, hlast]
  rfl

/-- A token is a line, with its newline unless it is the last one. -/
def IsLine (token : Text) : Prop :=
  ∃ word, newline ∉ word ∧ (token = word ++ [newline] ∨ token = word ∧ word ≠ [])

theorem isLine_of_mem {text token : Text} (h : token ∈ lineTokens text) : IsLine token := by
  cases text with
  | nil => cases h
  | cons b text => exact mem_splitInclusive h

def noNewline : Text := bytesOf "\\ No newline at end of file\n"

/-- The lines of a patch that a line of a hunk is rendered to. -/
def lineLines (mark : UInt8) (token : Text) : List Text :=
  if token.getLast? = some newline then [mark :: token] else [mark :: token ++ [newline], noNewline]

theorem pushPatchLine_eq (mark : UInt8) (token : Text) :
    pushPatchLine mark token = (lineLines mark token).flatten := by
  rw [pushPatchLine, lineLines]
  split_ifs
  · simp
  · simp [noNewline]

theorem readHunkLines_line {mark : UInt8} {kind : DiffLineKind} {token : Text} {o n o' n' : Nat}
    {tail : List Text} (hkind : readKind mark = some kind) (hcount : countDown kind o n = some (o', n'))
    (htoken : IsLine token) (htail : ∀ line ∈ tail.head?, isMarker line = false) :
    readHunkLines o n (lineLines mark token ++ tail) =
      (readHunkLines o' n' tail).map fun (read, rest) => (⟨kind, token⟩ :: read, rest) := by
  have hmore : ¬ (o = 0 ∧ n = 0) := by
    rintro ⟨rfl, rfl⟩
    cases kind <;> cases hcount
  obtain ⟨word, hword, rfl | ⟨rfl, hne⟩⟩ := htoken
  · rw [lineLines, if_pos List.getLast?_concat, List.singleton_append, readHunkLines.eq_def]
    simp only [if_neg hmore, hkind, hcount, Option.bind_some]
    cases tail with
    | nil => rfl
    | cons next tail => simp [htail next rfl]
  · have hlast : token.getLast? ≠ some newline := fun h => hword (List.mem_of_getLast? h)
    have hmarker : isMarker noNewline = true := by decide +kernel
    rw [lineLines, if_neg hlast, readHunkLines.eq_def]
    simp [hmore, hkind, hcount, hmarker]

def mark : PlanLine → UInt8
  | .context _ _ => 32
  | .remove _ => 45
  | .add _ => 43

def lineToken (old new : List Text) : PlanLine → Text
  | .context i _ | .remove i => token old i
  | .add i => token new i

def lineKind : PlanLine → DiffLineKind
  | .context _ _ => .context
  | .remove _ => .deletion
  | .add _ => .addition

/-- The lines of the patch for a line of the plan. -/
def planLines (old new : List Text) (line : PlanLine) : List Text :=
  lineLines (mark line) (lineToken old new line)

theorem renderLine_eq (line : PlanLine) :
    renderLine old new line = (planLines old new line).flatten := by
  cases line <;> exact pushPatchLine_eq _ _

theorem isMarker_planLines {line : PlanLine} {tail : List Text} {first : Text}
    (h : first ∈ (planLines old new line ++ tail).head?) : isMarker first = false := by
  have hmark : isMarker (mark line :: []) = false := by cases line <;> rfl
  rw [planLines, lineLines] at h
  split_ifs at h
  · obtain rfl : first = _ := by simpa using h.symm
    exact hmark
  · obtain rfl : first = _ := by simpa using h.symm
    exact hmark

theorem readHunkLines_rendered {plan : List PlanLine} {rest : List Text}
    (htokens : ∀ line ∈ plan, IsLine (lineToken old new line))
    (hrest : ∀ line ∈ rest.head?, isMarker line = false) :
    readHunkLines (plan.filterMap (·.old?)).length (plan.filterMap (·.new?)).length
        (plan.flatMap (planLines old new) ++ rest) =
      some (plan.map fun line => ⟨lineKind line, lineToken old new line⟩, rest) := by
  induction plan with
  | nil =>
    rw [readHunkLines.eq_def]
    cases rest <;> simp
  | cons line plan ih =>
    rw [List.forall_mem_cons] at htokens
    have hkind : readKind (mark line) = some (lineKind line) := by cases line <;> rfl
    have hcount : countDown (lineKind line) ((line :: plan).filterMap (·.old?)).length
        ((line :: plan).filterMap (·.new?)).length =
          some ((plan.filterMap (·.old?)).length, (plan.filterMap (·.new?)).length) := by
      cases line <;> rfl
    have htail : ∀ first ∈ (plan.flatMap (planLines old new) ++ rest).head?, isMarker first = false := by
      cases plan with
      | nil => exact hrest
      | cons next plan =>
        rw [List.flatMap_cons, List.append_assoc]
        exact fun first => isMarker_planLines
    rw [List.flatMap_cons, List.append_assoc, planLines, readHunkLines_line hkind hcount htokens.1 htail,
      ih htokens.2]
    rfl

/-- A line of a plan and a line of a patch are the same line of the texts. -/
def Reads (old new : List Text) : PlanLine → PatchLine → Prop
  | .context i j, line => line.kind = .context ∧ old[i]? = some line.text ∧ new[j]? = some line.text
  | .remove i, line => line.kind = .deletion ∧ old[i]? = some line.text
  | .add i, line => line.kind = .addition ∧ new[i]? = some line.text

/-- A hunk is read with its header and its lines. -/
def ReadsHunk (old new : List Text) (hunk : ComputedHunk) (read : PatchHunk) : Prop :=
  read.oldStart = hunk.oldStart ∧ read.oldCount = hunk.oldCount ∧ read.newStart = hunk.newStart ∧
    read.newCount = hunk.newCount ∧ List.Forall₂ (Reads old new) hunk.plan read.lines

/-- The plan of a hunk has as many lines as its header says, and they are lines of the texts. -/
structure Sound (old new : List Text) (hunk : ComputedHunk) : Prop where
  oldCount : (hunk.plan.filterMap (·.old?)).length = hunk.oldCount
  newCount : (hunk.plan.filterMap (·.new?)).length = hunk.newCount
  reads : ∀ line ∈ hunk.plan, Reads old new line ⟨lineKind line, lineToken old new line⟩

theorem Sound.isLine {oldText newText : Text} (h : Sound (lineTokens oldText) (lineTokens newText) hunk) :
    ∀ line ∈ hunk.plan, IsLine (lineToken (lineTokens oldText) (lineTokens newText) line) := by
  intro line hline
  have hread := h.reads line hline
  cases line with
  | context i j => exact isLine_of_mem (List.mem_of_getElem? hread.2.1)
  | remove i => exact isLine_of_mem (List.mem_of_getElem? hread.2)
  | add i => exact isLine_of_mem (List.mem_of_getElem? hread.2)

theorem Faithful.sound {raw : List Change} {hunks : List ComputedHunk}
    (h : Faithful old new raw hunks) (hhunk : hunk ∈ hunks) : Sound old new hunk := by
  obtain ⟨hold, hnew, holds, hnews⟩ := h.header hunk hhunk
  obtain ⟨hinOld, hinNew⟩ := h.inside hunk hhunk
  have holdLine : ∀ line ∈ hunk.plan, ∀ i, line.old? = some i → old[i]? = some (token old i) := by
    intro line hline i hi
    have hmem : i ∈ hunk.plan.filterMap (·.old?) := List.mem_filterMap.mpr ⟨line, hline, hi⟩
    rw [holds, List.mem_range'_1] at hmem
    rw [token, List.getElem?_eq_getElem (by omega), Option.getD_some]
  have hnewLine : ∀ line ∈ hunk.plan, ∀ i, line.new? = some i → new[i]? = some (token new i) := by
    intro line hline i hi
    have hmem : i ∈ hunk.plan.filterMap (·.new?) := List.mem_filterMap.mpr ⟨line, hline, hi⟩
    rw [hnews, List.mem_range'_1] at hmem
    rw [token, List.getElem?_eq_getElem (by omega), Option.getD_some]
  refine ⟨by rw [holds, List.length_range'], by rw [hnews, List.length_range'], fun line hline => ?_⟩
  cases line with
  | context i j =>
    have hi := holdLine _ hline i rfl
    exact ⟨rfl, hi, (h.context hunk hhunk i j hline).symm.trans hi⟩
  | remove i => exact ⟨rfl, holdLine _ hline i rfl⟩
  | add i => exact ⟨rfl, hnewLine _ hline i rfl⟩

def hunkLines (old new : List Text) (hunk : ComputedHunk) : List Text :=
  hunkHeader hunk :: hunk.plan.flatMap (planLines old new)

theorem renderHunk_eq (hunk : ComputedHunk) : renderHunk old new hunk = (hunkLines old new hunk).flatten := by
  rw [hunkLines, List.flatten_cons, List.flatMap_def, List.flatten_flatten, List.map_map]
  rw [renderHunk, List.flatMap_def]
  congr 2
  exact List.map_congr_left fun line _ => renderLine_eq line

theorem readHunks_rendered {oldText newText : Text} {hunks : List ComputedHunk} {fuel : Nat}
    (h : ∀ hunk ∈ hunks, Sound (lineTokens oldText) (lineTokens newText) hunk)
    (hfuel : hunks.length ≤ fuel) :
    ∃ read, readHunks fuel (hunks.flatMap (hunkLines (lineTokens oldText) (lineTokens newText))) =
        some read ∧
      List.Forall₂ (ReadsHunk (lineTokens oldText) (lineTokens newText)) hunks read := by
  induction hunks generalizing fuel with
  | nil => exact ⟨[], by cases fuel <;> rfl, .nil⟩
  | cons hunk hunks ih =>
    rw [List.forall_mem_cons] at h
    obtain ⟨hsound, hrest⟩ := h
    obtain ⟨fuel, rfl⟩ : ∃ k, fuel = k + 1 := ⟨fuel - 1, by rw [List.length_cons] at hfuel; omega⟩
    obtain ⟨read, hread, hforall⟩ := ih hrest (show hunks.length ≤ fuel by simpa using hfuel)
    have hnext : ∀ line ∈ (hunks.flatMap
        (hunkLines (lineTokens oldText) (lineTokens newText))).head?, isMarker line = false := by
      have hat : bytesOf "@@ -" = 64 :: bytesOf "@ -" := by simp [bytesOf]
      cases hunks with
      | nil => nofun
      | cons next hunks =>
        rintro line ⟨⟩
        simp [isMarker, hunkHeader, hat]
    have hlines := readHunkLines_rendered hsound.isLine hnext
    rw [hsound.oldCount, hsound.newCount] at hlines
    refine ⟨⟨hunk.oldStart, hunk.oldCount, hunk.newStart, hunk.newCount, hunk.plan.map fun line =>
        ⟨lineKind line, lineToken (lineTokens oldText) (lineTokens newText) line⟩⟩ :: read, ?_,
      .cons ⟨rfl, rfl, rfl, rfl, ?_⟩ hforall⟩
    · rw [List.flatMap_cons, hunkLines, List.cons_append, readHunks]
      simp only [readHunkHeader_rendered, Option.bind_eq_bind, Option.bind_some, hlines, hread]
      rfl
    · exact List.forall₂_map_right_iff.mpr (List.forall₂_same.mpr hsound.reads)

end Hunks

/-! ## The whole patch -/

section Patch
variable {old new : List Text} {path oldMode newMode : Text} {status : DiffFileStatus}

/-- A line of a patch ends with the only newline in it. -/
def Terminated (line : Text) : Prop := ∃ word, newline ∉ word ∧ line = word ++ [newline]

def patchLines (path : Text) (status : DiffFileStatus) (oldMode newMode : Text) (old new : List Text)
    (hunks : List ComputedHunk) : List Text :=
  headerLine path :: (modeLines status oldMode newMode ++ minusLine path status :: plusLine path status ::
    hunks.flatMap (hunkLines old new))

theorem renderPatch_eq (hunks : List ComputedHunk) :
    renderPatch path status oldMode newMode old new hunks =
      (patchLines path status oldMode newMode old new hunks).flatten := by
  have hhunks : hunks.flatMap (renderHunk old new) = (hunks.flatMap (hunkLines old new)).flatten := by
    rw [List.flatMap_def, List.flatMap_def, List.flatten_flatten, List.map_map]
    exact congrArg _ (List.map_congr_left fun hunk _ => renderHunk_eq hunk)
  rw [renderPatch, patchLines, hhunks]
  simp only [List.flatten_cons, List.flatten_append, List.append_assoc]

theorem newline_notMem_decimal (n : Nat) : newline ∉ decimal n := fun h => by
  have hdigit := isDigit_decimal n h
  revert hdigit
  decide

theorem newline_notMem_names :
    newline ∉ pathForHeader (bytesOf "a") path ∧ newline ∉ pathForHeader (bytesOf "b") path := by
  rw [bytesOf_sides.1, bytesOf_sides.2]
  exact ⟨newline_notMem_pathForHeader, newline_notMem_pathForHeader⟩

theorem terminated_append {front back : Text} (hfront : newline ∉ front) (hback : newline ∉ back) :
    Terminated (front ++ back ++ bytesOf "\n") :=
  ⟨front ++ back, by simp [hfront, hback], by rw [bytesOf_newline]⟩

theorem terminated_headerLine : Terminated (headerLine path) := by
  have hfront : newline ∉ bytesOf "diff --git " := by simp [bytesOf, newline]
  have hblank : newline ∉ bytesOf " " := by simp [bytesOf, newline]
  exact terminated_append (by simp [hfront, hblank, newline_notMem_names]) newline_notMem_names.2

theorem terminated_modeLines (hold : newline ∉ oldMode) (hnew : newline ∉ newMode) :
    ∀ line ∈ modeLines status oldMode newMode, Terminated line := by
  intro line hline
  cases status
  case added =>
    obtain rfl := List.mem_singleton.mp hline
    exact terminated_append (by simp [bytesOf, newline]) hnew
  case deleted =>
    obtain rfl := List.mem_singleton.mp hline
    exact terminated_append (by simp [bytesOf, newline]) hold
  all_goals cases hline

theorem terminated_minusLine : Terminated (minusLine path status) := by
  have hnull : Terminated (bytesOf "--- /dev/null\n") :=
    ⟨bytesOf "--- /dev/null", by simp [bytesOf, newline], by simp [bytesOf, newline]⟩
  have hname : Terminated (bytesOf "--- " ++ pathForHeader (bytesOf "a") path ++ bytesOf "\n") :=
    terminated_append (by simp [bytesOf, newline]) newline_notMem_names.1
  cases status <;> first | exact hnull | exact hname

theorem terminated_plusLine : Terminated (plusLine path status) := by
  have hnull : Terminated (bytesOf "+++ /dev/null\n") :=
    ⟨bytesOf "+++ /dev/null", by simp [bytesOf, newline], by simp [bytesOf, newline]⟩
  have hname : Terminated (bytesOf "+++ " ++ pathForHeader (bytesOf "b") path ++ bytesOf "\n") :=
    terminated_append (by simp [bytesOf, newline]) newline_notMem_names.2
  cases status <;> first | exact hnull | exact hname

theorem terminated_hunkHeader (hunk : ComputedHunk) : Terminated (hunkHeader hunk) := by
  have hstart : newline ∉ bytesOf "@@ -" := by simp [bytesOf, newline]
  have hcomma : newline ∉ bytesOf "," := by simp [bytesOf, newline]
  have hplus : newline ∉ bytesOf " +" := by simp [bytesOf, newline]
  have hend : bytesOf " @@\n" = bytesOf " @@" ++ [newline] := by simp [bytesOf, newline]
  have hend' : newline ∉ bytesOf " @@" := by simp [bytesOf, newline]
  refine ⟨_, ?_, by rw [hunkHeader, hend, ← List.append_assoc]⟩
  simp [hstart, hcomma, hplus, hend', newline_notMem_decimal]

theorem terminated_planLines {line : PlanLine} (h : IsLine (lineToken old new line)) :
    ∀ l ∈ planLines old new line, Terminated l := by
  have hmark : newline ≠ mark line := by cases line <;> (rw [mark]; decide)
  obtain ⟨word, hword, htoken⟩ := h
  intro l hl
  rw [planLines, lineLines] at hl
  rcases htoken with htoken | ⟨htoken, hne⟩
  · rw [htoken, if_pos List.getLast?_concat, List.mem_singleton] at hl
    exact ⟨mark line :: word, by simp [hmark, hword], hl⟩
  · have hlast : word.getLast? ≠ some newline := fun h => hword (List.mem_of_getLast? h)
    rw [htoken, if_neg hlast] at hl
    simp only [List.mem_cons, List.not_mem_nil, or_false] at hl
    rcases hl with rfl | rfl
    · exact ⟨mark line :: word, by simp [hmark, hword], rfl⟩
    · exact ⟨bytesOf "\\ No newline at end of file", by simp [bytesOf, newline], by decide +kernel⟩

theorem terminated_patchLines {hunks : List ComputedHunk} (hold : newline ∉ oldMode)
    (hnew : newline ∉ newMode)
    (htokens : ∀ hunk ∈ hunks, ∀ line ∈ hunk.plan, IsLine (lineToken old new line)) :
    ∀ line ∈ patchLines path status oldMode newMode old new hunks, Terminated line := by
  simp only [patchLines, List.mem_cons, List.mem_append, List.mem_flatMap, hunkLines]
  rintro line (rfl | hline | rfl | rfl | ⟨hunk, hhunk, rfl | ⟨planLine, hplan, hline⟩⟩)
  · exact terminated_headerLine
  · exact terminated_modeLines hold hnew line hline
  · exact terminated_minusLine
  · exact terminated_plusLine
  · exact terminated_hunkHeader hunk
  · exact terminated_planLines (htokens hunk hhunk planLine hplan) line hline

/-- The mode that a patch says, by its status. -/
def patchMode (status : DiffFileStatus) (oldMode newMode : Text) : Option Text :=
  match status with
  | .added => some newMode
  | .deleted => some oldMode
  | _ => none

theorem readSide_minusLine : readSide (bytesOf "--- ") (minusLine path status) =
    some (if status = .added then none else some path) := by
  have hnull : bytesOf "--- /dev/null\n" = bytesOf "--- " ++ bytesOf "/dev/null\n" := by simp [bytesOf]
  have hname : readSide (bytesOf "--- ") (bytesOf "--- " ++ pathForHeader (bytesOf "a") path ++
      bytesOf "\n") = some (some path) := by
    rw [bytesOf_sides.1]
    exact readSide_name _ (by decide) (by decide)
  cases status <;> first | exact hname | exact (congrArg _ hnull).trans (readSide_null _)

theorem readSide_plusLine : readSide (bytesOf "+++ ") (plusLine path status) =
    some (if status = .deleted then none else some path) := by
  have hnull : bytesOf "+++ /dev/null\n" = bytesOf "+++ " ++ bytesOf "/dev/null\n" := by simp [bytesOf]
  have hname : readSide (bytesOf "+++ ") (bytesOf "+++ " ++ pathForHeader (bytesOf "b") path ++
      bytesOf "\n") = some (some path) := by
    rw [bytesOf_sides.2]
    exact readSide_name _ (by decide) (by decide)
  cases status <;> first | exact hname | exact (congrArg _ hnull).trans (readSide_null _)

theorem readMode_minusLine : readMode (minusLine path status) = none := by
  have hfront : bytesOf "--- " = 45 :: bytesOf "-- " := by simp [bytesOf]
  have hnull : bytesOf "--- /dev/null\n" = 45 :: bytesOf "-- /dev/null\n" := by simp [bytesOf]
  cases status <;> exact readMode_none (by simp [minusLine, hfront, hnull])

/-- The lines before the hunks, read. -/
theorem readPatch_of_hunks {lines : List Text} {text : Text} {read : List PatchHunk}
    (hstatus : status = .added ∨ status = .deleted ∨ status = .modified)
    (hsplit : splitInclusive newline text = headerLine path ::
      (modeLines status oldMode newMode ++ minusLine path status :: plusLine path status :: lines))
    (hread : readHunks lines.length lines = some read) :
    readPatch text = some ⟨(path, path), if status = .added then none else some path,
      if status = .deleted then none else some path, status, patchMode status oldMode newMode, read⟩ := by
  have hminus : readSide (bytesOf "--- ") (minusLine path status) =
      some (if status = .added then none else some path) := readSide_minusLine
  have hplus : readSide (bytesOf "+++ ") (plusLine path status) =
      some (if status = .deleted then none else some path) := readSide_plusLine
  rcases hstatus with rfl | rfl | rfl
  · simp only [readPatch, hsplit, modeLines, List.cons_append, List.nil_append, readHeader_rendered,
      readMode_added, hminus, hplus, hread, Option.bind_eq_bind, Option.bind_some]
    rfl
  · simp only [readPatch, hsplit, modeLines, List.cons_append, List.nil_append, readHeader_rendered,
      readMode_deleted, hminus, hplus, hread, Option.bind_eq_bind, Option.bind_some]
    rfl
  · simp only [readPatch, hsplit, modeLines, List.nil_append, readHeader_rendered, readMode_minusLine,
      hminus, hplus, hread, Option.bind_eq_bind, Option.bind_some]
    rfl

theorem length_le_flatMap (hunks : List ComputedHunk) :
    hunks.length ≤ (hunks.flatMap (hunkLines old new)).length := by
  induction hunks with
  | nil => exact le_rfl
  | cons hunk hunks ih =>
    simp only [List.flatMap_cons, hunkLines, List.length_append, List.length_cons]
    omega

/-- Sound hunks are read from their patch. -/
theorem readPatch_of_sound {oldText newText : Text} {selected : List ComputedHunk}
    (hsound : ∀ hunk ∈ selected, Sound (lineTokens oldText) (lineTokens newText) hunk) (path : Text)
    (hstatus : status = .added ∨ status = .deleted ∨ status = .modified)
    (hold : newline ∉ oldMode) (hnew : newline ∉ newMode) :
    ∃ read, readPatch (renderPatch path status oldMode newMode (lineTokens oldText)
        (lineTokens newText) selected) =
      some ⟨(path, path), if status = .added then none else some path,
        if status = .deleted then none else some path, status, patchMode status oldMode newMode, read⟩ ∧
      List.Forall₂ (ReadsHunk (lineTokens oldText) (lineTokens newText)) selected read := by
  have hlines : ∀ line ∈ patchLines path status oldMode newMode (lineTokens oldText)
      (lineTokens newText) selected, Terminated line :=
    terminated_patchLines hold hnew fun hunk hhunk => (hsound hunk hhunk).isLine
  obtain ⟨read, hread, hforall⟩ := readHunks_rendered hsound (length_le_flatMap selected)
  refine ⟨read, readPatch_of_hunks hstatus ?_ hread, hforall⟩
  rw [renderPatch_eq, splitInclusive_flatten hlines, patchLines]

theorem sound_of_compute {diff : LineDiff} {oldText newText : Text} {hunks : List ComputedHunk}
    (h : compute diff oldText newText = some hunks) :
    ∀ hunk ∈ hunks, Sound (lineTokens oldText) (lineTokens newText) hunk := by
  obtain ⟨raw, -, hfaithful⟩ := faithful_of_compute h
  exact fun hunk hhunk => hfaithful.sound hhunk

/-- Chosen hunks of the texts are read from their patch with the exact lines, the path, the status
and the mode that they were rendered with. -/
theorem readPatch_renderPatch (diff : LineDiff) (oldText newText : Text)
    {hunks selected : List ComputedHunk} (hhunks : compute diff oldText newText = some hunks)
    (hselected : ∀ hunk ∈ selected, hunk ∈ hunks) (path : Text)
    (hstatus : status = .added ∨ status = .deleted ∨ status = .modified)
    (hold : newline ∉ oldMode) (hnew : newline ∉ newMode) :
    ∃ read, readPatch (renderPatch path status oldMode newMode (lineTokens oldText)
        (lineTokens newText) selected) =
      some ⟨(path, path), if status = .added then none else some path,
        if status = .deleted then none else some path, status, patchMode status oldMode newMode, read⟩ ∧
      List.Forall₂ (ReadsHunk (lineTokens oldText) (lineTokens newText)) selected read := by
  have hsound : ∀ hunk ∈ selected, Sound (lineTokens oldText) (lineTokens newText) hunk :=
    fun hunk hhunk => sound_of_compute hhunks hunk (hselected hunk hhunk)
  exact readPatch_of_sound hsound path hstatus hold hnew

/-- A changed line without newline, in a file whose name has a blank and a quote. -/
theorem readPatch_quoted :
    ∃ read, readPatch (renderPatch [97, 32, 34] .modified [] [] (lineTokens [97]) (lineTokens [98, 10])
        [⟨1, 1, 1, 1, [.remove 0, .add 0]⟩]) =
      some ⟨([97, 32, 34], [97, 32, 34]), some [97, 32, 34], some [97, 32, 34], .modified, none, read⟩ ∧
      List.Forall₂ (ReadsHunk (lineTokens [97]) (lineTokens [98, 10]))
        [⟨1, 1, 1, 1, [.remove 0, .add 0]⟩] read := by
  have hhunks : compute wholeDiff [97] [98, 10] = some [⟨1, 1, 1, 1, [.remove 0, .add 0]⟩] := by decide
  exact readPatch_renderPatch wholeDiff [97] [98, 10] hhunks (fun _ h => h) [97, 32, 34]
    (.inr (.inr rfl)) (by simp) (by simp)

end Patch

end Tethys.Git
