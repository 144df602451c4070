import Tethys.Lib.Paths
import Tethys.Lib.Pieces
import Tethys.Lib.Slices

/-!
# Composer references

`tethys-core/src/composer`: the text of a prompt is scanned byte by byte for `$skill` and `@path`
tokens. A token that is known is shown as plaintext and leaves a reference, everything else stays as
it is. Slices that would cut a character are `none`, as the source panics there.
-/

namespace Tethys.Core.Composer

open Lib

inductive ReferenceKind where
  | path | skill
  deriving DecidableEq

structure ComposerReference where
  kind : ReferenceKind
  name : String
  path : String
  isDir : Bool
  mime : Option String
  size : Option Nat
  deriving DecidableEq

/-- A skill the composer can reference by name. -/
structure SkillCandidate where
  name : String
  path : String

/-- What the composer asks of the disk, and the guess of a MIME type. A canonical path is the list of
its names, and an unreadable line is `none`. -/
structure Files where
  canonicalize : String → Option (List String)
  metadata : List String → Option (Bool × Nat)
  mimeOf : List String → Option String
  lines : String → Option (List (Option (List Char)))

section Resolve
variable (W : Files)

/-! ## Skills -/

/-- The first description among the lines of a front matter. -/
def descriptionIn : List (Option (List Char)) → Option (List Char)
  | [] | none :: _ => none
  | some line :: rest =>
    let line := trim line
    if line = "---".toList then none
    else match stripPrefix "description:".toList line with
      | some value =>
        let value := trimMatches (· = '\'') (trimMatches (· = '"') (trim value))
        if value ≠ [] then some value else descriptionIn rest
      | none => descriptionIn rest

/-- Reads only the leading frontmatter block, bounded to its first 64 lines. -/
def readDescription (skillFile : String) : Option (List Char) :=
  match W.lines skillFile with
  | some (some first :: rest) =>
    if trim first ≠ "---".toList then none else descriptionIn (rest.take 64)
  | _ => none

/-- Builds the plaintext instruction for one skill plus its UI reference. -/
def skillReference (candidate : SkillCandidate) : List Char × ComposerReference :=
  let skillFile := joinText candidate.path "SKILL.md"
  let instruction := match readDescription W skillFile with
    | some description =>
      "Use the skill \"".toList ++ candidate.name.toList ++ "\": ".toList ++ description ++
        ". Its instructions are at ".toList ++ skillFile.toList ++
        "; read and follow it for this turn.".toList
    | none =>
      "Use the skill \"".toList ++ candidate.name.toList ++ "\". Its instructions are at ".toList ++
        skillFile.toList ++ "; read and follow it for this turn.".toList
  (instruction, ⟨.skill, candidate.name, candidate.path, false, none, none⟩)

/-! ## Paths -/

/-- The text of a canonical path. -/
def pathText (place : List String) : String := "/" ++ "/".intercalate place

/-- A path below another, with forward slashes. -/
def relativePath (root place : List String) : String :=
  String.ofList (("/".intercalate (place.drop root.length)).toList.map fun c => if c = '\\' then '/' else c)

/-- Resolves a worktree-relative token into `@relative-path` plus its metadata. -/
def pathReference (root : String) (token : List Char) : Option (List Char × ComposerReference) := do
  let token := token.dropWhile (· = '/')
  if token = [] then none
  else
    let root ← W.canonicalize root
    let absolute ← W.canonicalize (joinText (pathText root) (String.ofList token))
    if ¬ root <+: absolute then none
    else
      let (isDir, len) ← W.metadata absolute
      let name ← absolute.getLast?
      let relative := relativePath root absolute
      let (mime, size) := if isDir then (none, none) else (W.mimeOf absolute, some len)
      return ('@' :: relative.toList, ⟨.path, name, relative, isDir, mime, size⟩)

/-! ## Tokens -/

inductive Token where
  | text (segment : List Char)
  | skill (name : List Char)
  | path (raw : List Char)
  deriving DecidableEq

/-- `u8::is_ascii_alphanumeric`, a dash or an underscore. -/
def isSkillChar (n : Nat) : Bool :=
  (48 ≤ n && n ≤ 57) || (65 ≤ n && n ≤ 90) || (97 ≤ n && n ≤ 122) || n = 45 || n = 95

/-- `u8::is_ascii_whitespace`. -/
def isAsciiWhitespace (n : Nat) : Bool := n = 32 || n = 9 || n = 10 || n = 12 || n = 13

/-- Whether a number goes on with a token of this kind. -/
def goesOn (isSkill : Bool) (n : Nat) : Bool := if isSkill then isSkillChar n else !isAsciiWhitespace n

/-- The token that a byte starts: a skill after `$`, a path after `@`. -/
def sigilOf (n : Nat) : Option Bool := if n = 36 then some true else if n = 64 then some false else none

/-- Where the bytes from a place on stop going on with the token. -/
def tokenEnd (bytes : List UInt8) (isSkill : Bool) (start : Nat) : Nat :=
  start + ((bytes.drop start).takeWhile fun b => goesOn isSkill b.toNat).length

/-- A text token, unless it is empty. -/
def textToken (text : List Char) (start finish : Nat) : Option (List Token) :=
  if start < finish then (byteSlice text start finish).map fun segment => [.text segment] else some []

/-- The loop of the scanner; every turn of it moves on by a byte at least. -/
def scanFrom (text : List Char) : Nat → Nat → Nat → Option (List Token)
  | 0, _, _ => none
  | fuel + 1, index, segmentStart =>
    match (utf8 text)[index]? with
    | none => textToken text segmentStart (utf8 text).length
    | some b =>
      match sigilOf b.toNat with
      | none => scanFrom text fuel (index + 1) segmentStart
      | some isSkill =>
        let nameStart := index + 1
        let finish := tokenEnd (utf8 text) isSkill nameStart
        if finish = nameStart then scanFrom text fuel (index + 1) segmentStart
        else do
          let before ← textToken text segmentStart index
          let name ← byteSlice text nameStart finish
          let rest ← scanFrom text fuel finish finish
          return before ++ (if isSkill then Token.skill name else Token.path name) :: rest

def scanTokens (text : List Char) : Option (List Token) :=
  scanFrom text ((utf8 text).length + 1) 0 0

def punctuation : List Char := [',', ';', ')', ']', '}', '.']

/-- Splits trailing punctuation from a path token. -/
def splitPathToken (raw : List Char) : Option (List Char × List Char) :=
  splitAtByte (byteLength (raw.rdropWhile (· ∈ punctuation))) raw

def isRange (range : List Char) : Bool := range ≠ [] && range.all fun c => c.isDigit || c = '-'

/-- Strips a `:range` suffix. -/
def stripRange (token : List Char) : List Char :=
  match splitOnce ':' token with
  | some (path, range) => if isRange range then path else token
  | none => token

def resolveToken (workspaceRoot : Option String) (skills : List SkillCandidate)
    (resolved : List Char × List ComposerReference) :
    Token → Option (List Char × List ComposerReference)
  | .text segment => some (resolved.1 ++ segment, resolved.2)
  | .skill name =>
    match skills.find? fun skill => skill.name.toList = name with
    | some candidate =>
      let (fragment, reference) := skillReference W candidate
      some (resolved.1 ++ fragment, resolved.2 ++ [reference])
    | none => some (resolved.1 ++ '$' :: name, resolved.2)
  | .path raw => do
    let (token, suffix) ← splitPathToken raw
    match workspaceRoot.bind fun root => pathReference W root (stripRange token) with
    | some (fragment, reference) =>
      return (resolved.1 ++ fragment ++ suffix, resolved.2 ++ [reference])
    | none => return (resolved.1 ++ '@' :: raw, resolved.2)

def resolveTokens (text : List Char) (workspaceRoot : Option String) (skills : List SkillCandidate) :
    Option (List Char × List ComposerReference) :=
  (scanTokens text).bind fun tokens => tokens.foldlM (resolveToken W workspaceRoot skills) ([], [])

end Resolve

/-! ## The tokens of a text -/

namespace Token

/-- What a token stands for in the text. -/
def source : Token → List Char
  | .text segment => segment
  | .skill name => '$' :: name
  | .path raw => '@' :: raw

def named (isSkill : Bool) (name : List Char) : Token := if isSkill then .skill name else .path name

end Token

/-- A skill is named behind a dollar sign, a path behind an at sign. -/
def sigil : Bool → Char
  | true => '$'
  | false => '@'

/-- The characters of a name: letters, digits, dashes and underscores of ASCII for a skill, and all
but the white space of ASCII for a path. -/
def NameChar : Bool → Char → Prop
  | true, c => c.isAlphanum = true ∨ c = '-' ∨ c = '_'
  | false, c => c ∉ [' ', '\t', '\n', '\r', Char.ofNat 0xC]

def textTokens (pending : List Char) : List Token := if pending = [] then [] else [.text pending]

/-- The tokens of a text, read character by character. What is pending is text before it that no
token has taken. -/
inductive Scans : List Char → List Char → List Token → Prop where
  | done (pending : List Char) : Scans pending [] (textTokens pending)
  /-- a character that starts no token -/
  | plain {pending c rest tokens}
    (h : ∀ isSkill, c = sigil isSkill → ∀ d ∈ rest.head?, ¬ NameChar isSkill d)
    (more : Scans (pending ++ [c]) rest tokens) : Scans pending (c :: rest) tokens
  /-- a sigil and the longest name behind it -/
  | token {pending isSkill name rest tokens} (hne : name ≠ []) (hname : ∀ d ∈ name, NameChar isSkill d)
    (hrest : ∀ d ∈ rest.head?, ¬ NameChar isSkill d) (more : Scans [] rest tokens) :
    Scans pending (sigil isSkill :: (name ++ rest)) (textTokens pending ++ Token.named isSkill name :: tokens)

theorem source_textTokens (pending : List Char) : (textTokens pending).flatMap Token.source = pending := by
  unfold textTokens
  split_ifs with h
  · exact h.symm
  · exact List.append_nil _

theorem source_named (isSkill : Bool) (name : List Char) :
    (Token.named isSkill name).source = sigil isSkill :: name := by
  cases isSkill <;> rfl

/-- The tokens with their sigils are the text. -/
theorem Scans.source {pending rest : List Char} {tokens : List Token} (h : Scans pending rest tokens) :
    tokens.flatMap Token.source = pending ++ rest := by
  induction h with
  | done pending => rw [source_textTokens, List.append_nil]
  | plain _ _ ih => rw [ih, List.append_assoc, List.singleton_append]
  | token _ _ _ _ ih =>
    rw [List.flatMap_append, source_textTokens, List.flatMap_cons, source_named, ih]
    simp

/-! ## The scanner reads the tokens -/

theorem sigilOf_eq_some {c : Char} {isSkill : Bool} :
    sigilOf c.toNat = some isSkill ↔ c = sigil isSkill := by
  unfold sigilOf
  rw [← Char.toNat_inj]
  cases isSkill <;> split_ifs <;> simp_all [sigil]

theorem isAlphanum_eq (c : Char) : c.isAlphanum =
    (decide ('A'.val ≤ c.val ∧ c.val ≤ 'Z'.val) || (decide ('a'.val ≤ c.val) && decide (c.val ≤ 'z'.val)) ||
      (decide ('0'.val ≤ c.val) && decide (c.val ≤ '9'.val))) := rfl

/-- The source tells the characters of a name by their numbers. -/
theorem goesOn_iff {isSkill : Bool} {c : Char} : goesOn isSkill c.toNat = true ↔ NameChar isSkill c := by
  cases isSkill with
  | true =>
    simp [goesOn, isSkillChar, NameChar, isAlphanum_eq, ← Char.toNat_inj, UInt32.le_iff_toNat_le]
    omega
  | false =>
    simp [goesOn, isAsciiWhitespace, NameChar, ← Char.toNat_inj]
    omega

theorem goesOn_eq_false {isSkill : Bool} {c : Char} :
    goesOn isSkill c.toNat = false ↔ ¬ NameChar isSkill c := by
  rw [← goesOn_iff, Bool.not_eq_true]

theorem goesOn_of_le (isSkill : Bool) (n : Nat) (h : 128 ≤ n) : goesOn isSkill n = goesOn isSkill 128 := by
  cases isSkill <;> simp [goesOn, isSkillChar, isAsciiWhitespace] <;> omega

theorem sigilOf_of_le {n : Nat} (h : 128 ≤ n) : sigilOf n = none := by
  unfold sigilOf
  split_ifs <;> first | omega | rfl

theorem takeWhile_stops {isSkill : Bool} {rest : List Char}
    (h : ∀ d ∈ rest.head?, goesOn isSkill d.toNat = false) :
    (rest.takeWhile fun d => goesOn isSkill d.toNat) = [] := by
  cases rest with
  | nil => rfl
  | cons d rest =>
    rw [List.takeWhile_cons, h d rfl]
    rfl

theorem exists_name (isSkill : Bool) (l : List Char) : ∃ name rest, l = name ++ rest ∧
    (∀ d ∈ name, goesOn isSkill d.toNat = true) ∧ ∀ d ∈ rest.head?, goesOn isSkill d.toNat = false := by
  refine ⟨l.takeWhile fun d => goesOn isSkill d.toNat, l.dropWhile fun d => goesOn isSkill d.toNat,
    List.takeWhile_append_dropWhile.symm, fun d hd => ?_, fun d hd => ?_⟩
  · exact List.mem_takeWhile_imp (p := fun d : Char => goesOn isSkill d.toNat) hd
  · have hstop := List.head?_dropWhile_not (fun d : Char => goesOn isSkill d.toNat) l
    rw [Option.mem_def.mp hd] at hstop
    exact hstop

section Scan
variable {text before rest : List Char}

/-- Behind a prefix of the text the token ends where the characters stop going on with it. -/
theorem tokenEnd_eq (isSkill : Bool) (h : text = before ++ rest) :
    tokenEnd (utf8 text) isSkill (byteLength before) =
      byteLength (before ++ rest.takeWhile fun d => goesOn isSkill d.toNat) := by
  rw [tokenEnd, h, drop_utf8, takeWhile_utf8 (goesOn_of_le isSkill), length_utf8, byteLength_append]

theorem getElem?_utf8 {c : Char} (h : text = before ++ c :: rest) (i : Nat) (hi : i < c.utf8Size) :
    (utf8 text)[byteLength before + i]? = (String.utf8EncodeChar c)[i]? := by
  rw [h, utf8_append, utf8_cons, ← length_utf8, List.getElem?_append_right (Nat.le_add_right _ _),
    Nat.add_sub_cancel_left, List.getElem?_append_left (by rwa [String.length_utf8EncodeChar])]

/-- A character that is no sigil is passed byte by byte. -/
theorem scanFrom_skip {c : Char} (h : text = before ++ c :: rest) (hc : 128 ≤ c.toNat) (fuel start : Nat) :
    ∀ k i, i + k = c.utf8Size → scanFrom text (fuel + k) (byteLength before + i) start =
      scanFrom text fuel (byteLength (before ++ [c])) start
  | 0, i, hi => by
    have hlength : byteLength (before ++ [c]) = byteLength before + i := by
      rw [byteLength_append, byteLength_cons, byteLength_nil]
      omega
    rw [hlength, Nat.add_zero]
  | k + 1, i, hi => by
    obtain ⟨b, hb⟩ : ∃ b, (String.utf8EncodeChar c)[i]? = some b := by
      rw [← Option.isSome_iff_exists, isSome_getElem?, String.length_utf8EncodeChar]
      omega
    have hsigil : sigilOf b.toNat = none :=
      sigilOf_of_le (le_of_mem_utf8EncodeChar hc (List.mem_of_getElem? hb))
    have hbyte := getElem?_utf8 h i (by omega)
    rw [← Nat.add_assoc, scanFrom, hbyte, hb]
    dsimp only
    rw [hsigil]
    dsimp only
    exact scanFrom_skip h hc fuel start k (i + 1) (by omega)

theorem textToken_eq {seen pending : List Char} (h : text = seen ++ pending ++ rest) :
    textToken text (byteLength seen) (byteLength (seen ++ pending)) = some (textTokens pending) := by
  rw [textToken, textTokens, byteLength_append]
  by_cases hpending : pending = []
  · rw [if_pos hpending, if_neg (by simp [hpending])]
  · have hpos := byteLength_pos hpending
    rw [if_neg hpending, if_pos (by omega), ← byteLength_append, h, byteSlice_append]
    rfl

/-- A character that starts no token, and the turns of the loop that pass it. -/
theorem scanFrom_plain {c : Char} (h : text = before ++ c :: rest)
    (hplain : ∀ isSkill ∈ sigilOf c.toNat, ∀ d ∈ rest.head?, goesOn isSkill d.toNat = false)
    (fuel start : Nat) : scanFrom text (fuel + c.utf8Size) (byteLength before) start =
      scanFrom text fuel (byteLength (before ++ [c])) start := by
  by_cases hc : c.toNat < 128
  · obtain ⟨b, henc, hb⟩ := utf8EncodeChar_of_lt hc
    have hsize : c.utf8Size = 1 := by rw [← String.length_utf8EncodeChar, henc]; rfl
    have hbyte := getElem?_utf8 h 0 (by omega)
    have hnext : byteLength (before ++ [c]) = byteLength before + 1 := by simp [hsize]
    rw [henc, Nat.add_zero] at hbyte
    rw [hsize, scanFrom, hbyte, List.getElem?_cons_zero]
    dsimp only
    rw [hb, hnext]
    cases hsigil : sigilOf c.toNat with
    | none => rfl
    | some isSkill =>
      dsimp only
      have htext : text = (before ++ [c]) ++ rest := by simp [h]
      have hfinish := tokenEnd_eq isSkill htext
      rw [takeWhile_stops (hplain isSkill hsigil), List.append_nil, hnext] at hfinish
      exact if_pos hfinish
  · exact scanFrom_skip h (Nat.le_of_not_lt hc) fuel start c.utf8Size 0 (Nat.zero_add _)

/-- A sigil and the name behind it are one turn of the loop. -/
theorem scanFrom_token {seen pending name : List Char} {c : Char} {isSkill : Bool}
    (h : text = seen ++ pending ++ c :: (name ++ rest)) (hc : sigilOf c.toNat = some isSkill)
    (hne : name ≠ [])
    (hname : ∀ d ∈ name, goesOn isSkill d.toNat = true)
    (hrest : ∀ d ∈ rest.head?, goesOn isSkill d.toNat = false) (fuel : Nat) :
    scanFrom text (fuel + 1) (byteLength (seen ++ pending)) (byteLength seen) =
      (scanFrom text fuel (byteLength (seen ++ pending ++ c :: name))
        (byteLength (seen ++ pending ++ c :: name))).map fun tokens => textTokens pending ++ Token.named isSkill name :: tokens := by
  have hlt : c.toNat < 128 := by
    by_contra hge
    rw [sigilOf_of_le (Nat.le_of_not_lt hge)] at hc
    cases hc
  obtain ⟨b, henc, hb⟩ := utf8EncodeChar_of_lt hlt
  have hsize : c.utf8Size = 1 := by rw [← String.length_utf8EncodeChar, henc]; rfl
  have hbyte := getElem?_utf8 h 0 (by omega)
  rw [henc, Nat.add_zero] at hbyte
  have hnext : byteLength (seen ++ pending ++ [c]) = byteLength (seen ++ pending) + 1 := by
    rw [byteLength_append (seen ++ pending), byteLength_cons, byteLength_nil, hsize]
  have htext : text = (seen ++ pending ++ [c]) ++ (name ++ rest) := by simp [h]
  have htake : ((name ++ rest).takeWhile fun d => goesOn isSkill d.toNat) = name := by
    rw [List.takeWhile_append_of_pos hname, takeWhile_stops hrest, List.append_nil]
  have hfinish := tokenEnd_eq isSkill htext
  rw [htake, hnext] at hfinish
  have hsplit : seen ++ pending ++ c :: name = seen ++ pending ++ [c] ++ name := by simp
  have hlong := byteLength_pos hne
  have hpending : textToken text (byteLength seen) (byteLength (seen ++ pending)) =
      some (textTokens pending) := textToken_eq h
  have hslice : byteSlice text (byteLength (seen ++ pending) + 1)
      (byteLength (seen ++ pending ++ [c] ++ name)) = some name := by
    rw [← hnext, htext, ← List.append_assoc]
    exact byteSlice_append _ _ _
  rw [scanFrom, hbyte, List.getElem?_cons_zero]
  dsimp only
  rw [hb, hc]
  dsimp only
  rw [hfinish, if_neg (by rw [byteLength_append (seen ++ pending ++ [c])]; omega), hpending, hslice, hsplit]
  cases scanFrom text fuel (byteLength (seen ++ pending ++ [c] ++ name))
    (byteLength (seen ++ pending ++ [c] ++ name)) with
  | none => rfl
  | some tokens => rfl

/-- The scanner reads the tokens of what is left, whatever text is pending. -/
theorem scanFrom_scans (seen pending rest : List Char) (h : text = seen ++ pending ++ rest) (fuel : Nat)
    (hfuel : byteLength rest < fuel) : ∃ tokens, Scans pending rest tokens ∧
      scanFrom text fuel (byteLength (seen ++ pending)) (byteLength seen) = some tokens := by
  induction hn : rest.length using Nat.strong_induction_on generalizing seen pending rest fuel with
  | _ n ih =>
    subst hn
    cases rest with
    | nil =>
      obtain ⟨fuel, rfl⟩ := Nat.exists_eq_add_of_lt hfuel
      refine ⟨textTokens pending, .done pending, ?_⟩
      have hend : (utf8 text)[byteLength (seen ++ pending)]? = none := by
        rw [List.getElem?_eq_none_iff, length_utf8, h, List.append_nil]
      have hlength : (utf8 text).length = byteLength (seen ++ pending) := by
        rw [length_utf8, h, List.append_nil]
      rw [scanFrom, hend]
      dsimp only
      rw [hlength]
      exact textToken_eq h
    | cons c rest =>
      have hpos := c.utf8Size_pos
      rw [byteLength_cons] at hfuel
      by_cases hplain : ∀ isSkill ∈ sigilOf c.toNat, ∀ d ∈ rest.head?, goesOn isSkill d.toNat = false
      · -- the character joins what is pending
        obtain ⟨fuel, rfl⟩ : ∃ left, fuel = left + c.utf8Size := ⟨fuel - c.utf8Size, by omega⟩
        have hnext : text = seen ++ (pending ++ [c]) ++ rest := by simp [h]
        obtain ⟨tokens, hscans, hscan⟩ := ih rest.length (by simp) seen (pending ++ [c]) rest hnext fuel
          (by omega) rfl
        refine ⟨tokens, .plain (fun isSkill hc d hd => ?_) hscans, ?_⟩
        · exact goesOn_eq_false.mp (hplain isSkill (sigilOf_eq_some.mpr hc) d hd)
        rw [scanFrom_plain h hplain, List.append_assoc, hscan]
      · -- the token takes the longest name there is
        obtain ⟨isSkill, hc, d, hd, hgoes⟩ : ∃ isSkill ∈ sigilOf c.toNat, ∃ d ∈ rest.head?,
            goesOn isSkill d.toNat = true := by
          by_contra hstop
          exact hplain fun isSkill hc d hd => Bool.eq_false_iff.mpr fun hgoes =>
            hstop ⟨isSkill, hc, d, hd, hgoes⟩
        obtain ⟨fuel, rfl⟩ : ∃ left, fuel = left + 1 := ⟨fuel - 1, by omega⟩
        obtain ⟨name, rest', rfl, hname, hrest⟩ := exists_name isSkill rest
        have hne : name ≠ [] := by
          rintro rfl
          rw [hrest d hd] at hgoes
          cases hgoes
        have hnext : text = (seen ++ pending ++ c :: name) ++ [] ++ rest' := by simp [h]
        have hshort : rest'.length < (c :: (name ++ rest')).length := by
          rw [List.length_cons, List.length_append]
          omega
        rw [byteLength_append] at hfuel
        obtain ⟨tokens, hscans, hscan⟩ := ih rest'.length hshort (seen ++ pending ++ c :: name) []
          rest' hnext fuel (by omega) rfl
        obtain rfl := sigilOf_eq_some.mp hc
        refine ⟨_, .token hne (fun d hd => goesOn_iff.mp (hname d hd))
          (fun d hd => goesOn_eq_false.mp (hrest d hd)) hscans, ?_⟩
        rw [List.append_nil] at hscan
        rw [scanFrom_token h hc hne hname hrest, hscan]
        rfl

end Scan

theorem exists_scanTokens (text : List Char) :
    ∃ tokens, Scans [] text tokens ∧ scanTokens text = some tokens :=
  scanFrom_scans [] [] text rfl _ (by rw [length_utf8]; omega)

example : scanTokens "é $rust (@src/a.rs).".toList =
    some [.text "é ".toList, .skill "rust".toList, .text " (".toList, .path "src/a.rs).".toList] := by
  decide +kernel

/-! ## What a path token names -/

/-- The characters of a sentence that may stand behind a path. -/
def Closes (c : Char) : Prop := c = ',' ∨ c = ';' ∨ c = ')' ∨ c = ']' ∨ c = '}' ∨ c = '.'

/-- Digits and dashes. -/
def Numbers (range : List Char) : Prop := range ≠ [] ∧ ∀ c ∈ range, c.isDigit = true ∨ c = '-'

/-- A path token is a path, a range of lines if one stands behind its first colon, and punctuation. -/
structure Parts (raw token range suffix : List Char) : Prop where
  raw_eq : raw = token ++ range ++ suffix
  suffix_closes : ∀ c ∈ suffix, Closes c
  last_not_closes : ∀ c ∈ (token ++ range).getLast?, ¬ Closes c
  range_eq : (∃ numbers, ':' ∉ token ∧ range = ':' :: numbers ∧ Numbers numbers) ∨
    range = [] ∧ ∀ path numbers, ':' ∉ path → token = path ++ ':' :: numbers → ¬ Numbers numbers

theorem mem_punctuation {c : Char} : c ∈ punctuation ↔ Closes c := by simp [punctuation, Closes]

theorem isRange_iff {range : List Char} : isRange range = true ↔ Numbers range := by
  simp [isRange, Numbers]

theorem stripRange_numbers {token numbers : List Char} (h : ':' ∉ token)
    (hnumbers : Numbers numbers) : stripRange (token ++ ':' :: numbers) = token := by
  rw [stripRange, splitOnce_append_cons h]
  exact if_pos (isRange_iff.mpr hnumbers)

theorem stripRange_eq_self {token : List Char}
    (h : ∀ path numbers, ':' ∉ path → token = path ++ ':' :: numbers → ¬ Numbers numbers) :
    stripRange token = token := by
  unfold stripRange
  cases hsplit : splitOnce ':' token with
  | none => rfl
  | some halves =>
    obtain ⟨hpath, htoken⟩ := splitOnce_eq_some.mp hsplit
    exact if_neg fun hrange => h _ _ hpath htoken (isRange_iff.mp hrange)

/-- The range of a token is taken off, or there is none. -/
theorem exists_range (token : List Char) : ∃ path range, token = path ++ range ∧
    ((∃ numbers, ':' ∉ path ∧ range = ':' :: numbers ∧ Numbers numbers) ∨
      range = [] ∧ ∀ path' numbers, ':' ∉ path' → path = path' ++ ':' :: numbers → ¬ Numbers numbers) := by
  by_cases h : ∃ path numbers, ':' ∉ path ∧ token = path ++ ':' :: numbers ∧ Numbers numbers
  · obtain ⟨path, numbers, hpath, htoken, hnumbers⟩ := h
    exact ⟨path, ':' :: numbers, htoken, .inl ⟨numbers, hpath, rfl, hnumbers⟩⟩
  · refine ⟨token, [], (List.append_nil token).symm, .inr ⟨rfl, fun path numbers hpath htoken => ?_⟩⟩
    exact fun hnumbers => h ⟨path, numbers, hpath, htoken, hnumbers⟩

theorem exists_parts (raw : List Char) : ∃ token range suffix, Parts raw token range suffix := by
  obtain ⟨token, range, htoken, hrange⟩ := exists_range (raw.rdropWhile (· ∈ punctuation))
  refine ⟨token, range, raw.rtakeWhile (· ∈ punctuation), ?_, fun c hc => ?_, fun c hc => ?_, hrange⟩
  · rw [← htoken, List.rdropWhile_append_rtakeWhile]
  · have hmem := List.mem_rtakeWhile_imp (p := (decide <| · ∈ punctuation)) hc
    exact mem_punctuation.mp (of_decide_eq_true hmem)
  · rw [← htoken] at hc
    obtain ⟨hne, rfl⟩ := List.mem_getLast?_eq_getLast hc
    have hlast := of_decide_eq_false (Bool.eq_false_iff.mpr (List.rdropWhile_last_not _ _ hne))
    exact mt mem_punctuation.mpr hlast

namespace Parts
variable {raw token range suffix : List Char}

/-- The source finds the parts. -/
theorem splitPathToken_eq (h : Parts raw token range suffix) :
    splitPathToken raw = some (token ++ range, suffix) := by
  have hdrop : raw.rdropWhile (· ∈ punctuation) = token ++ range := by
    have hsuffix : ∀ c ∈ suffix.reverse, decide (c ∈ punctuation) = true := fun c hc =>
      decide_eq_true (mem_punctuation.mpr (h.suffix_closes c (List.mem_reverse.mp hc)))
    rw [h.raw_eq, List.rdropWhile, List.reverse_append, List.dropWhile_append_of_pos hsuffix]
    refine List.rdropWhile_eq_self_iff.mpr fun hne => ?_
    rw [decide_eq_true_iff, mem_punctuation]
    exact h.last_not_closes _ (List.getLast_mem_getLast? hne)
  rw [splitPathToken, hdrop, h.raw_eq, splitAtByte_append]

theorem stripRange_eq (h : Parts raw token range suffix) : stripRange (token ++ range) = token := by
  rcases h.range_eq with ⟨numbers, htoken, rfl, hnumbers⟩ | ⟨rfl, hnone⟩
  · exact stripRange_numbers htoken hnumbers
  · rw [List.append_nil]
    exact stripRange_eq_self hnone

theorem token_unique {token' range' suffix' : List Char} (h : Parts raw token range suffix)
    (h' : Parts raw token' range' suffix') : token = token' := by
  have hsplit := h.splitPathToken_eq.symm.trans h'.splitPathToken_eq
  obtain ⟨hwhole, -⟩ := Prod.mk.inj (Option.some.inj hsplit)
  rw [← h.stripRange_eq, hwhole, h'.stripRange_eq]

end Parts

/-! ## What a skill says of itself -/

/-- A line that gives a description, which may be empty. -/
def GivesDescription (line description : List Char) : Prop :=
  ∃ value, trim line = "description:".toList ++ value ∧
    description = trimMatches (· = '\'') (trimMatches (· = '"') (trim value))

/-- The first description that is not empty, in lines that neither end the front matter before it nor
fail to be read. -/
inductive FirstDescription : List (Option (List Char)) → List Char → Prop where
  | intro (before : List (List Char)) {line description after}
    (hbefore : ∀ l ∈ before, trim l ≠ "---".toList ∧ ∀ d, GivesDescription l d → d = [])
    (hline : GivesDescription line description) (hne : description ≠ []) :
    FirstDescription (before.map some ++ some line :: after) description

/-- The description of a skill file, among the 64 lines after the one that starts its front matter. -/
def Describes (lines : Option (List (Option (List Char)))) (description : List Char) : Prop :=
  ∃ first rest, lines = some (some first :: rest) ∧ trim first = "---".toList ∧
    FirstDescription (rest.take 64) description

theorem descriptionIn_cons (line : List Char) (rest : List (Option (List Char))) :
    descriptionIn (some line :: rest) =
      if trim line = "---".toList then none
      else match stripPrefix "description:".toList (trim line) with
        | some value =>
          let value := trimMatches (· = '\'') (trimMatches (· = '"') (trim value))
          if value ≠ [] then some value else descriptionIn rest
        | none => descriptionIn rest := rfl

section Description
variable {line description : List Char} {lines rest : List (Option (List Char))}

/-- A line that gives nothing is passed. -/
theorem FirstDescription.pass (h : FirstDescription rest description) (hend : trim line ≠ "---".toList)
    (hnone : ∀ d, GivesDescription line d → d = []) : FirstDescription (some line :: rest) description := by
  obtain ⟨_, hbefore, hline, hne⟩ := h
  exact .intro (line :: _) (List.forall_mem_cons.mpr ⟨⟨hend, hnone⟩, hbefore⟩) hline hne

theorem firstDescription_of_descriptionIn (h : descriptionIn lines = some description) :
    FirstDescription lines description := by
  induction lines with
  | nil => cases h
  | cons line rest ih =>
    cases line with
    | none => cases h
    | some line =>
      rw [descriptionIn_cons] at h
      split_ifs at h with hend
      cases hstrip : stripPrefix "description:".toList (trim line) with
      | none =>
        rw [hstrip] at h
        refine (ih h).pass hend fun d ⟨value, hvalue, _⟩ => ?_
        rw [stripPrefix_eq_some.mpr hvalue] at hstrip
        cases hstrip
      | some value =>
        rw [hstrip] at h
        dsimp only at h
        have hvalue := stripPrefix_eq_some.mp hstrip
        split_ifs at h with hne
        · obtain rfl := Option.some.inj h
          exact .intro [] (fun l hl => by cases hl) ⟨value, hvalue, rfl⟩ hne
        · refine (ih h).pass hend fun d ⟨value', hvalue', hd⟩ => ?_
          obtain rfl := List.append_cancel_left (hvalue.symm.trans hvalue')
          exact hd.trans (not_not.mp hne)

theorem descriptionIn_of_firstDescription (h : FirstDescription lines description) :
    descriptionIn lines = some description := by
  obtain ⟨before, hbefore, ⟨value, hvalue, rfl⟩, hne⟩ := h
  rename_i line after
  induction before with
  | nil =>
    have hend : trim line ≠ "---".toList := by
      rw [hvalue]
      exact fun heq => by cases heq
    rw [List.map_nil, List.nil_append, descriptionIn_cons, if_neg hend, stripPrefix_eq_some.mpr hvalue]
    exact if_pos hne
  | cons first before ih =>
    obtain ⟨⟨hend, hnone⟩, hbefore⟩ := List.forall_mem_cons.mp hbefore
    rw [List.map_cons, List.cons_append, descriptionIn_cons, if_neg hend]
    cases hstrip : stripPrefix "description:".toList (trim first) with
    | none => exact ih hbefore
    | some value =>
      dsimp only
      rw [if_neg (not_not.mpr (hnone _ ⟨value, stripPrefix_eq_some.mp hstrip, rfl⟩))]
      exact ih hbefore

/-- The source finds the first description. -/
theorem descriptionIn_eq_some :
    descriptionIn lines = some description ↔ FirstDescription lines description :=
  ⟨firstDescription_of_descriptionIn, descriptionIn_of_firstDescription⟩

end Description

theorem readDescription_eq_some (W : Files) {skillFile : String} {description : List Char} :
    readDescription W skillFile = some description ↔ Describes (W.lines skillFile) description := by
  unfold readDescription Describes
  cases hlines : W.lines skillFile with
  | none => simp
  | some lines =>
    cases lines with
    | nil => simp
    | cons first rest =>
      cases first with
      | none => simp
      | some first =>
        dsimp only
        by_cases hfirst : trim first = "---".toList
        · rw [if_neg (not_not.mpr hfirst), descriptionIn_eq_some]
          refine ⟨fun h => ⟨first, rest, rfl, hfirst, h⟩, fun ⟨_, _, heq, _, h⟩ => ?_⟩
          cases heq
          exact h
        · rw [if_pos hfirst]
          refine iff_of_false (by simp) fun ⟨_, _, heq, hend, _⟩ => ?_
          cases heq
          exact hfirst hend

/-! ## What resolves -/

section Resolve
variable (W : Files)

/-- The instruction for a skill: its name, its description if its file has one, and its file. -/
inductive Instructs (skill : SkillCandidate) : List Char → Prop where
  | described {description} (h : Describes (W.lines (joinText skill.path "SKILL.md")) description) :
    Instructs skill ("Use the skill \"".toList ++ skill.name.toList ++ "\": ".toList ++ description ++
      ". Its instructions are at ".toList ++ (joinText skill.path "SKILL.md").toList ++
      "; read and follow it for this turn.".toList)
  | undescribed (h : ∀ description, ¬ Describes (W.lines (joinText skill.path "SKILL.md")) description) :
    Instructs skill ("Use the skill \"".toList ++ skill.name.toList ++
      "\". Its instructions are at ".toList ++ (joinText skill.path "SKILL.md").toList ++
      "; read and follow it for this turn.".toList)

theorem instructs_skillReference (skill : SkillCandidate) :
    Instructs W skill (skillReference W skill).1 := by
  unfold skillReference
  dsimp only
  cases hdescription : readDescription W (joinText skill.path "SKILL.md") with
  | none =>
    refine .undescribed fun description h => ?_
    rw [(readDescription_eq_some W).mpr h] at hdescription
    cases hdescription
  | some description => exact .described ((readDescription_eq_some W).mp hdescription)

/-- A token points to a place inside the workspace. Its reference shows the names below the
workspace, joined by slashes. -/
inductive PointsTo (root : String) (token : List Char) : ComposerReference → Prop where
  | intro {slashes below base rest name isDir len} (htoken : token = slashes ++ below)
    (hslashes : ∀ c ∈ slashes, c = '/') (hne : below ≠ []) (hbelow : ∀ c ∈ below.head?, c ≠ '/')
    (hroot : W.canonicalize root = some base)
    (hplace : W.canonicalize (joinText ("/" ++ "/".intercalate base) (String.ofList below)) =
      some (base ++ rest))
    (hmeta : W.metadata (base ++ rest) = some (isDir, len))
    (hname : (base ++ rest).getLast? = some name) : PointsTo root token
      ⟨.path, name, String.ofList (("/".intercalate rest).toList.map fun c => if c = '\\' then '/' else c),
        isDir, if isDir then none else W.mimeOf (base ++ rest), if isDir then none else some len⟩

theorem relativePath_append (base rest : List String) : relativePath base (base ++ rest) =
    String.ofList (("/".intercalate rest).toList.map fun c => if c = '\\' then '/' else c) := by
  rw [relativePath, List.drop_left]

theorem dropWhile_slashes {slashes below : List Char} (hslashes : ∀ c ∈ slashes, c = '/')
    (hbelow : ∀ c ∈ below.head?, c ≠ '/') : (slashes ++ below).dropWhile (· = '/') = below := by
  rw [List.dropWhile_append_of_pos fun c hc => decide_eq_true (hslashes c hc)]
  cases below with
  | nil => rfl
  | cons c below => rw [List.dropWhile_cons, if_neg (by simpa using hbelow)]

/-- The source refers to the places inside the workspace, and to no others. -/
theorem pathReference_eq_some {root : String} {token fragment : List Char} {reference : ComposerReference} :
    pathReference W root token = some (fragment, reference) ↔
      PointsTo W root token reference ∧ fragment = '@' :: reference.path.toList := by
  constructor
  · intro h
    unfold pathReference at h
    dsimp only at h
    split_ifs at h with hne
    obtain ⟨base, hroot, h⟩ := Option.bind_eq_some_iff.mp h
    obtain ⟨place, hplace, h⟩ := Option.bind_eq_some_iff.mp h
    split_ifs at h with inside
    obtain ⟨rest, rfl⟩ := inside
    obtain ⟨⟨isDir, len⟩, hmeta, h⟩ := Option.bind_eq_some_iff.mp h
    obtain ⟨name, hname, h⟩ := Option.bind_eq_some_iff.mp h
    obtain ⟨rfl, rfl⟩ := Prod.mk.inj (Option.some.inj h)
    rw [relativePath_append]
    have hslashes : ∀ c ∈ token.takeWhile (· = '/'), c = '/' := fun c hc =>
      of_decide_eq_true (List.mem_takeWhile_imp (p := (decide <| · = '/')) hc)
    have hbelow : ∀ c ∈ (token.dropWhile (· = '/')).head?, c ≠ '/' := fun c hc => by
      have hstop := List.head?_dropWhile_not (fun c => decide (c = '/')) token
      rw [Option.mem_def.mp hc] at hstop
      exact of_decide_eq_false hstop
    have hpoints := PointsTo.intro List.takeWhile_append_dropWhile.symm hslashes hne hbelow hroot hplace
      hmeta hname
    refine ⟨?_, rfl⟩
    cases isDir <;> exact hpoints
  · rintro ⟨⟨rfl, hslashes, hne, hbelow, hroot, hplace, hmeta, hname⟩, rfl⟩
    rename_i slashes below base rest name isDir len
    have inside : base <+: base ++ rest := List.prefix_append base rest
    rw [pathReference, dropWhile_slashes hslashes hbelow]
    dsimp only [pathText]
    rw [if_neg hne, hroot, Option.bind_eq_bind, Option.bind_some, hplace, Option.bind_eq_bind,
      Option.bind_some, if_neg (not_not.mpr inside), hmeta, Option.bind_eq_bind, Option.bind_some, hname,
      relativePath_append]
    cases isDir <;> rfl

/-- What a token becomes, and its references. -/
inductive Resolved (workspaceRoot : Option String) (skills : List SkillCandidate) :
    Token → List Char → List ComposerReference → Prop where
  | text (segment : List Char) : Resolved workspaceRoot skills (.text segment) segment []
  /-- the instruction of the first skill of the name -/
  | skill {front candidate back instruction} (hskills : skills = front ++ candidate :: back)
    (hfirst : ∀ skill ∈ front, skill.name ≠ candidate.name) (hinstructs : Instructs W candidate instruction) :
    Resolved workspaceRoot skills (.skill candidate.name.toList) instruction
      [⟨.skill, candidate.name, candidate.path, false, none, none⟩]
  | unknown {name} (h : ∀ skill ∈ skills, skill.name.toList ≠ name) :
    Resolved workspaceRoot skills (.skill name) ('$' :: name) []
  /-- the relative path in the place of the path and the range -/
  | path {raw token range suffix root reference} (hparts : Parts raw token range suffix)
    (hroot : workspaceRoot = some root) (hpoints : PointsTo W root token reference) :
    Resolved workspaceRoot skills (.path raw) ('@' :: reference.path.toList ++ suffix) [reference]
  | unresolved {raw} (h : ∀ token range suffix root reference, Parts raw token range suffix →
      workspaceRoot = some root → ¬ PointsTo W root token reference) :
    Resolved workspaceRoot skills (.path raw) ('@' :: raw) []

/-- What leaves no reference is kept. -/
theorem Resolved.eq_source {workspaceRoot : Option String} {skills : List SkillCandidate} {token : Token}
    {shown : List Char} {references : List ComposerReference}
    (h : Resolved W workspaceRoot skills token shown references) (hnone : references = []) :
    shown = token.source := by
  cases h with
  | text | unknown | unresolved => rfl
  | skill | path => cases hnone

variable (workspaceRoot : Option String) (skills : List SkillCandidate)

/-- The source resolves every token, and appends what it becomes. -/
theorem exists_resolveToken (token : Token) : ∃ shown references,
    Resolved W workspaceRoot skills token shown references ∧
      ∀ resolved, resolveToken W workspaceRoot skills resolved token =
        some (resolved.1 ++ shown, resolved.2 ++ references) := by
  cases token with
  | text segment => exact ⟨segment, [], .text segment, fun resolved => by rw [List.append_nil]; rfl⟩
  | skill name =>
    cases hfind : skills.find? fun skill => skill.name.toList = name with
    | none =>
      refine ⟨'$' :: name, [], .unknown fun skill hskill => ?_, fun resolved => ?_⟩
      · exact of_decide_eq_false (Bool.eq_false_iff.mpr (List.find?_eq_none.mp hfind skill hskill))
      · rw [resolveToken, hfind, List.append_nil]
    | some candidate =>
      obtain ⟨hname, front, back, hskills, hfirst⟩ := List.find?_eq_some_iff_append.mp hfind
      obtain rfl : candidate.name.toList = name := of_decide_eq_true hname
      refine ⟨_, _, .skill hskills (fun skill hskill heq => ?_) (instructs_skillReference W candidate),
        fun resolved => ?_⟩
      · exact absurd (hfirst skill hskill) (by simp [heq])
      · rw [resolveToken, hfind]
        rfl
  | path raw =>
    obtain ⟨token, range, suffix, hparts⟩ := exists_parts raw
    cases hreference : workspaceRoot.bind fun root => pathReference W root token with
    | none =>
      refine ⟨'@' :: raw, [], .unresolved ?_, fun resolved => ?_⟩
      · intro token' range' suffix' root reference hparts' hroot hpoints
        obtain rfl : token' = token := hparts'.token_unique hparts
        rw [hroot, Option.bind_some] at hreference
        rw [(pathReference_eq_some W).mpr ⟨hpoints, rfl⟩] at hreference
        cases hreference
      · rw [resolveToken, hparts.splitPathToken_eq, Option.bind_eq_bind, Option.bind_some]
        dsimp only
        rw [hparts.stripRange_eq, hreference, List.append_nil]
        rfl
    | some found =>
      obtain ⟨fragment, reference⟩ := found
      obtain ⟨root, hroot, hpath⟩ := Option.bind_eq_some_iff.mp hreference
      obtain ⟨hpoints, rfl⟩ := (pathReference_eq_some W).mp hpath
      refine ⟨_, _, .path hparts hroot hpoints, fun resolved => ?_⟩
      rw [resolveToken, hparts.splitPathToken_eq, Option.bind_eq_bind, Option.bind_some]
      dsimp only
      rw [hparts.stripRange_eq, hreference, ← List.append_assoc]
      rfl

/-- The source resolves the tokens one after another. -/
theorem exists_foldlM_resolveToken (tokens : List Token) (resolved : List Char × List ComposerReference) :
    ∃ parts : List (Token × List Char × List ComposerReference), parts.map Prod.fst = tokens ∧
      (∀ part ∈ parts, Resolved W workspaceRoot skills part.1 part.2.1 part.2.2) ∧
      tokens.foldlM (resolveToken W workspaceRoot skills) resolved =
        some (resolved.1 ++ parts.flatMap (·.2.1), resolved.2 ++ parts.flatMap (·.2.2)) := by
  induction tokens generalizing resolved with
  | nil => exact ⟨[], rfl, by simp, by simp⟩
  | cons token tokens ih =>
    obtain ⟨shown, references, hresolved, hstep⟩ := exists_resolveToken W workspaceRoot skills token
    obtain ⟨parts, rfl, hparts, hfold⟩ := ih (resolved.1 ++ shown, resolved.2 ++ references)
    refine ⟨(token, shown, references) :: parts, rfl, List.forall_mem_cons.mpr ⟨hresolved, hparts⟩, ?_⟩
    rw [List.foldlM_cons, hstep, Option.bind_eq_bind, Option.bind_some, hfold]
    simp

theorem flatMap_eq_source {parts : List (Token × List Char × List ComposerReference)}
    (h : ∀ part ∈ parts, Resolved W workspaceRoot skills part.1 part.2.1 part.2.2)
    (hnone : parts.flatMap (·.2.2) = []) :
    parts.flatMap (·.2.1) = (parts.map Prod.fst).flatMap Token.source := by
  rw [List.flatMap_map]
  refine List.flatMap_congr fun part hpart => ?_
  exact (h part hpart).eq_source W (List.flatMap_eq_nil_iff.mp hnone part hpart)

/-- Expansion is lossless: the tokens are the text, each is replaced by what it resolves to or kept, and
the references are those of the replaced tokens. A text without references is returned as it is. -/
theorem resolveTokens_lossless (text : List Char) :
    ∃ parts : List (Token × List Char × List ComposerReference),
      scanTokens text = some (parts.map Prod.fst) ∧ Scans [] text (parts.map Prod.fst) ∧
      (parts.map Prod.fst).flatMap Token.source = text ∧
      (∀ part ∈ parts, Resolved W workspaceRoot skills part.1 part.2.1 part.2.2) ∧
      resolveTokens W text workspaceRoot skills = some (parts.flatMap (·.2.1), parts.flatMap (·.2.2)) ∧
      (parts.flatMap (·.2.2) = [] → resolveTokens W text workspaceRoot skills = some (text, [])) := by
  obtain ⟨tokens, hscans, hscan⟩ := exists_scanTokens text
  obtain ⟨parts, rfl, hparts, hfold⟩ := exists_foldlM_resolveToken W workspaceRoot skills tokens ([], [])
  have hresolve : resolveTokens W text workspaceRoot skills =
      some (parts.flatMap (·.2.1), parts.flatMap (·.2.2)) := by
    rw [resolveTokens, hscan, Option.bind_some, hfold, List.nil_append, List.nil_append]
  refine ⟨parts, hscan, hscans, hscans.source, hparts, hresolve, fun hnone => ?_⟩
  rw [hresolve, hnone, flatMap_eq_source W workspaceRoot skills hparts hnone, hscans.source]
  rfl

/-- A workspace with one source file, and a skill. -/
def reviewFiles : Files where
  canonicalize text :=
    if text = "/w" then some ["w"]
    else if text = "/w/src/a.rs" then some ["w", "src", "a.rs"] else none
  metadata place := if place = ["w", "src", "a.rs"] then some (false, 12) else none
  mimeOf _ := some "text/x-rust"
  lines file :=
    if file = "/skills/review/SKILL.md" then
      some [some "---".toList, some "description: \"Reads code\"".toList, some "---".toList]
    else none

/-- A skill and a file are mentioned; the range goes, the comma stays, and so does what names nothing. -/
theorem resolveTokens_lossless_review :
    ∃ parts : List (Token × List Char × List ComposerReference),
      parts.map Prod.fst = [.text "Run ".toList, .skill "review".toList, .text " on ".toList,
        .path "src/a.rs:3-9,".toList, .text " not ".toList, .path "b.rs".toList] ∧
      (∀ part ∈ parts, Resolved reviewFiles (some "/w") [⟨"review", "/skills/review"⟩] part.1 part.2.1
        part.2.2) ∧
      parts.flatMap (·.2.1) = "Run Use the skill \"review\": Reads code. ".toList ++
        "Its instructions are at /skills/review/SKILL.md; ".toList ++
        "read and follow it for this turn. on @src/a.rs, not @b.rs".toList ∧
      parts.flatMap (·.2.2) = [⟨.skill, "review", "/skills/review", false, none, none⟩,
        ⟨.path, "a.rs", "src/a.rs", false, some "text/x-rust", some 12⟩] := by
  obtain ⟨parts, hscan, -, -, hresolved, hresolve, -⟩ := resolveTokens_lossless reviewFiles (some "/w")
    [⟨"review", "/skills/review"⟩] "Run $review on @src/a.rs:3-9, not @b.rs".toList
  have htokens : scanTokens "Run $review on @src/a.rs:3-9, not @b.rs".toList = some [.text "Run ".toList,
      .skill "review".toList, .text " on ".toList, .path "src/a.rs:3-9,".toList, .text " not ".toList,
      .path "b.rs".toList] := by
    decide +kernel
  have hshown : resolveTokens reviewFiles "Run $review on @src/a.rs:3-9, not @b.rs".toList (some "/w")
      [⟨"review", "/skills/review"⟩] = some
        ("Run Use the skill \"review\": Reads code. ".toList ++
          "Its instructions are at /skills/review/SKILL.md; ".toList ++
          "read and follow it for this turn. on @src/a.rs, not @b.rs".toList,
        [⟨.skill, "review", "/skills/review", false, none, none⟩,
          ⟨.path, "a.rs", "src/a.rs", false, some "text/x-rust", some 12⟩]) := by
    decide +kernel
  obtain ⟨htext, hreferences⟩ := Prod.mk.inj (Option.some.inj (hresolve.symm.trans hshown))
  exact ⟨parts, Option.some.inj (hscan.symm.trans htokens), hresolved, htext, hreferences⟩

end Resolve

end Tethys.Core.Composer
