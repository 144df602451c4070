import Tethys.Lib.Globs
import Mathlib.Data.List.TakeWhile
import Mathlib.Order.Nat

/-!
# Globs of the bootstrap

Globs match whole path segments: `*` and `?` never cross `/`, while `**` matches any number of
segments. A segment is matched by a loop with two indices that remembers the last star. It looks
for the next letter of the text before it looks for a star, so that a star takes a `*` of the text
as the letter; `patternMatches_iff` says for which paths this makes a difference.
-/

namespace Tethys.Git

open Lib

/-- The part of a pattern or a path between two slashes. -/
abbrev Segment := List Char

def IsStar (q : Char) : Prop := q = '*'

/-- The element is the letter, or stands for any letter. -/
def Takes (q letter : Char) : Prop := q = '?' ∨ q = letter

instance : DecidablePred IsStar := fun q => inferInstanceAs (Decidable (q = '*'))

instance (q letter : Char) : Decidable (Takes q letter) :=
  inferInstanceAs (Decidable (q = '?' ∨ q = letter))

/-- The segment `**` matches any number of segments. -/
def IsDeep (segment : Segment) : Prop := segment = ['*', '*']

instance : DecidablePred IsDeep := fun segment => inferInstanceAs (Decidable (segment = ['*', '*']))

/-! ## The loop over a segment -/

/-- Where the loop stands in the pattern and the text, with the last star and the place in the text
up to which it reaches. -/
structure Cursor where
  pi : Nat
  ti : Nat
  star : Option Nat
  resume : Nat
  resume_le : resume ≤ ti
  star_lt : ∀ starAt ∈ star, starAt < pi

namespace Cursor

def start : Cursor := ⟨0, 0, none, 0, le_rfl, by simp⟩

variable (cursor : Cursor)

/-- The letter is taken. -/
def advance : Cursor where
  pi := cursor.pi + 1
  ti := cursor.ti + 1
  star := cursor.star
  resume := cursor.resume
  resume_le := Nat.le_succ_of_le cursor.resume_le
  star_lt starAt h := Nat.lt_succ_of_lt (cursor.star_lt starAt h)

/-- A star is met, and stands for nothing so far. -/
def mark : Cursor where
  pi := cursor.pi + 1
  ti := cursor.ti
  star := some cursor.pi
  resume := cursor.ti
  resume_le := le_rfl
  star_lt := by simp

/-- The last star stands for one letter more. -/
def back : Option Cursor :=
  cursor.star.map fun starAt =>
    ⟨starAt + 1, cursor.resume + 1, some starAt, cursor.resume + 1, le_rfl, by simp⟩

/-- One round of the loop, at a letter of the text. -/
def next (pattern : Segment) (letter : Char) : Option Cursor :=
  match pattern[cursor.pi]? with
  | none => cursor.back
  | some q =>
    if Takes q letter then some cursor.advance
    else if IsStar q then some cursor.mark
    else cursor.back

variable {cursor} {pattern : Segment} {letter : Char} {cursor' : Cursor}

/-- What a round can do. -/
theorem next_cases (cursor : Cursor) (pattern : Segment) (letter : Char) :
    (∃ q, pattern[cursor.pi]? = some q ∧ Takes q letter ∧
      cursor.next pattern letter = some cursor.advance) ∨
    (∃ q, pattern[cursor.pi]? = some q ∧ IsStar q ∧ ¬ Takes q letter ∧
      cursor.next pattern letter = some cursor.mark) ∨
    ((∀ q ∈ pattern[cursor.pi]?, ¬ IsStar q ∧ ¬ Takes q letter) ∧
      cursor.next pattern letter = cursor.back) := by
  cases hq : pattern[cursor.pi]? with
  | none => exact .inr (.inr ⟨by simp, by simp [next, hq]⟩)
  | some q =>
    by_cases htakes : Takes q letter
    · exact .inl ⟨q, rfl, htakes, by simp [next, hq, htakes]⟩
    · by_cases hstar : IsStar q
      · exact .inr (.inl ⟨q, rfl, hstar, htakes, by simp [next, hq, htakes, hstar]⟩)
      · exact .inr (.inr ⟨by simp [hstar, htakes], by simp [next, hq, htakes, hstar]⟩)

/-- How many elements of the pattern are behind the last star, with the star. -/
def behind (cursor : Cursor) : Nat := cursor.star.elim 0 (· + 1)

theorem behind_le (cursor : Cursor) : cursor.behind ≤ cursor.pi := by
  cases hstar : cursor.star with
  | none => simp [behind, hstar]
  | some starAt =>
    have hlt := cursor.star_lt starAt hstar
    simp only [behind, hstar, Option.elim_some]
    omega

/-- Each round takes a letter, or goes on to a later star, or lets the last star stand for more. -/
theorem next_decreases {n : Nat} (hti : cursor.ti < n)
    (h : cursor.next pattern letter = some cursor') :
    Prod.Lex (· < ·) (Prod.Lex (· < ·) (· < ·))
      (n - cursor'.resume, pattern.length - cursor'.behind, n - cursor'.ti)
      (n - cursor.resume, pattern.length - cursor.behind, n - cursor.ti) := by
  have hresume := cursor.resume_le
  have hbehind := cursor.behind_le
  rcases next_cases cursor pattern letter with ⟨q, -, -, heq⟩ | ⟨q, hq, -, -, heq⟩ | ⟨-, heq⟩
  · obtain rfl := Option.some.inj (heq.symm.trans h)
    exact .right _ (.right _ (by simp only [advance]; omega))
  · obtain rfl := Option.some.inj (heq.symm.trans h)
    have hpi : cursor.pi < pattern.length := (List.getElem?_eq_some_iff.mp hq).1
    rcases Nat.lt_or_eq_of_le hresume with hlt | hresume
    · exact .left _ _ (by simp only [mark]; omega)
    · have hmark : cursor.mark.behind = cursor.pi + 1 := rfl
      have hsame : cursor.mark.resume = cursor.resume := hresume.symm
      rw [hsame, hmark]
      exact .right _ (.left _ _ (by omega))
  · rw [heq, back, Option.map_eq_some_iff] at h
    obtain ⟨starAt, -, rfl⟩ := h
    exact .left _ _ (by simp only; omega)

/-- The rounds of the loop, and after the last letter the stars that are left over. -/
def run (pattern text : Segment) (cursor : Cursor) : Bool :=
  if hti : cursor.ti < text.length then
    match h : cursor.next pattern text[cursor.ti] with
    | some cursor' => run pattern text cursor'
    | none => false
  else
    (pattern.drop cursor.pi).dropWhile (IsStar ·) = []
termination_by (text.length - cursor.resume, pattern.length - cursor.behind, text.length - cursor.ti)
decreasing_by exact next_decreases hti h

end Cursor

def segmentMatches (pattern text : Segment) : Bool := Cursor.run pattern text .start

def matchSegments : List Segment → List Segment → Bool
  | [], path => path.isEmpty
  | segment :: rest, path =>
    if IsDeep segment then
      (List.range (path.length + 1)).any fun skip => matchSegments rest (path.drop skip)
    else
      match path with
      | [] => false
      | first :: path => segmentMatches segment first && matchSegments rest path

/-- Match an entire relative path against a glob. -/
def patternMatches (pattern path : String) : Bool :=
  matchSegments (pattern.toList.splitOn '/') (path.toList.splitOn '/')

/-! ## What the loop finds -/

namespace Cursor

variable {cursor cursor' : Cursor} {pattern text : Segment} {letter : Char}

/-- Between the last star and the cursor, each element of the pattern takes its letter. -/
def Moved (pattern text : Segment) (cursor : Cursor) : Prop :=
  ∀ starAt ∈ cursor.star, ∃ mid seen, pattern.drop (starAt + 1) = mid ++ pattern.drop cursor.pi ∧
    text.drop cursor.resume = seen ++ text.drop cursor.ti ∧ List.Forall₂ Takes mid seen

/-- The rest of the text matches the rest of the pattern, or it does when the last star stands for
more. -/
def Alive (pattern text : Segment) (cursor : Cursor) : Prop :=
  Eager IsStar Takes (pattern.drop cursor.pi) (text.drop cursor.ti) ∨
    ∃ starAt ∈ cursor.star, ∃ k,
      Eager IsStar Takes (pattern.drop (starAt + 1)) (text.drop (cursor.resume + 1 + k))

theorem drop_eq_cons {l : Segment} {i : Nat} {a : Char} (h : l[i]? = some a) :
    l.drop i = a :: l.drop (i + 1) := by
  obtain ⟨hi, rfl⟩ := List.getElem?_eq_some_iff.mp h
  exact List.drop_eq_getElem_cons hi

/-- What a later match of the last star says about the rest of the pattern. -/
theorem Moved.skip (hmoved : Moved pattern text cursor) {starAt k : Nat} (hstar : starAt ∈ cursor.star)
    (h : Eager IsStar Takes (pattern.drop (starAt + 1)) (text.drop (cursor.resume + 1 + k))) :
    ∃ k', Eager IsStar Takes (pattern.drop cursor.pi) (text.drop (cursor.ti + k')) := by
  obtain ⟨mid, seen, hmid, hseen, htakes⟩ := hmoved starAt hstar
  rw [hmid, Nat.add_assoc, ← List.drop_drop, hseen] at h
  obtain ⟨k', hrest⟩ := Eager.skip htakes (1 + k) h
  exact ⟨k', by rwa [List.drop_drop] at hrest⟩

theorem Moved.start : Moved pattern text start := by simp [Moved, Cursor.start]

theorem Moved.next (hmoved : Moved pattern text cursor) (hletter : text[cursor.ti]? = some letter)
    (h : cursor.next pattern letter = some cursor') : Moved pattern text cursor' := by
  rcases next_cases cursor pattern letter with ⟨q, hq, htakes, heq⟩ | ⟨q, hq, -, -, heq⟩ | ⟨-, heq⟩
  · obtain rfl := Option.some.inj (heq.symm.trans h)
    intro starAt hstar
    obtain ⟨mid, seen, hmid, hseen, hmoved⟩ := hmoved starAt hstar
    refine ⟨mid ++ [q], seen ++ [letter], ?_, ?_, List.rel_append hmoved (.cons htakes .nil)⟩
    · rw [hmid, drop_eq_cons hq, List.append_assoc]
      rfl
    · rw [advance, hseen, drop_eq_cons hletter, List.append_assoc]
      rfl
  · obtain rfl := Option.some.inj (heq.symm.trans h)
    rintro starAt ⟨⟩
    exact ⟨[], [], rfl, rfl, .nil⟩
  · rw [heq, back, Option.map_eq_some_iff] at h
    obtain ⟨starAt, -, rfl⟩ := h
    rintro starAt' ⟨⟩
    exact ⟨[], [], rfl, rfl, .nil⟩

/-- A letter that is not taken, and no star: only the last star can help. -/
theorem alive_iff_of_stuck (hletter : text[cursor.ti]? = some letter)
    (hq : ∀ q ∈ pattern[cursor.pi]?, ¬ IsStar q ∧ ¬ Takes q letter) :
    Alive pattern text cursor ↔ ∃ starAt ∈ cursor.star, ∃ k,
      Eager IsStar Takes (pattern.drop (starAt + 1)) (text.drop (cursor.resume + 1 + k)) := by
  refine or_iff_right fun heager => ?_
  rw [drop_eq_cons hletter] at heager
  cases hnext : pattern[cursor.pi]? with
  | none =>
    rw [List.drop_eq_nil_of_le (List.getElem?_eq_none_iff.mp hnext)] at heager
    cases heager
  | some q =>
    obtain ⟨hstar, htakes⟩ := hq q hnext
    rw [drop_eq_cons hnext] at heager
    exact Eager.not_cons hstar (by simpa using htakes) heager

/-- A round keeps whether there is a match. -/
theorem alive_next (hmoved : Moved pattern text cursor) (hletter : text[cursor.ti]? = some letter)
    (h : cursor.next pattern letter = some cursor') :
    Alive pattern text cursor' ↔ Alive pattern text cursor := by
  rcases next_cases cursor pattern letter with ⟨q, hq, htakes, heq⟩ | ⟨q, hq, hstar, hfree, heq⟩ | ⟨hq, heq⟩
  · obtain rfl := Option.some.inj (heq.symm.trans h)
    have hrest : Eager IsStar Takes (pattern.drop cursor.pi) (text.drop cursor.ti) ↔
        Eager IsStar Takes (pattern.drop (cursor.pi + 1)) (text.drop (cursor.ti + 1)) := by
      rw [drop_eq_cons hq, drop_eq_cons hletter, Eager.takes_iff htakes]
    exact or_congr hrest.symm Iff.rfl
  · obtain rfl := Option.some.inj (heq.symm.trans h)
    have hhere : Eager IsStar Takes (pattern.drop cursor.pi) (text.drop cursor.ti) ↔
        ∃ k, Eager IsStar Takes (pattern.drop (cursor.pi + 1)) (text.drop (cursor.ti + k)) := by
      have hword : ∀ c ∈ (text.drop cursor.ti).head?, ¬ Takes q c := by
        rw [drop_eq_cons hletter]
        simpa using hfree
      rw [drop_eq_cons hq, Eager.star_iff hstar hword]
      simp only [List.drop_drop]
    have hmark : Alive pattern text cursor.mark ↔
        ∃ k, Eager IsStar Takes (pattern.drop (cursor.pi + 1)) (text.drop (cursor.ti + k)) := by
      constructor
      · rintro (hnow | ⟨-, ⟨⟩, k, hlater⟩)
        · exact ⟨0, hnow⟩
        · exact ⟨1 + k, by rwa [← Nat.add_assoc]⟩
      · rintro ⟨k, hk⟩
        cases k with
        | zero => exact .inl hk
        | succ k => exact .inr ⟨cursor.pi, rfl, k, by rwa [Nat.add_assoc, Nat.add_comm 1 k]⟩
    rw [hmark, ← hhere]
    refine (or_iff_left_of_imp ?_).symm
    -- a later match of the star before is one of this star
    rintro ⟨starAt, hstarAt, k, hlater⟩
    obtain ⟨k', hrest⟩ := hmoved.skip hstarAt hlater
    rw [drop_eq_cons hq] at hrest
    obtain ⟨k'', hrest⟩ := hrest.tail
    rw [List.drop_drop, Nat.add_assoc] at hrest
    exact hhere.mpr ⟨k' + k'', hrest⟩
  · rw [heq, back, Option.map_eq_some_iff] at h
    obtain ⟨starAt, hstarAt, rfl⟩ := h
    rw [alive_iff_of_stuck hletter hq]
    constructor
    · rintro (hnow | ⟨starAt', hstarAt', k, hlater⟩)
      · exact ⟨starAt, hstarAt, 0, hnow⟩
      · obtain rfl := Option.some.inj hstarAt'
        exact ⟨starAt, hstarAt, 1 + k, by rwa [← Nat.add_assoc]⟩
    · rintro ⟨starAt', hstarAt', k, hk⟩
      obtain rfl := Option.some.inj (hstarAt.symm.trans hstarAt')
      cases k with
      | zero => exact .inl hk
      | succ k => exact .inr ⟨starAt, rfl, k, by rwa [Nat.add_assoc _ 1 k, Nat.add_comm 1 k]⟩

theorem alive_iff_of_le (hmoved : Moved pattern text cursor) (hti : text.length ≤ cursor.ti) :
    Alive pattern text cursor ↔ ∀ q ∈ pattern.drop cursor.pi, IsStar q := by
  have hover : ∀ k, text.drop (cursor.ti + k) = [] := fun k =>
    List.drop_eq_nil_of_le (Nat.le_add_right_of_le hti)
  have hnow : text.drop cursor.ti = [] := hover 0
  have hleft : Eager IsStar Takes (pattern.drop cursor.pi) [] ↔ _ := Eager.nil_iff
  rw [← hleft, Alive, hnow]
  refine or_iff_left_of_imp ?_
  rintro ⟨starAt, hstarAt, k, hlater⟩
  obtain ⟨k', hrest⟩ := hmoved.skip hstarAt hlater
  rwa [hover k'] at hrest

/-- The loop finds a match if there is one. -/
theorem run_iff (hmoved : Moved pattern text cursor) :
    run pattern text cursor = true ↔ Alive pattern text cursor := by
  induction cursor using run.induct pattern text with
  | case1 cursor hti cursor' h ih =>
    have hletter := List.getElem?_eq_getElem hti
    rw [run, dif_pos hti, h, ← alive_next hmoved hletter h]
    exact ih (hmoved.next hletter h)
  | case2 cursor hti h =>
    have hletter := List.getElem?_eq_getElem hti
    rw [run, dif_pos hti, h]
    rcases next_cases cursor pattern text[cursor.ti] with ⟨q, -, -, heq⟩ | ⟨q, -, -, -, heq⟩ | ⟨hq, heq⟩
    · cases heq.symm.trans h
    · cases heq.symm.trans h
    · rw [alive_iff_of_stuck hletter hq]
      rw [heq, back, Option.map_eq_none_iff] at h
      simp [h]
  | case3 cursor hti =>
    rw [run, dif_neg hti, alive_iff_of_le hmoved (Nat.le_of_not_lt hti)]
    simp [List.dropWhile_eq_nil_iff]

end Cursor

theorem segmentMatches_iff {pattern text : Segment} :
    segmentMatches pattern text = true ↔ Eager IsStar Takes pattern text := by
  rw [segmentMatches, Cursor.run_iff .start, Cursor.Alive]
  simp [Cursor.start]

theorem matchSegments_iff {pattern path : List Segment} :
    matchSegments pattern path = true ↔ Matches IsDeep (Eager IsStar Takes) pattern path := by
  induction pattern generalizing path with
  | nil => simp [matchSegments]
  | cons segment rest ih =>
    by_cases hdeep : IsDeep segment
    · simp [matchSegments, hdeep, ih, Matches.star_iff, Nat.lt_succ_iff]
    · cases path with
      | nil => simp [matchSegments, hdeep]
      | cons first path =>
        simp [matchSegments, hdeep, ih, Matches.one_iff, segmentMatches_iff]

/-! ## When a path matches -/

/-- The segments of the path match those of the pattern, where `**` matches any number of segments,
and within a segment `*` any string, `?` any letter and any other letter itself. -/
def GlobMatches (pattern path : String) : Prop :=
  Matches IsDeep (Matches IsStar Takes) (pattern.toList.splitOn '/') (path.toList.splitOn '/')

/-- They match in such a way that each `*` of the pattern that stands at a `*` of the path stands for
just this one. -/
def StarsTakeStars (pattern path : String) : Prop :=
  Matches IsDeep (Eager IsStar Takes) (pattern.toList.splitOn '/') (path.toList.splitOn '/')

theorem patternMatches_eq_true {pattern path : String} :
    patternMatches pattern path = true ↔ StarsTakeStars pattern path := matchSegments_iff

theorem StarsTakeStars.globMatches {pattern path : String} (h : StarsTakeStars pattern path) :
    GlobMatches pattern path :=
  h.mono fun _ _ heager => heager.toMatches

/-- The bootstrap selects a path as the documentation says if and only if the path does not match, or
matches in such a way that each star that stands at a `*` of the path stands for just this one. -/
theorem patternMatches_iff (pattern path : String) :
    (patternMatches pattern path = true ↔ GlobMatches pattern path) ↔
      (GlobMatches pattern path → StarsTakeStars pattern path) := by
  rw [patternMatches_eq_true]
  exact ⟨fun h => h.mpr, fun h => ⟨StarsTakeStars.globMatches, h⟩⟩

/-- A file name that begins with a star and has another letter is not matched by `*`. -/
theorem star_not_matched : ¬ (patternMatches "*" "*a" = true ↔ GlobMatches "*" "*a") := by
  have hpattern : "*".toList.splitOn '/' = [['*']] := by decide
  have hpath : "*a".toList.splitOn '/' = [['*', 'a']] := by decide
  have hdeep : ¬ IsDeep ['*'] := by decide
  have hglob : GlobMatches "*" "*a" := by
    rw [GlobMatches, hpattern, hpath]
    exact .one hdeep (.star (u := ['*', 'a']) rfl .nil) .nil
  intro h
  have hstars := patternMatches_eq_true.mp (h.mpr hglob)
  rw [StarsTakeStars, hpattern, hpath] at hstars
  have hsegment := ((Matches.one_iff hdeep).mp hstars).1
  cases (Eager.takes_iff (.inr rfl)).mp hsegment

/-- In particular when no segment of the path has a `*`. -/
theorem patternMatches_of_not_mem {pattern path : String}
    (h : ∀ segment ∈ path.toList.splitOn '/', '*' ∉ segment) :
    patternMatches pattern path = true ↔ GlobMatches pattern path := by
  rw [patternMatches_eq_true]
  refine ⟨StarsTakeStars.globMatches, fun hglob => ?_⟩
  refine Matches.mono_mem (fun q _ segment hsegment hmatches => ?_) hglob
  refine hmatches.eager fun q _ hq c hc htakes => ?_
  obtain rfl : c = '*' := by
    rcases htakes with rfl | rfl
    · cases hq
    · exact hq
  exact h segment hsegment hc

end Tethys.Git
