import Tethys.Lib.Fields
import Tethys.Lib.OrdMap
import Tethys.Lib.Text
import Mathlib.Data.String.Basic
import Mathlib.Order.Basic

/-!
# Resolving a ref

`resolve_remote_with` takes the first word that `git ls-remote url ref` prints. That command lists
every ref whose last components are those of the name, in the order of the names, so that
`resolves_iff` depends on which of them comes first.
-/

namespace Tethys.Sync

open Lib

/-- How a run of git ends. -/
inductive GitRun where
  | missing
  | unstartable (message : String)
  | failed (stderr : List Char)
  | ok (stdout : List Char)

inductive ResolveError where
  | gitMissing
  | git (message : String)
  deriving DecidableEq

/-- The first word of `split_whitespace`. -/
def firstWord (line : List Char) : Option (List Char) :=
  let rest := line.dropWhile Lib.isWhitespace
  if rest = [] then none else some (rest.takeWhile fun c => !Lib.isWhitespace c)

/-- Resolves a ref to a commit. -/
def resolveRemoteWith (lsRemote : String → String → GitRun) (url : String) (reference : Option String) :
    Except ResolveError String :=
  let pattern := reference.getD "HEAD"
  match lsRemote url pattern with
  | .missing => .error .gitMissing
  | .unstartable message => .error (.git message)
  | .failed stderr => .error (.git (String.ofList (trim stderr)))
  | .ok stdout =>
    match (lines stdout).findSome? firstWord with
    | some word => .ok (String.ofList word)
    | none => .error (.git ("no ref " ++ pattern ++ " at " ++ url))

/-! ## Remotes -/

/-- A name that git gives to a ref: `HEAD`, or one below `refs/`, without blanks and control
characters. -/
abbrev RefName := { text : String //
  (text = "HEAD" ∨ "refs/".toList <+: text.toList) ∧ ∀ c ∈ text.toList, 32 < c.toNat }

/-- A commit, by its hash. -/
abbrev Commit := { text : String // text ≠ "" ∧ ∀ c ∈ text.toList, Lib.isWhitespace c = false }

/-- The refs of a repository and their commits, in the order of the names. -/
abbrev Remote := OrdMap RefName Commit

/-- The name has these last components. -/
def EndsIn (reference : String) (name : RefName) : Prop :=
  name.val = reference ∨ '/' :: reference.toList <:+ name.val.toList

instance (reference : String) : DecidablePred (EndsIn reference) := fun _ =>
  inferInstanceAs (Decidable (_ ∨ _))

def refLine (ref : RefName × Commit) : List Char :=
  ref.2.val.toList ++ '\t' :: ref.1.val.toList

/-- The refs that `git ls-remote` lists for a name. -/
def Remote.listed (remote : Remote) (reference : String) : List (RefName × Commit) :=
  remote.entries.filter fun ref => EndsIn reference ref.1

def Remote.lsRemote (remote : Remote) (_url reference : String) : GitRun :=
  .ok ((remote.listed reference).flatMap fun ref => refLine ref ++ ['\n'])

/-! ## The first line -/

theorem firstWord_refLine (ref : RefName × Commit) : firstWord (refLine ref) = some ref.2.val.toList := by
  obtain ⟨hne, hword⟩ := ref.2.property
  have hchars : ref.2.val.toList ≠ [] := fun h => hne (String.toList_eq_nil_iff.mp h)
  obtain ⟨c, rest, hcons⟩ := List.exists_cons_of_ne_nil hchars
  have hc : Lib.isWhitespace c = false := hword c (by rw [hcons]; exact List.mem_cons_self)
  have hdrop : (refLine ref).dropWhile Lib.isWhitespace = refLine ref := by
    rw [refLine, hcons, List.cons_append, List.dropWhile_cons_of_neg (by simp [hc])]
  have htake : (refLine ref).takeWhile (fun c => !Lib.isWhitespace c) = ref.2.val.toList := by
    rw [refLine, List.takeWhile_append_of_pos (fun c hc => by rw [hword c hc]; rfl),
      List.takeWhile_cons_of_neg (by decide), List.append_nil]
  have hline : refLine ref ≠ [] := by simp [refLine]
  rw [firstWord, hdrop, if_neg hline, htake]

theorem notMem_refLine (ref : RefName × Commit) {c : Char} (hc : Lib.isWhitespace c = true)
    (hcontrol : c.toNat ≤ 32) (htab : c ≠ '\t') : c ∉ refLine ref := by
  rw [refLine, List.mem_append, List.mem_cons, not_or, not_or]
  refine ⟨fun h => ?_, htab, fun h => ?_⟩
  · rw [ref.2.property.2 c h] at hc
    cases hc
  · have hname := ref.1.property.2 c h
    omega

/-- Lines that are each ended are read back. -/
theorem lines_ended (chunks : List (List Char)) (hnewline : ∀ chunk ∈ chunks, '\n' ∉ chunk)
    (hreturn : ∀ chunk ∈ chunks, '\r' ∉ chunk) : lines (chunks.flatMap (· ++ ['\n'])) = chunks := by
  have hstrip : ∀ chunk ∈ chunks, (stripSuffix ['\r'] chunk).getD chunk = chunk := by
    intro chunk hchunk
    rw [stripSuffix, if_neg, Option.getD_none]
    rw [List.isSuffixOf_iff_suffix]
    exact fun hsuffix => hreturn chunk hchunk (hsuffix.subset List.mem_cons_self)
  rw [lines, splitOn_terminated hnewline]
  simp only [List.dropLast_concat, List.getLast?_concat]
  rw [List.map_congr_left hstrip, List.map_id']

theorem findSome?_lsRemote (refs : List (RefName × Commit)) :
    (lines (refs.flatMap fun ref => refLine ref ++ ['\n'])).findSome? firstWord =
      refs.head?.map fun ref => ref.2.val.toList := by
  have hlines := lines_ended (refs.map refLine)
    (List.forall_mem_map.mpr fun ref _ => notMem_refLine ref (by decide) (by decide) (by decide))
    (List.forall_mem_map.mpr fun ref _ => notMem_refLine ref (by decide) (by decide) (by decide))
  rw [List.flatMap_map] at hlines
  rw [hlines]
  cases refs with
  | nil => rfl
  | cons ref refs =>
    rw [List.map_cons, List.findSome?_cons_of_isSome]
    · rw [firstWord_refLine]
      rfl
    · rw [firstWord_refLine]
      rfl

section Resolve
variable (remote : Remote) (url : String) (reference : Option String)

/-- The first ref that is listed decides. -/
theorem resolveRemoteWith_eq : resolveRemoteWith remote.lsRemote url reference =
    match (remote.listed (reference.getD "HEAD")).head? with
    | some ref => .ok ref.2.val
    | none => .error (.git ("no ref " ++ reference.getD "HEAD" ++ " at " ++ url)) := by
  simp only [resolveRemoteWith, Remote.lsRemote, findSome?_lsRemote]
  cases (remote.listed (reference.getD "HEAD")).head? with
  | none => rfl
  | some ref => simp

end Resolve

/-! ## The ref that is asked for -/

/-- The ref of this full name, or the branch or tag of this name. -/
def Asked (reference : String) (name : RefName) : Prop :=
  name.val = reference ∨ name.val = "refs/heads/" ++ reference ∨ name.val = "refs/tags/" ++ reference

theorem Asked.endsIn {reference : String} {name : RefName} (h : Asked reference name) :
    EndsIn reference name := by
  rcases h with h | h | h
  · exact .inl h
  · refine .inr ⟨"refs/heads".toList, ?_⟩
    rw [h, String.toList_append]
    rfl
  · refine .inr ⟨"refs/tags".toList, ?_⟩
    rw [h, String.toList_append]
    rfl

/-- The commit is that of a ref that is asked for, and there is an error if there is none. -/
def ResolvesAsked (remote : Remote) (reference : String) : Except ResolveError String → Prop
  | .ok commit => ∃ name found, Asked reference name ∧ remote.get name = some found ∧ found.val = commit
  | .error _ => ∀ name, Asked reference name → remote.get name = none

/-- The first ref with these last components is one that is asked for, or stands where one does. -/
def FirstAsked (remote : Remote) (reference : String) : Prop :=
  ∀ name commit, remote.get name = some commit → EndsIn reference name →
    (∀ other, remote.get other ≠ none → EndsIn reference other → name ≤ other) →
    ∃ asked, Asked reference asked ∧ remote.get asked = some commit

section Asked
variable {remote : Remote} {reference : String}

theorem mem_listed {ref : RefName × Commit} :
    ref ∈ remote.listed reference ↔ remote.get ref.1 = some ref.2 ∧ EndsIn reference ref.1 := by
  rw [Remote.listed, List.mem_filter, decide_eq_true_eq, OrdMap.get_eq_some]

/-- No ref that is listed is before the first one. -/
theorem head?_listed {ref : RefName × Commit} (h : (remote.listed reference).head? = some ref) :
    remote.get ref.1 = some ref.2 ∧ EndsIn reference ref.1 ∧
      ∀ other, remote.get other ≠ none → EndsIn reference other → ref.1 ≤ other := by
  obtain ⟨hget, hends⟩ := mem_listed.mp (List.mem_of_mem_head? h)
  refine ⟨hget, hends, fun other hother hends' => ?_⟩
  obtain ⟨commit, hcommit⟩ := Option.ne_none_iff_exists'.mp hother
  have hmem : (other, commit) ∈ remote.listed reference := mem_listed.mpr ⟨hcommit, hends'⟩
  have hsorted : (remote.listed reference).Pairwise fun a b => a.1 < b.1 := remote.sorted.filter _
  obtain ⟨rest, hrest⟩ := List.head?_eq_some_iff.mp h
  rw [hrest] at hmem hsorted
  rcases List.mem_cons.mp hmem with heq | hmem
  · rw [← heq]
  · exact ((List.pairwise_cons.mp hsorted).1 _ hmem).le

/-- A ref resolves to what is asked for if and only if the first ref that ends like it does. -/
theorem resolves_iff (remote : Remote) (url : String) (reference : Option String) :
    ResolvesAsked remote (reference.getD "HEAD") (resolveRemoteWith remote.lsRemote url reference) ↔
      FirstAsked remote (reference.getD "HEAD") := by
  rw [resolveRemoteWith_eq]
  cases hhead : (remote.listed (reference.getD "HEAD")).head? with
  | none =>
    have hnone : ∀ name, EndsIn (reference.getD "HEAD") name → remote.get name = none := by
      intro name hends
      by_contra hsome
      obtain ⟨commit, hcommit⟩ := Option.ne_none_iff_exists'.mp hsome
      have hmem : (name, commit) ∈ remote.listed (reference.getD "HEAD") :=
        mem_listed.mpr ⟨hcommit, hends⟩
      rw [List.head?_eq_none_iff.mp hhead] at hmem
      cases hmem
    refine iff_of_true (fun name hasked => hnone name hasked.endsIn) ?_
    intro name commit hget hends
    rw [hnone name hends] at hget
    cases hget
  | some ref =>
    obtain ⟨hget, hends, hfirst⟩ := head?_listed hhead
    constructor
    · rintro ⟨asked, found, hasked, hfound, hcommit⟩ name commit hget' hends' hfirst'
      have hname : name = ref.1 := le_antisymm
        (hfirst' ref.1 (by rw [hget]; exact Option.some_ne_none _) hends)
        (hfirst name (by rw [hget']; exact Option.some_ne_none _) hends')
      rw [hname, hget] at hget'
      obtain rfl := Option.some.inj hget'
      exact ⟨asked, hasked, by rw [hfound, Subtype.ext hcommit]⟩
    · intro hcond
      obtain ⟨asked, hasked, hget'⟩ := hcond ref.1 ref.2 hget hends hfirst
      exact ⟨asked, ref.2, hasked, hget', rfl⟩

end Asked

/-! ## A branch in a directory of branches -/

def mainBranch : RefName := ⟨"refs/heads/main", .inr (by decide +kernel), by simp⟩

def featureMain : RefName := ⟨"refs/heads/feature/main", .inr (by decide +kernel), by simp⟩

/-- Two branches, the second of which is `main`. -/
def twoMains : Remote where
  entries := [(featureMain, ⟨"1", by decide, by simp; decide⟩), (mainBranch, ⟨"2", by decide, by simp; decide⟩)]
  sorted := by
    rw [List.pairwise_cons]
    refine ⟨fun e he => ?_, List.pairwise_singleton _ _⟩
    obtain rfl := List.mem_singleton.mp he
    decide +kernel

/-- `main` resolves to the branch `feature/main`. -/
theorem twoMains_resolves (url : String) :
    resolveRemoteWith twoMains.lsRemote url (some "main") = .ok "1" := by
  have hhead : (twoMains.listed "main").head? =
      some (featureMain, ⟨"1", by decide, by simp; decide⟩) := by
    rw [Remote.listed, twoMains, List.filter_cons_of_pos (by decide +kernel)]
    rfl
  rw [resolveRemoteWith_eq, Option.getD_some, hhead]

theorem twoMains_not_asked : ¬ ResolvesAsked twoMains "main"
    (resolveRemoteWith twoMains.lsRemote "https://github.com/o/r.git" (some "main")) := by
  rw [twoMains_resolves]
  rintro ⟨name, found, hasked, hget, hcommit⟩
  have hmem := OrdMap.get_eq_some.mp hget
  simp only [twoMains, List.mem_cons, Prod.mk.injEq, List.not_mem_nil, or_false] at hmem
  rcases hmem with ⟨rfl, -⟩ | ⟨-, rfl⟩
  · revert hasked
    simp only [Asked, featureMain]
    decide +kernel
  · revert hcommit
    decide

end Tethys.Sync
