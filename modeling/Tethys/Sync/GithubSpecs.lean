import Tethys.Lib.Pieces
import Tethys.Sync.Import

/-!
# The two spellings of a GitHub spec

`parse_github_spec` reads the shorthand `owner/repo/subdir@ref` and the URL
`https://github.com/owner/repo/tree/ref/subdir` in different ways: the shorthand is cut at the first
`@` and the first two slashes, the URL into its pieces that are not empty.

## Main results

* `readShort_eq_some` — what is read from a shorthand are the parts that it is written of.
* `exists_of_readPieces` — what is read from a URL are the parts whose segments it has.
* `trim_shorthand`, `trim_url` — trimming either spelling trims parts of it.
-/

namespace Tethys.Sync

open Lib

/-! ## Parts and spellings -/

/-- The parts that are spelled; any of them may be empty. -/
@[ext] structure SpecParts where
  owner : List Char
  repo : List Char
  subdir : Option (List Char) := none
  reference : Option (List Char) := none
  deriving DecidableEq

/-- How a URL is written: with `.git` after the repository, with how many more slashes before each
segment, and with how many at its end. -/
structure UrlLayout where
  git : Bool := false
  gap : Nat → Nat := fun _ => 0
  trailing : Nat := 0

def gitSuffix : List Char := ".git".toList

def tree : List Char := "tree".toList

def githubHost : List Char := "github.com".toList

def urlHead : List Char := "https://github.com".toList

theorem urlHead_eq : urlHead = "https://".toList ++ githubHost := by decide

namespace SpecParts

def toSpec (p : SpecParts) : GitHubSpec where
  owner := String.ofList p.owner
  repo := String.ofList p.repo
  subdir := p.subdir.map String.ofList
  reference := p.reference.map String.ofList

theorem toSpec_injective : Function.Injective toSpec := by
  intro p q h
  obtain ⟨howner, hrepo, hsubdir, hreference⟩ := GitHubSpec.mk.inj h
  have hinj : Function.Injective String.ofList := fun a b hab => by
    simpa using congrArg String.toList hab
  cases p
  cases q
  rw [SpecParts.mk.injEq]
  exact ⟨hinj howner, hinj hrepo, Option.map_injective hinj hsubdir, Option.map_injective hinj hreference⟩

/-- `owner/repo[/subdir][@ref]`. -/
def shorthand (p : SpecParts) : List Char :=
  p.owner ++ '/' :: (p.repo ++ (p.subdir.elim [] ('/' :: ·) ++ p.reference.elim [] ('@' :: ·)))

/-- `owner`, `repo`, `tree`, `ref` and the segments of `subdir`. -/
def segments (p : SpecParts) (git : Bool) : List (List Char) :=
  p.owner :: (p.repo ++ if git then gitSuffix else []) ::
    (p.reference.elim [] (fun reference => [tree, reference]) ++ p.subdir.elim [] (·.splitOn '/'))

/-- `https://github.com/owner/repo[/tree/ref][/subdir]`. -/
def url (p : SpecParts) (layout : UrlLayout) : List Char :=
  urlHead ++ (spaced '/' layout.gap (p.segments layout.git) ++ List.replicate layout.trailing '/')

/-- Owner, repository and ref have no slash. -/
structure Slashless (p : SpecParts) : Prop where
  owner : '/' ∉ p.owner
  repo : '/' ∉ p.repo
  reference : ∀ reference ∈ p.reference, '/' ∉ reference

end SpecParts

/-- The two spellings are read as one spec or both rejected, and what is read has no empty part. -/
structure SpellingsAgree (p : SpecParts) (layout : UrlLayout) : Prop where
  same : (parseGithubSpec (String.ofList p.shorthand)).toOption =
    (parseGithubSpec (String.ofList (p.url layout))).toOption
  nonempty : ∀ text ∈ [p.shorthand, p.url layout], ∀ spec,
    parseGithubSpec (String.ofList text) = .ok spec →
    spec.owner ≠ "" ∧ spec.repo ≠ "" ∧ spec.subdir ≠ some "" ∧ spec.reference ≠ some ""

/-! ## The parser on characters -/

def stripGit (repo : List Char) : List Char := (stripSuffix gitSuffix repo).getD repo

/-- The pieces of the part of a URL after the host. -/
def readPieces : List (List Char) → Option SpecParts
  | owner :: repo :: rest =>
    let repo := stripGit repo
    match rest with
    | [] => some ⟨owner, repo, none, none⟩
    | first :: more =>
      if first = tree then
        match more with
        | [] => some ⟨owner, repo, none, none⟩
        | reference :: subdir =>
          some ⟨owner, repo, if subdir = [] then none else some (['/'].intercalate subdir),
            some reference⟩
      else some ⟨owner, repo, some (['/'].intercalate (first :: more)), none⟩
  | _ => none

def readShort (text : List Char) : Option SpecParts :=
  let (pathPart, reference) := match splitOnce '@' text with
    | some (path, reference) => (path, some reference)
    | none => (text, none)
  let (owner, rest) := (splitOnce '/' pathPart).getD (pathPart, [])
  let (repo, subdir) := match splitOnce '/' rest with
    | some (repo, subdir) => (repo, some subdir)
    | none => (rest, none)
  if owner = [] ∨ repo = [] then none else some ⟨owner, repo, subdir, reference⟩

/-- What is left of a URL after its scheme. -/
def urlRest (text : List Char) : Option (List Char) :=
  (stripPrefix "https://".toList text).or (stripPrefix "http://".toList text)

def readUrl (rest : List Char) : Option SpecParts :=
  let (host, path) := (splitOnce '/' rest).getD (rest, [])
  let host := host.takeWhile (· ≠ ':')
  if host ≠ "github.com".toList ∧ host ≠ "www.github.com".toList then none
  else readPieces (pieces '/' path)

def readSpec (text : List Char) : Option SpecParts :=
  match urlRest text with
  | some rest => readUrl rest
  | none => if text.tails.any ("://".toList.isPrefixOf ·) then none else readShort text

theorem ofList_intercalate (parts : List (List Char)) :
    "/".intercalate (parts.map String.ofList) = String.ofList (['/'].intercalate parts) := by
  apply String.toList_inj.mp
  rw [String.toList_intercalate, List.map_map, String.toList_ofList]
  have hid : String.toList ∘ String.ofList = id := funext fun chars => String.toList_ofList
  rw [hid, List.map_id, String.toList_ofList]

theorem parseSegments_toOption (spec : String) (path : List Char) :
    (parseSegments spec path).toOption = (readPieces (pieces '/' path)).map SpecParts.toSpec := by
  unfold parseSegments pieces
  dsimp only
  generalize (path.splitOn '/').filter (· ≠ []) = segments
  match segments with
  | [] | [_] => rfl
  | [owner, repo] =>
    simp only [List.map_cons, List.map_nil, readPieces, String.toList_ofList]
    rfl
  | owner :: repo :: first :: more =>
    have htree : String.ofList first = "tree" ↔ first = tree := by
      rw [← String.toList_inj, String.toList_ofList]
      rfl
    simp only [List.map_cons, readPieces, String.toList_ofList]
    split
    · next heq => cases heq
    · next reference subdir heq =>
      obtain ⟨hfirst, hmore⟩ := List.cons.inj heq
      obtain ⟨reference, subdir, rfl⟩ : ∃ reference subdir, more = reference :: subdir := by
        cases more with
        | nil => cases hmore
        | cons reference subdir => exact ⟨_, _, rfl⟩
      rw [List.map_cons, List.cons.injEq] at hmore
      obtain ⟨rfl, rfl⟩ := hmore
      rw [if_pos (htree.mp hfirst)]
      cases subdir with
      | nil => rfl
      | cons part parts =>
        rw [ofList_intercalate]
        rfl
    · next heq =>
      obtain ⟨hfirst, hmore⟩ := List.cons.inj heq
      obtain rfl := List.map_eq_nil_iff.mp hmore
      rw [if_pos (htree.mp hfirst)]
      rfl
    · next hnone htree' honly =>
      have hfirst : first ≠ tree := fun hfirst => by
        cases more with
        | nil => exact honly (by rw [htree.mpr hfirst]; rfl)
        | cons reference subdir => exact htree' _ _ (by rw [htree.mpr hfirst]; rfl)
      rw [if_neg hfirst, ← List.map_cons, ofList_intercalate]
      rfl

theorem parse_toOption (text : String) :
    (parseGithubSpec text).toOption = (readSpec (trim text.toList)).map SpecParts.toSpec := by
  unfold parseGithubSpec readSpec urlRest
  dsimp only
  cases hrest : (stripPrefix "https://".toList (trim text.toList)).or
      (stripPrefix "http://".toList (trim text.toList)) with
  | some rest =>
    dsimp only
    unfold readUrl
    dsimp only
    split_ifs
    · rfl
    · exact parseSegments_toOption text _
  | none =>
    dsimp only
    rw [apply_ite Except.toOption, apply_ite (Option.map SpecParts.toSpec)]
    refine ite_congr rfl (fun _ => rfl) fun _ => ?_
    unfold readShort
    generalize trim text.toList = chars
    cases splitOnce '@' chars with
    | none =>
      dsimp only
      cases splitOnce '/' ((splitOnce '/' chars).getD (chars, [])).2 with
      | none | some => dsimp only; split_ifs <;> rfl
    | some cut =>
      dsimp only
      cases splitOnce '/' ((splitOnce '/' cut.1).getD (cut.1, [])).2 with
      | none | some => dsimp only; split_ifs <;> rfl

/-! ## Reading the shorthand -/

/-- Parts that the shorthand keeps apart. -/
structure SpecParts.Readable (q : SpecParts) : Prop where
  owner_slash : '/' ∉ q.owner
  repo_slash : '/' ∉ q.repo
  owner_at : '@' ∉ q.owner
  repo_at : '@' ∉ q.repo
  subdir_at : ∀ subdir ∈ q.subdir, '@' ∉ subdir
  owner_ne : q.owner ≠ []
  repo_ne : q.repo ≠ []

/-- The path of a shorthand, which is what stands before the ref. -/
def SpecParts.path (q : SpecParts) : List Char :=
  q.owner ++ '/' :: (q.repo ++ q.subdir.elim [] ('/' :: ·))

def readPath (path : List Char) (reference : Option (List Char)) : Option SpecParts :=
  let (owner, rest) := (splitOnce '/' path).getD (path, [])
  let (repo, subdir) := match splitOnce '/' rest with
    | some (repo, subdir) => (repo, some subdir)
    | none => (rest, none)
  if owner = [] ∨ repo = [] then none else some ⟨owner, repo, subdir, reference⟩

theorem readPath_eq_some {path : List Char} {reference : Option (List Char)} {q : SpecParts} :
    readPath path reference = some q ↔ path = q.path ∧ q.reference = reference ∧
      '/' ∉ q.owner ∧ '/' ∉ q.repo ∧ q.owner ≠ [] ∧ q.repo ≠ [] := by
  obtain ⟨owner, repo, subdir, ref⟩ := q
  unfold readPath SpecParts.path
  constructor
  · intro h
    cases howner : splitOnce '/' path with
    | none =>
      rw [howner] at h
      simp [splitOnce] at h
    | some cut =>
      obtain ⟨first, rest⟩ := cut
      obtain ⟨hfirst, rfl⟩ := splitOnce_eq_some.mp howner
      rw [howner] at h
      dsimp only [Option.getD_some] at h
      cases hrepo : splitOnce '/' rest with
      | none =>
        rw [hrepo] at h
        dsimp only at h
        split_ifs at h with hempty
        cases h
        rw [not_or] at hempty
        exact ⟨by simp, rfl, hfirst, splitOnce_eq_none.mp hrepo, hempty⟩
      | some cut =>
        obtain ⟨second, third⟩ := cut
        obtain ⟨hsecond, rfl⟩ := splitOnce_eq_some.mp hrepo
        rw [hrepo] at h
        dsimp only at h
        split_ifs at h with hempty
        cases h
        rw [not_or] at hempty
        exact ⟨rfl, rfl, hfirst, hsecond, hempty⟩
  · rintro ⟨rfl, rfl, hfirst, hsecond, hempty⟩
    cases subdir with
    | none =>
      simp only [splitOnce_append_cons hfirst, Option.getD_some, Option.elim, List.append_nil,
        splitOnce_eq_none.mpr hsecond, if_neg (not_or.mpr hempty)]
    | some subdir =>
      simp only [splitOnce_append_cons hfirst, Option.getD_some, Option.elim,
        splitOnce_append_cons hsecond, if_neg (not_or.mpr hempty)]

theorem SpecParts.shorthand_eq (q : SpecParts) :
    q.shorthand = q.path ++ q.reference.elim [] ('@' :: ·) := by
  simp [shorthand, path]

theorem SpecParts.at_notMem_path {q : SpecParts} :
    '@' ∉ q.path ↔ '@' ∉ q.owner ∧ '@' ∉ q.repo ∧ ∀ subdir ∈ q.subdir, '@' ∉ subdir := by
  cases hsubdir : q.subdir <;> simp [path, hsubdir, not_or]

/-- The shorthand is cut without loss. -/
theorem readShort_eq_some {text : List Char} {q : SpecParts} :
    readShort text = some q ↔ text = q.shorthand ∧ q.Readable := by
  have hread : readShort text = (match splitOnce '@' text with
    | some (path, reference) => readPath path (some reference)
    | none => readPath text none) := by
    unfold readShort readPath
    cases splitOnce '@' text <;> rfl
  rw [hread, q.shorthand_eq]
  constructor
  · intro h
    cases hcut : splitOnce '@' text with
    | none =>
      rw [hcut] at h
      obtain ⟨rfl, hreference, howner, hrepo, hne⟩ := readPath_eq_some.mp h
      obtain ⟨hat₁, hat₂, hat₃⟩ := SpecParts.at_notMem_path.mp (splitOnce_eq_none.mp hcut)
      exact ⟨by simp [hreference], ⟨howner, hrepo, hat₁, hat₂, hat₃, hne.1, hne.2⟩⟩
    | some cut =>
      obtain ⟨path, reference⟩ := cut
      rw [hcut] at h
      obtain ⟨rfl, hreference, howner, hrepo, hne⟩ := readPath_eq_some.mp h
      obtain ⟨hat, rfl⟩ := splitOnce_eq_some.mp hcut
      obtain ⟨hat₁, hat₂, hat₃⟩ := SpecParts.at_notMem_path.mp hat
      exact ⟨by simp [hreference], ⟨howner, hrepo, hat₁, hat₂, hat₃, hne.1, hne.2⟩⟩
  · rintro ⟨rfl, h⟩
    have hat : '@' ∉ q.path := SpecParts.at_notMem_path.mpr ⟨h.owner_at, h.repo_at, h.subdir_at⟩
    cases hreference : q.reference with
    | none =>
      rw [Option.elim, List.append_nil, splitOnce_eq_none.mpr hat]
      exact readPath_eq_some.mpr ⟨rfl, hreference, h.owner_slash, h.repo_slash, h.owner_ne, h.repo_ne⟩
    | some reference =>
      rw [Option.elim, splitOnce_append_cons hat]
      exact readPath_eq_some.mpr ⟨rfl, hreference, h.owner_slash, h.repo_slash, h.owner_ne, h.repo_ne⟩

/-! ## Trimming -/

theorem isWhitespace_slash : Lib.isWhitespace '/' = false := by decide

theorem isWhitespace_at : Lib.isWhitespace '@' = false := by decide

namespace SpecParts
variable {p : SpecParts} {layout : UrlLayout}

/-- Trimming a shorthand touches the owner's start and the end of the last part. -/
def shortTrim (p : SpecParts) : SpecParts :=
  match p.reference, p.subdir with
  | some reference, subdir => ⟨trimStart p.owner, p.repo, subdir, some (trimEnd reference)⟩
  | none, some subdir => ⟨trimStart p.owner, p.repo, some (trimEnd subdir), none⟩
  | none, none => ⟨trimStart p.owner, trimEnd p.repo, none, none⟩

/-- Trimming a URL touches the end of its last segment, unless slashes stand there. -/
def urlTrim (p : SpecParts) (layout : UrlLayout) : SpecParts :=
  if layout.trailing ≠ 0 then p
  else match p.subdir, p.reference with
    | some subdir, reference => ⟨p.owner, p.repo, some (trimEnd subdir), reference⟩
    | none, some reference => ⟨p.owner, p.repo, none, some (trimEnd reference)⟩
    | none, none => if layout.git then p else ⟨p.owner, trimEnd p.repo, none, none⟩

theorem trim_shorthand (p : SpecParts) : trim p.shorthand = p.shortTrim.shorthand := by
  obtain ⟨owner, repo, subdir, reference⟩ := p
  rw [trim_eq, shorthand, trimStart_append_cons isWhitespace_slash]
  cases reference with
  | some reference =>
    have h := trimEnd_append_cons isWhitespace_at
      (trimStart owner ++ '/' :: (repo ++ subdir.elim [] ('/' :: ·))) reference
    simpa [shorthand, shortTrim] using h
  | none =>
    cases subdir with
    | some subdir =>
      have h := trimEnd_append_cons isWhitespace_slash (trimStart owner ++ '/' :: repo) subdir
      simpa [shorthand, shortTrim] using h
    | none =>
      have h := trimEnd_append_cons isWhitespace_slash (trimStart owner) repo
      simpa [shorthand, shortTrim] using h

theorem trimEnd_gitSuffix (repo : List Char) : trimEnd (repo ++ gitSuffix) = repo ++ gitSuffix := by
  have h := trimEnd_append_cons (by decide : Lib.isWhitespace '.' = false) repo "git".toList
  exact h

theorem segments_urlTrim (h : layout.trailing = 0) : ∃ init last,
    p.segments layout.git = init ++ [last] ∧
      (p.urlTrim layout).segments layout.git = init ++ [trimEnd last] := by
  obtain ⟨owner, repo, subdir, reference⟩ := p
  rw [urlTrim, if_neg (not_not.mpr h)]
  cases subdir with
  | some subdir =>
    obtain ⟨init, last, hsplit, htrim⟩ := splitOn_trimEnd isWhitespace_slash subdir
    refine ⟨owner :: (repo ++ if layout.git then gitSuffix else []) ::
      (reference.elim [] (fun reference => [tree, reference]) ++ init), last, ?_, ?_⟩
    · simp [segments, hsplit]
    · simp [segments, htrim]
  | none =>
    cases reference with
    | some reference =>
      exact ⟨[owner, repo ++ if layout.git then gitSuffix else [], tree], reference, rfl, rfl⟩
    | none =>
      refine ⟨[owner], repo ++ if layout.git then gitSuffix else [], rfl, ?_⟩
      cases layout.git with
      | true => simp [segments, trimEnd_gitSuffix]
      | false => simp [segments]

theorem trimStart_urlHead (text : List Char) : trimStart (urlHead ++ text) = urlHead ++ text := by
  have h : urlHead = 'h' :: "ttps://github.com".toList := by decide
  rw [h, List.cons_append, trimStart, List.dropWhile_cons_of_neg (by decide)]

theorem trim_url (p : SpecParts) (layout : UrlLayout) :
    trim (p.url layout) = (p.urlTrim layout).url layout := by
  rw [trim_eq, url, url, trimStart_urlHead]
  by_cases h : layout.trailing = 0
  · obtain ⟨init, last, hsegments, htrim⟩ := segments_urlTrim (p := p) h
    obtain ⟨front, hfront⟩ := exists_spaced_concat '/' layout.gap init
    have hend := trimEnd_append_cons isWhitespace_slash (urlHead ++ front) last
    rw [h, hsegments, htrim, hfront, hfront, List.replicate_zero, List.append_nil, List.append_nil,
      ← List.append_assoc, hend, List.append_assoc]
  · obtain ⟨n, hn⟩ := Nat.exists_eq_succ_of_ne_zero h
    have hend := trimEnd_append_cons isWhitespace_slash
      (urlHead ++ (spaced '/' layout.gap (p.segments layout.git) ++ List.replicate n '/')) []
    have hnil : trimEnd [] = [] := rfl
    rw [hnil, ← List.append_assoc] at hend
    rw [urlTrim, if_pos h, hn, List.replicate_succ', ← List.append_assoc, ← List.append_assoc]
    exact hend

end SpecParts

/-! ## Reading the URL -/

theorem readSpec_url {q : SpecParts} {layout : UrlLayout}
    (h : ∀ segment ∈ q.segments layout.git, '/' ∉ segment) :
    readSpec (q.url layout) = readPieces ((q.segments layout.git).filter (· ≠ [])) := by
  have hrest : urlRest (q.url layout) = some (githubHost ++
      (spaced '/' layout.gap (q.segments layout.git) ++ List.replicate layout.trailing '/')) := by
    rw [urlRest, SpecParts.url, urlHead_eq, List.append_assoc, stripPrefix_append, Option.some_or]
  obtain ⟨tail, htail⟩ : ∃ tail, spaced '/' layout.gap (q.segments layout.git) ++
      List.replicate layout.trailing '/' = '/' :: tail := ⟨_, rfl⟩
  have hpieces := pieces_spaced h layout.gap layout.trailing
  rw [htail, pieces_cons_self] at hpieces
  have hhost : ¬ (githubHost.takeWhile (· ≠ ':') ≠ "github.com".toList ∧
      githubHost.takeWhile (· ≠ ':') ≠ "www.github.com".toList) := by decide
  rw [readSpec, hrest, htail]
  dsimp only
  rw [readUrl, splitOnce_append_cons (by decide), ← hpieces]
  exact if_neg hhost

theorem stripGit_append (repo : List Char) : stripGit (repo ++ gitSuffix) = repo := by
  simp [stripGit, stripSuffix]

/-- A name is stripped to itself, or had the suffix. -/
theorem stripGit_cases (name : List Char) : stripGit name = name ∨ name = stripGit name ++ gitSuffix := by
  by_cases hsuffix : gitSuffix <:+ name
  · obtain ⟨repo, rfl⟩ := hsuffix
    exact .inr (by rw [stripGit_append])
  · exact .inl (by simp [stripGit, stripSuffix, hsuffix])

theorem at_mem_stripGit {name : List Char} (h : '@' ∈ name) : '@' ∈ stripGit name := by
  have hgit : '@' ∉ gitSuffix := by decide
  rcases stripGit_cases name with hsame | hsuffix
  · rwa [hsame]
  · rw [hsuffix] at h
    exact (List.mem_append.mp h).resolve_right hgit

namespace SpecParts

/-- What the reader of a URL takes for the start of a ref. -/
def StartsTree (q : SpecParts) : Prop :=
  q.reference = none ∧ ∃ subdir ∈ q.subdir, (subdir.splitOn '/').head? = some tree

theorem readPieces_segments {q : SpecParts} (git : Bool) (h : ¬ q.StartsTree) :
    readPieces (q.segments git) = some
      ⟨q.owner, stripGit (q.repo ++ if git then gitSuffix else []), q.subdir, q.reference⟩ := by
  obtain ⟨owner, repo, subdir, reference⟩ := q
  cases reference with
  | some reference =>
    cases subdir with
    | none => rfl
    | some subdir =>
      have hne := List.splitOn_ne_nil '/' subdir
      simp [segments, readPieces, hne, List.intercalate_splitOn]
  | none =>
    cases subdir with
    | none => rfl
    | some subdir =>
      obtain ⟨first, more, hsplit⟩ := List.exists_cons_of_ne_nil (List.splitOn_ne_nil '/' subdir)
      have hfirst : first ≠ tree := by
        rintro rfl
        exact h ⟨rfl, subdir, rfl, by rw [hsplit]; rfl⟩
      have hsubdir : ['/'].intercalate (subdir.splitOn '/') = subdir := List.intercalate_splitOn '/'
      rw [hsplit] at hsubdir
      simp [segments, readPieces, hsplit, hfirst, hsubdir]

/-- The pieces that are read are the segments of the parts, but for a bare `tree`. -/
theorem exists_of_readPieces {pieces : List (List Char)} {q : SpecParts}
    (hslash : ∀ piece ∈ pieces, '/' ∉ piece) (h : readPieces pieces = some q) :
    ∃ name, stripGit name = q.repo ∧
      ((pieces = segments ⟨q.owner, name, q.subdir, q.reference⟩ false ∧ ¬ q.StartsTree) ∨
        (pieces = [q.owner, name, tree] ∧ q.subdir = none ∧ q.reference = none)) := by
  have hjoin (parts : List (List Char)) (hparts : ∀ part ∈ parts, '/' ∉ part) (hne : parts ≠ []) :
      (['/'].intercalate parts).splitOn '/' = parts := List.splitOn_intercalate '/' hparts hne
  match pieces, h with
  | owner :: repo :: rest, h =>
    refine ⟨repo, ?_⟩
    unfold readPieces at h
    dsimp only at h
    split at h
    · cases h
      exact ⟨rfl, .inl ⟨by simp [segments], by simp [StartsTree]⟩⟩
    · next first more =>
      split_ifs at h with hfirst
      · subst hfirst
        cases more with
        | nil => cases h; exact ⟨rfl, .inr ⟨rfl, rfl, rfl⟩⟩
        | cons reference subdir =>
          cases h
          refine ⟨rfl, .inl ⟨?_, by simp [StartsTree]⟩⟩
          cases subdir with
          | nil => simp [segments]
          | cons part parts =>
            have hparts := hjoin (part :: parts) (fun part hpart => hslash part (by grind)) nofun
            simp [segments, hparts]
      · cases h
        have hparts := hjoin (first :: more) (fun part hpart => hslash part (by grind)) nofun
        refine ⟨rfl, .inl ⟨by simp [segments, hparts], ?_⟩⟩
        rintro ⟨-, subdir, hsubdir, hhead⟩
        obtain rfl := Option.some.inj hsubdir
        rw [hparts] at hhead
        exact hfirst (Option.some.inj hhead)

/-- The number of pieces of the subdirectory. -/
def depth (q : SpecParts) : Nat := q.subdir.elim 0 fun subdir => subdir.count '/' + 1

/-- The number of segments of the parts. -/
def size (q : SpecParts) : Nat := 2 + q.reference.elim 0 (fun _ => 2) + q.depth

theorem length_segments (q : SpecParts) (git : Bool) : (q.segments git).length = q.size := by
  obtain ⟨owner, repo, subdir, reference⟩ := q
  cases reference <;> cases subdir <;> simp [segments, size, depth, length_splitOn] <;> omega

theorem length_of_readPieces {pieces : List (List Char)} {q : SpecParts}
    (hslash : ∀ piece ∈ pieces, '/' ∉ piece) (h : readPieces pieces = some q) :
    q.size ≤ pieces.length ∧ pieces.length ≤ q.size + 1 := by
  obtain ⟨name, -, ⟨rfl, -⟩ | ⟨rfl, hsubdir, hreference⟩⟩ := exists_of_readPieces hslash h
  · rw [length_segments]
    exact ⟨le_rfl, Nat.le_succ _⟩
  · simp [size, depth, hsubdir, hreference]

theorem count_shorthand {q : SpecParts} (howner : '/' ∉ q.owner) (hrepo : '/' ∉ q.repo)
    (hreference : ∀ reference ∈ q.reference, '/' ∉ reference) :
    q.shorthand.count '/' = 1 + q.depth := by
  obtain ⟨owner, repo, subdir, reference⟩ := q
  have hat : ('@' == '/') = false := by decide
  cases reference <;> cases subdir <;>
    simp_all [shorthand, depth, List.count_eq_zero_of_not_mem] <;> omega

variable {p : SpecParts} {layout : UrlLayout}

theorem depth_shortTrim : p.shortTrim.depth = p.depth := by
  obtain ⟨owner, repo, subdir, reference⟩ := p
  cases reference <;> cases subdir <;> simp [shortTrim, depth, count_trimEnd isWhitespace_slash]

variable (layout) in
theorem size_urlTrim : (p.urlTrim layout).size = p.size := by
  obtain ⟨owner, repo, subdir, reference⟩ := p
  unfold urlTrim
  cases reference <;> cases subdir <;> simp [size, depth] <;> split_ifs <;>
    simp [count_trimEnd isWhitespace_slash]

/-! ### What trimming keeps -/

@[simp] theorem shortTrim_owner : p.shortTrim.owner = trimStart p.owner := by
  obtain ⟨owner, repo, subdir, reference⟩ := p
  cases reference <;> cases subdir <;> rfl

@[simp] theorem urlTrim_owner : (p.urlTrim layout).owner = p.owner := by
  obtain ⟨owner, repo, subdir, reference⟩ := p
  unfold urlTrim
  cases reference <;> cases subdir <;> dsimp only <;> split_ifs <;> rfl

theorem shortTrim_repo : p.shortTrim.repo =
    if p.subdir = none ∧ p.reference = none then trimEnd p.repo else p.repo := by
  obtain ⟨owner, repo, subdir, reference⟩ := p
  cases reference <;> cases subdir <;> simp [shortTrim]

theorem urlTrim_repo : (p.urlTrim layout).repo =
    if p.subdir = none ∧ p.reference = none ∧ layout.trailing = 0 ∧ layout.git = false then trimEnd p.repo
    else p.repo := by
  obtain ⟨owner, repo, subdir, reference⟩ := p
  unfold urlTrim
  cases reference <;> cases subdir <;> dsimp only <;> split_ifs <;> simp_all

section Kept
variable {c : Char} (hc : Lib.isWhitespace c = false)
include hc

theorem mem_shortTrim_repo : c ∈ p.shortTrim.repo ↔ c ∈ p.repo := by
  rw [shortTrim_repo]
  split_ifs
  · exact mem_trimEnd hc
  · rfl

theorem mem_urlTrim_repo : c ∈ (p.urlTrim layout).repo ↔ c ∈ p.repo := by
  rw [urlTrim_repo]
  split_ifs
  · exact mem_trimEnd hc
  · rfl

theorem mem_shortTrim_subdir :
    (∃ subdir ∈ p.shortTrim.subdir, c ∈ subdir) ↔ ∃ subdir ∈ p.subdir, c ∈ subdir := by
  obtain ⟨owner, repo, subdir, reference⟩ := p
  cases reference <;> cases subdir <;> simp [shortTrim, mem_trimEnd hc]

variable (layout) in
theorem mem_urlTrim_subdir :
    (∃ subdir ∈ (p.urlTrim layout).subdir, c ∈ subdir) ↔ ∃ subdir ∈ p.subdir, c ∈ subdir := by
  obtain ⟨owner, repo, subdir, reference⟩ := p
  unfold urlTrim
  cases reference <;> cases subdir <;> dsimp only <;> split_ifs <;> simp [mem_trimEnd hc]

theorem mem_shortTrim_reference :
    (∃ reference ∈ p.shortTrim.reference, c ∈ reference) ↔ ∃ reference ∈ p.reference, c ∈ reference := by
  obtain ⟨owner, repo, subdir, reference⟩ := p
  cases reference <;> cases subdir <;> simp [shortTrim, mem_trimEnd hc]

theorem mem_urlTrim_reference :
    (∃ reference ∈ (p.urlTrim layout).reference, c ∈ reference) ↔
      ∃ reference ∈ p.reference, c ∈ reference := by
  obtain ⟨owner, repo, subdir, reference⟩ := p
  unfold urlTrim
  cases reference <;> cases subdir <;> dsimp only <;> split_ifs <;> simp [mem_trimEnd hc]

end Kept

theorem isSome_shortTrim_reference : p.shortTrim.reference.isSome = p.reference.isSome := by
  obtain ⟨owner, repo, subdir, reference⟩ := p
  cases reference <;> cases subdir <;> rfl

variable (layout) in
theorem isSome_urlTrim_reference : (p.urlTrim layout).reference.isSome = p.reference.isSome := by
  obtain ⟨owner, repo, subdir, reference⟩ := p
  unfold urlTrim
  cases reference <;> cases subdir <;> dsimp only <;> split_ifs <;> rfl

theorem Slashless.shortTrim (h : p.Slashless) : p.shortTrim.Slashless where
  owner := fun hmem => h.owner ((List.dropWhile_sublist _).mem (shortTrim_owner ▸ hmem))
  repo := fun hmem => h.repo ((mem_shortTrim_repo isWhitespace_slash).mp hmem)
  reference reference hreference hmem := by
    obtain ⟨reference, hreference, hmem⟩ :=
      (mem_shortTrim_reference isWhitespace_slash).mp ⟨reference, hreference, hmem⟩
    exact h.reference reference hreference hmem

theorem Slashless.urlTrim (h : p.Slashless) : (p.urlTrim layout).Slashless where
  owner := by rw [urlTrim_owner]; exact h.owner
  repo := fun hmem => h.repo ((mem_urlTrim_repo isWhitespace_slash).mp hmem)
  reference reference hreference hmem := by
    obtain ⟨reference, hreference, hmem⟩ :=
      (mem_urlTrim_reference isWhitespace_slash).mp ⟨reference, hreference, hmem⟩
    exact h.reference reference hreference hmem

theorem Slashless.segments (h : p.Slashless) (git : Bool) :
    ∀ segment ∈ p.segments git, '/' ∉ segment := by
  intro segment hsegment
  have hgit : '/' ∉ gitSuffix := by decide
  have htree : '/' ∉ tree := by decide
  simp only [SpecParts.segments, List.mem_cons, List.mem_append] at hsegment
  rcases hsegment with rfl | rfl | hsegment | hsegment
  · exact h.owner
  · cases git <;> simp [h.repo, hgit]
  · cases hreference : p.reference with
    | none => simp [hreference] at hsegment
    | some reference =>
      have := h.reference reference hreference
      simp only [hreference, Option.elim, List.mem_cons, List.not_mem_nil, or_false] at hsegment
      rcases hsegment with rfl | rfl <;> assumption
  · cases hsubdir : p.subdir with
    | none => simp [hsubdir] at hsegment
    | some subdir =>
      rw [hsubdir] at hsegment
      exact notMem_of_mem_splitOn hsegment

end SpecParts

end Tethys.Sync
