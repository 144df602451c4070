import Tethys.Sync.GithubSpecs

/-!
# Specs that are read alike

Which parts are read as one spec from the shorthand and from the URL. Clean parts come back from
either spelling; parts that are read alike are clean, as the shorthand is cut without loss, and the
number of slashes leaves the URL no empty segment.
-/

namespace Tethys.Sync

open Lib

/-! ## Parts that both spellings keep -/

/-- Parts that are read from either spelling as they are. -/
structure SpecParts.Clean (q : SpecParts) (git : Bool) : Prop extends q.Readable where
  reference_ne : q.reference ≠ some []
  subdir_ne : ∀ subdir ∈ q.subdir, [] ∉ subdir.splitOn '/'
  repo_git : git = false → ¬ gitSuffix <:+ q.repo
  subdir_tree : ¬ q.StartsTree

theorem urlRest_eq_some {text rest : List Char} (h : urlRest text = some rest) :
    ∃ scheme ∈ ["https:".toList, "http:".toList], text = scheme ++ '/' :: '/' :: rest := by
  have hhttps : "https://".toList = "https:".toList ++ ['/', '/'] := by decide
  have hhttp : "http://".toList = "http:".toList ++ ['/', '/'] := by decide
  unfold urlRest at h
  rcases Option.or_eq_some_iff.mp h with h | ⟨-, h⟩
  · exact ⟨_, List.mem_cons_self, by rw [stripPrefix_eq_some.mp h, hhttps, List.append_assoc]; rfl⟩
  · exact ⟨_, List.mem_cons_of_mem _ List.mem_cons_self, by
      rw [stripPrefix_eq_some.mp h, hhttp, List.append_assoc]; rfl⟩

/-- Text without two slashes in a row is read as a shorthand. -/
theorem readSpec_of_splitOn {text : List Char} (h : [] ∉ text.splitOn '/') :
    readSpec text = readShort text := by
  have hurl : urlRest text = none := by
    by_contra hsome
    obtain ⟨rest, hrest⟩ := Option.ne_none_iff_exists'.mp hsome
    obtain ⟨scheme, -, rfl⟩ := urlRest_eq_some hrest
    exact h (nil_mem_splitOn scheme rest)
  have hscheme : ¬ text.tails.any ("://".toList.isPrefixOf ·) = true := by
    intro hany
    obtain ⟨tail, htail, hprefix⟩ := List.any_eq_true.mp hany
    obtain ⟨front, rfl⟩ := (List.mem_tails _ _).mp htail
    obtain ⟨rest, rfl⟩ := List.isPrefixOf_iff_prefix.mp hprefix
    have hsplit : [] ∈ (front ++ [':'] ++ '/' :: '/' :: rest).splitOn '/' := nil_mem_splitOn _ rest
    rw [List.append_assoc] at hsplit
    exact h hsplit
  rw [readSpec, hurl]
  exact if_neg hscheme

namespace SpecParts

theorem Clean.splitOn_shorthand {q : SpecParts} {git : Bool} (hq : q.Slashless) (h : q.Clean git) :
    [] ∉ q.shorthand.splitOn '/' := by
  have hrest : '/' ∉ q.reference.elim [] ('@' :: ·) := by
    cases hreference : q.reference with
    | none => exact List.not_mem_nil
    | some reference => simpa using hq.reference reference hreference
  rw [shorthand, List.splitOn_append_cons_self_of_not_mem hq.owner]
  refine List.not_mem_cons_of_ne_of_not_mem h.owner_ne.symm ?_
  cases hsubdir : q.subdir with
  | none =>
    have hrepo : '/' ∉ q.repo ++ q.reference.elim [] ('@' :: ·) :=
      fun hmem => (List.mem_append.mp hmem).elim hq.repo hrest
    rw [Option.elim, List.nil_append, List.splitOn_eq_singleton hrepo, List.mem_singleton]
    exact fun hnil => h.repo_ne (List.append_eq_nil_iff.mp hnil.symm).1
  | some subdir =>
    obtain ⟨init, last, hlast, happend⟩ := splitOn_append_of_notMem hrest subdir
    have hpieces := h.subdir_ne subdir hsubdir
    rw [hlast, List.mem_append, not_or, List.mem_singleton] at hpieces
    rw [Option.elim, List.cons_append, List.splitOn_append_cons_self_of_not_mem hq.repo, happend]
    refine List.not_mem_cons_of_ne_of_not_mem h.repo_ne.symm ?_
    rw [List.mem_append, not_or, List.mem_singleton]
    exact ⟨hpieces.1, fun hnil => hpieces.2 (List.append_eq_nil_iff.mp hnil.symm).1.symm⟩

theorem Clean.readSpec_shorthand {q : SpecParts} {git : Bool} (hq : q.Slashless) (h : q.Clean git) :
    readSpec q.shorthand = some q := by
  rw [readSpec_of_splitOn (h.splitOn_shorthand hq)]
  exact readShort_eq_some.mpr ⟨rfl, h.toReadable⟩

theorem Clean.segments_ne {q : SpecParts} {git : Bool} (h : q.Clean git) :
    ∀ segment ∈ q.segments git, segment ≠ [] := by
  intro segment hsegment
  simp only [segments, List.mem_cons, List.mem_append] at hsegment
  rcases hsegment with rfl | rfl | hsegment | hsegment
  · exact h.owner_ne
  · exact fun hnil => h.repo_ne (List.append_eq_nil_iff.mp hnil).1
  · cases hreference : q.reference with
    | none => simp [hreference] at hsegment
    | some reference =>
      have hne := h.reference_ne
      rw [hreference] at hsegment hne
      simp only [Option.elim, List.mem_cons, List.not_mem_nil, or_false] at hsegment
      rcases hsegment with rfl | rfl
      · decide
      · exact fun hnil => hne (congrArg some hnil)
  · cases hsubdir : q.subdir with
    | none => simp [hsubdir] at hsegment
    | some subdir =>
      rw [hsubdir] at hsegment
      exact fun hnil => h.subdir_ne subdir hsubdir (hnil ▸ hsegment)

theorem Clean.readSpec_url {q : SpecParts} {layout : UrlLayout} (hq : q.Slashless)
    (h : q.Clean layout.git) : readSpec (q.url layout) = some q := by
  have hfilter : (q.segments layout.git).filter (· ≠ []) = q.segments layout.git :=
    List.filter_eq_self.mpr fun segment hsegment => decide_eq_true (h.segments_ne segment hsegment)
  have hrepo : stripGit (q.repo ++ if layout.git then gitSuffix else []) = q.repo := by
    cases hgit : layout.git with
    | true => exact stripGit_append q.repo
    | false => simp [stripGit, stripSuffix, h.repo_git hgit]
  rw [Sync.readSpec_url (hq.segments _), hfilter, readPieces_segments _ h.subdir_tree, hrepo]

end SpecParts

/-! ## The exact condition -/

namespace SpecParts
variable {p q : SpecParts} {layout : UrlLayout}

/-- The pieces of the URL that are read. -/
def urlPieces (p : SpecParts) (layout : UrlLayout) : List (List Char) :=
  ((p.urlTrim layout).segments layout.git).filter (· ≠ [])

theorem readSpec_trim_url (hp : p.Slashless) :
    readSpec (trim (p.url layout)) = readPieces (p.urlPieces layout) := by
  rw [trim_url, Sync.readSpec_url (hp.urlTrim.segments _)]
  rfl

variable (layout) in
theorem slash_notMem_urlPieces (hp : p.Slashless) : ∀ piece ∈ p.urlPieces layout, '/' ∉ piece :=
  fun piece hpiece => hp.urlTrim.segments _ piece (List.mem_of_mem_filter hpiece)

/-- The cut at the owner. -/
theorem owner_eq_of_shorthand {owner rest : List Char} (hp : '/' ∉ p.owner) (howner : '/' ∉ owner)
    (h : p.shorthand = owner ++ '/' :: rest) :
    p.owner = owner ∧
      p.repo ++ (p.subdir.elim [] ('/' :: ·) ++ p.reference.elim [] ('@' :: ·)) = rest := by
  have hcut := congrArg (splitOnce '/') h
  rw [shorthand, splitOnce_append_cons hp, splitOnce_append_cons howner] at hcut
  exact Prod.mk.inj (Option.some.inj hcut)

/-- The owner, `tree` before a ref and the pieces of the subdirectory are never left out. -/
theorem length_filter_segments {subdir : List Char} (git : Bool) (howner : q.owner ≠ [])
    (hsubdir : q.subdir = some subdir) :
    1 + q.reference.elim 0 (fun _ => 1) + (pieces '/' subdir).length ≤
      ((q.segments git).filter (· ≠ [])).length := by
  have htree : tree ≠ [] := by decide
  have hpieces : (subdir.splitOn '/').filter (· ≠ []) = pieces '/' subdir := rfl
  have hrefs : q.reference.elim 0 (fun _ => 1) ≤
      ((q.reference.elim [] fun reference => [tree, reference]).filter (· ≠ [])).length := by
    cases q.reference with
    | none => exact Nat.zero_le _
    | some reference =>
      rw [Option.elim, Option.elim, List.filter_cons_of_pos (by simpa using htree)]
      exact Nat.succ_le_succ (Nat.zero_le _)
  rw [segments, List.filter_cons_of_pos (by simpa using howner), List.filter_cons, List.filter_append,
    hsubdir, Option.elim, hpieces]
  split_ifs <;> simp only [List.length_cons, List.length_append] <;> omega

variable (layout) in
theorem length_urlPieces {subdir : List Char} (howner : p.owner ≠ []) (hsubdir : p.subdir = some subdir) :
    1 + p.reference.elim 0 (fun _ => 1) + (pieces '/' (trimEnd subdir)).length ≤
      (p.urlPieces layout).length := by
  obtain ⟨owner, repo, _, reference⟩ := p
  obtain rfl := hsubdir
  have htrim := length_pieces_trimEnd_le isWhitespace_slash subdir
  by_cases h : layout.trailing = 0
  · have hlength := length_filter_segments (q := ⟨owner, repo, some (trimEnd subdir), reference⟩)
      layout.git howner rfl
    simpa [urlPieces, urlTrim, h] using hlength
  · have hlength := length_filter_segments (q := ⟨owner, repo, some subdir, reference⟩)
      layout.git howner rfl
    have hpieces : urlPieces ⟨owner, repo, some subdir, reference⟩ layout =
        (segments ⟨owner, repo, some subdir, reference⟩ layout.git).filter (· ≠ []) := by
      rw [urlPieces, urlTrim, if_pos h]
    dsimp only at hlength ⊢
    rw [hpieces]
    omega

variable (layout) in
/-- A shorthand that is a URL has a subdirectory that starts with the host, so the URL of its parts
has two pieces more than it. -/
theorem length_of_url {rest path host : List Char} (hp : p.Slashless)
    (hurl : urlRest p.shortTrim.shorthand = some rest) (hrest : rest = host ++ '/' :: path) (hhost : '/' ∉ host) (hne : host ≠ []) :
    (pieces '/' path).length + 2 ≤ (p.urlPieces layout).length := by
  obtain ⟨scheme, hscheme, htext⟩ := urlRest_eq_some hurl
  have hslash : ∀ scheme ∈ ["https:".toList, "http:".toList], '/' ∉ scheme := by decide
  have hschemes : ∀ scheme ∈ ["https:".toList, "http:".toList], scheme ≠ [] := by decide
  obtain ⟨howner, htail⟩ := owner_eq_of_shorthand hp.shortTrim.owner (hslash scheme hscheme) htext
  have hpieces : (pieces '/' rest).length = 1 + (pieces '/' path).length := by
    rw [hrest, pieces_append_cons, pieces_of_notMem hhost, List.filter_cons_of_pos (by simpa using hne)]
    simp
    omega
  have hp_owner : p.owner ≠ [] := by
    intro hnil
    rw [shortTrim_owner, hnil] at howner
    exact hschemes scheme hscheme howner.symm
  have hrepo : p.shortTrim.repo = [] := by
    cases hrepo : p.shortTrim.repo with
    | nil => rfl
    | cons c repo =>
      rw [hrepo] at htail
      obtain rfl := (List.cons.inj htail).1
      exact absurd (hrepo ▸ List.mem_cons_self) hp.shortTrim.repo
  rw [hrepo, List.nil_append] at htail
  obtain ⟨owner, repo, _ | subdir, _ | reference⟩ := p
  · cases htail
  · cases (List.cons.inj htail).1
  · have hlength := length_urlPieces layout hp_owner rfl
    obtain rfl : trimEnd subdir = rest := by simpa [shortTrim] using htail
    simp only [Option.elim] at hlength
    omega
  · have hlength := length_urlPieces layout hp_owner rfl
    have hreference : '/' ∉ '@' :: trimEnd reference := by
      simpa using hp.shortTrim.reference _ rfl
    obtain rfl : subdir ++ '@' :: trimEnd reference = rest := by simpa [shortTrim] using htail
    have hle := length_pieces_append_le isWhitespace_slash (a := subdir) hreference
    simp only [Option.elim] at hlength
    omega

theorem readSpec_cases {text : List Char} (h : readSpec text = some q) :
    (∃ rest, urlRest text = some rest ∧ readUrl rest = some q) ∨ readShort text = some q := by
  unfold readSpec at h
  split at h
  · next rest hrest => exact .inl ⟨rest, hrest, h⟩
  · split_ifs at h
    exact .inr h

theorem readUrl_eq_some {rest : List Char} (h : readUrl rest = some q) :
    ∃ host path, rest = host ++ '/' :: path ∧ '/' ∉ host ∧ host ≠ [] ∧
      readPieces (pieces '/' path) = some q := by
  unfold readUrl at h
  cases hcut : splitOnce '/' rest with
  | none =>
    rw [hcut] at h
    simp [readPieces] at h
  | some cut =>
    obtain ⟨host, path⟩ := cut
    obtain ⟨hhost, rfl⟩ := splitOnce_eq_some.mp hcut
    rw [hcut] at h
    dsimp only [Option.getD_some] at h
    split_ifs at h with hgithub
    refine ⟨host, path, rfl, hhost, ?_, h⟩
    rintro rfl
    exact hgithub (by decide)

variable (layout) in
/-- What is read from the shorthand is longer in the URL of the parts, or was cut at `@` and slashes. -/
theorem readSpec_trim_shorthand (hp : p.Slashless) (h : readSpec (trim p.shorthand) = some q) :
    q.size + 2 ≤ (p.urlPieces layout).length ∨ p.shortTrim.shorthand = q.shorthand ∧ q.Readable := by
  rw [trim_shorthand] at h
  rcases readSpec_cases h with ⟨rest, hrest, hread⟩ | hread
  · obtain ⟨host, path, hcut, hhost, hne, hread⟩ := readUrl_eq_some hread
    have hslash : ∀ piece ∈ pieces '/' path, '/' ∉ piece :=
      fun piece hpiece => notMem_of_mem_splitOn (List.mem_of_mem_filter hpiece)
    have hsize := (length_of_readPieces hslash hread).1
    have hlength := length_of_url layout hp hrest hcut hhost hne
    exact .inl (by omega)
  · exact .inr (readShort_eq_some.mp hread)

theorem segments_inj {owner name : List Char} {subdir reference : Option (List Char)} {git : Bool}
    (h : q.segments git = segments ⟨owner, name, subdir, reference⟩ false)
    (hreference : q.reference.isSome = reference.isSome) :
    q.owner = owner ∧ (q.repo ++ if git then gitSuffix else []) = name ∧ q.subdir = subdir ∧
      q.reference = reference := by
  obtain ⟨qowner, qrepo, qsubdir, qreference⟩ := q
  simp only [segments, List.cons.injEq, Bool.false_eq_true, if_false, List.append_nil] at h
  obtain ⟨howner, hrepo, hrest⟩ := h
  have hsubdir (hsplit : qsubdir.elim [] (·.splitOn '/') = subdir.elim [] (·.splitOn '/')) :
      qsubdir = subdir := by
    cases qsubdir <;> cases subdir
    · rfl
    · exact absurd hsplit.symm (List.splitOn_ne_nil _ _)
    · exact absurd hsplit (List.splitOn_ne_nil _ _)
    · next a b =>
      have hjoin := congrArg (['/'].intercalate) hsplit
      simp only [Option.elim, List.intercalate_splitOn] at hjoin
      rw [hjoin]
  refine ⟨howner, hrepo, ?_⟩
  cases qreference <;> cases reference
  · exact ⟨hsubdir hrest, rfl⟩
  · cases hreference
  · cases hreference
  · simp only [Option.elim, List.cons_append, List.cons.injEq, List.nil_append, true_and] at hrest
    exact ⟨hsubdir hrest.2, by rw [hrest.1]⟩

/-- Parts that are written alike are the same. -/
theorem shorthand_inj (hp : p.Slashless) (hq : q.Slashless) (hpat : '@' ∉ p.path) (hqat : '@' ∉ q.path)
    (h : p.shorthand = q.shorthand) : p = q := by
  have hcut := congrArg (splitOnce '@') h
  rw [p.shorthand_eq, q.shorthand_eq] at h hcut
  obtain ⟨hpath, hreference⟩ : p.path = q.path ∧ p.reference = q.reference := by
    cases hpref : p.reference <;> cases hqref : q.reference <;>
      simp only [hpref, hqref, Option.elim, List.append_nil, splitOnce_eq_none.mpr hpat,
        splitOnce_eq_none.mpr hqat, splitOnce_append_cons hpat, splitOnce_append_cons hqat] at h hcut <;>
      grind
  have howner := congrArg (splitOnce '/') hpath
  rw [path, path, splitOnce_append_cons hp.owner, splitOnce_append_cons hq.owner, Option.some.injEq,
    Prod.mk.injEq] at howner
  obtain ⟨howner, hrest⟩ := howner
  have hrepo := congrArg (splitOnce '/') hrest
  obtain ⟨powner, prepo, psubdir, preference⟩ := p
  obtain ⟨qowner, qrepo, qsubdir, qreference⟩ := q
  rw [SpecParts.mk.injEq]
  refine ⟨howner, ?_⟩
  cases psubdir <;> cases qsubdir <;>
    simp only [Option.elim, List.append_nil, splitOnce_eq_none.mpr hp.repo, splitOnce_eq_none.mpr hq.repo,
      splitOnce_append_cons hp.repo, splitOnce_append_cons hq.repo] at hrest hrepo <;>
    grind

/-- A ref is written behind the first `@` of parts that can be read. -/
theorem isSome_reference_of_shorthand (hq : q.Readable) (h : p.shorthand = q.shorthand)
    (hreference : p.reference.isSome = true) : q.reference.isSome = true := by
  by_contra hnone
  rw [Option.not_isSome_iff_eq_none] at hnone
  obtain ⟨reference, hreference⟩ := Option.isSome_iff_exists.mp hreference
  have hat : '@' ∉ q.path := at_notMem_path.mpr ⟨hq.owner_at, hq.repo_at, hq.subdir_at⟩
  rw [p.shorthand_eq, q.shorthand_eq, hreference, hnone] at h
  simp only [Option.elim, List.append_nil] at h
  exact hat (h ▸ List.mem_append_right _ List.mem_cons_self)

/-- No segment of the URL is empty when its pieces are as many as those of the parts that are read. -/
theorem segments_of_same (hp : p.Slashless) (hq : q.Readable)
    (htext : p.shortTrim.shorthand = q.shorthand) (hurl : readPieces (p.urlPieces layout) = some q) :
    ∃ name, stripGit name = q.repo ∧ ¬ q.StartsTree ∧ (∀ reference ∈ q.reference, '/' ∉ reference) ∧
      p.reference.isSome = q.reference.isSome ∧
      p.urlPieces layout = (p.urlTrim layout).segments layout.git ∧
      (p.urlTrim layout).segments layout.git =
        segments ⟨q.owner, name, q.subdir, q.reference⟩ false := by
  have hslash := slash_notMem_urlPieces layout hp
  have hle : (p.urlPieces layout).length ≤ p.size := by
    rw [← size_urlTrim layout, ← length_segments _ layout.git]
    exact List.length_filter_le _ _
  have href := isSome_reference_of_shorthand hq htext
  rw [isSome_shortTrim_reference] at href
  have hcount (hreference : ∀ reference ∈ q.reference, '/' ∉ reference) : p.depth = q.depth := by
    have hdepth := congrArg (List.count '/') htext
    rw [count_shorthand hp.shortTrim.owner hp.shortTrim.repo hp.shortTrim.reference,
      count_shorthand hq.owner_slash hq.repo_slash hreference, depth_shortTrim] at hdepth
    omega
  obtain ⟨name, hname, ⟨hpieces, htree⟩ | ⟨hpieces, hsubdir, hreference⟩⟩ :=
    exists_of_readPieces hslash hurl
  · have hreference : ∀ reference ∈ q.reference, '/' ∉ reference := by
      intro reference hreference
      refine hslash reference ?_
      rw [hpieces, Option.mem_def.mp hreference]
      simp [segments]
    have hlength : (p.urlPieces layout).length = q.size := by
      rw [hpieces, length_segments]
      rfl
    have hsome : p.reference.isSome = q.reference.isSome := by
      rw [hlength, size, size, hcount hreference] at hle
      cases hpref : p.reference <;> cases hqref : q.reference <;> simp_all
    have hall : p.urlPieces layout = (p.urlTrim layout).segments layout.git := by
      refine List.filter_eq_self.mpr (List.length_filter_eq_length_iff.mp ?_)
      rw [length_segments, size_urlTrim]
      change (p.urlPieces layout).length = p.size
      rw [hlength, size, size, hcount hreference]
      cases hpref : p.reference <;> cases hqref : q.reference <;> simp_all
    exact ⟨name, hname, htree, hreference, hsome, hall, hall ▸ hpieces⟩
  · have hdepth := hcount (by simp [hreference])
    have hnone : p.reference = none := by
      rw [← Option.not_isSome_iff_eq_none]
      intro hsome
      simpa [hreference] using href hsome
    rw [hpieces, size, hnone, hdepth, depth, hsubdir] at hle
    simp at hle

/-- Only a name with the suffix is stripped to a shorter one, and that name has no white space at its
end. -/
theorem repo_eq_of_stripGit (h : stripGit (p.urlTrim layout).repo = p.shortTrim.repo) :
    (p.urlTrim layout).repo = p.shortTrim.repo := by
  have htrim : trimEnd p.shortTrim.repo = trimEnd (p.urlTrim layout).repo := by
    have hidem : trimEnd (trimEnd p.repo) = trimEnd p.repo := List.rdropWhile_idempotent _ _
    rw [shortTrim_repo, urlTrim_repo]
    split_ifs <;> simp only [hidem]
  rcases stripGit_cases (p.urlTrim layout).repo with hsame | hsuffix
  · rw [← h, hsame]
  · rw [h] at hsuffix
    rw [hsuffix, trimEnd_gitSuffix] at htrim
    have hlength := (trimEnd_sublist p.shortTrim.repo).length_le
    have hgit : gitSuffix.length = 4 := by decide
    rw [htrim, List.length_append] at hlength
    omega

/-- Parts that are read alike from both spellings are trimmed alike and clean. -/
theorem clean_of_same (hp : p.Slashless) (hshort : readSpec (trim p.shorthand) = some q)
    (hurl : readPieces (p.urlPieces layout) = some q) :
    p.shortTrim = p.urlTrim layout ∧ p.shortTrim.Clean layout.git := by
  have hslash := slash_notMem_urlPieces layout hp
  have hsize := (length_of_readPieces hslash hurl).2
  obtain ⟨htext, hq⟩ : p.shortTrim.shorthand = q.shorthand ∧ q.Readable := by
    refine (readSpec_trim_shorthand layout hp hshort).resolve_left ?_
    omega
  obtain ⟨name, hname, htree, hreference, hsome, hpieces, hsegments⟩ := segments_of_same hp hq htext hurl
  have hqslash : q.Slashless := ⟨hq.owner_slash, hq.repo_slash, hreference⟩
  rw [← isSome_urlTrim_reference layout] at hsome
  obtain ⟨howner, hrepo, hsubdir, hreference⟩ := segments_inj hsegments hsome
  have hat : '@' ∉ p.shortTrim.path := by
    refine at_notMem_path.mpr ⟨fun hmem => ?_, fun hmem => ?_, fun subdir hmem hat => ?_⟩
    · rw [urlTrim_owner] at howner
      rw [shortTrim_owner, howner] at hmem
      exact hq.owner_at ((List.dropWhile_sublist _).mem hmem)
    · have hmem : '@' ∈ (p.urlTrim layout).repo :=
        (mem_urlTrim_repo isWhitespace_at).mpr ((mem_shortTrim_repo isWhitespace_at).mp hmem)
      exact hq.repo_at (hname ▸ at_mem_stripGit (hrepo ▸ List.mem_append_left _ hmem))
    · obtain ⟨subdir, hmem, hat⟩ := (mem_urlTrim_subdir layout isWhitespace_at).mpr
        ((mem_shortTrim_subdir isWhitespace_at).mp ⟨subdir, hmem, hat⟩)
      exact hq.subdir_at subdir (hsubdir ▸ hmem) hat
  have hqat : '@' ∉ q.path := at_notMem_path.mpr ⟨hq.owner_at, hq.repo_at, hq.subdir_at⟩
  obtain rfl := shorthand_inj hp.shortTrim hqslash hat hqat htext
  have hsame : (p.urlTrim layout).repo = p.shortTrim.repo := by
    cases hgit : layout.git with
    | true =>
      rw [hgit, if_pos rfl] at hrepo
      rw [← hname, ← hrepo, stripGit_append]
    | false =>
      rw [hgit, if_neg Bool.false_ne_true, List.append_nil] at hrepo
      exact repo_eq_of_stripGit (by rw [hrepo, hname])
  have hne : ∀ segment ∈ (p.urlTrim layout).segments layout.git, segment ≠ [] := by
    intro segment hsegment
    rw [← hpieces] at hsegment
    simpa using (List.mem_filter.mp hsegment).2
  have htrims : p.shortTrim = p.urlTrim layout := by
    rw [SpecParts.ext_iff]
    exact ⟨howner.symm, hsame.symm, hsubdir.symm, hreference.symm⟩
  rw [← htrims] at hne hrepo
  refine ⟨htrims, ⟨hq, fun hnil => ?_, fun subdir hmem hnil => ?_, fun hgit hsuffix => ?_, htree⟩⟩
  · exact hne [] (by simp [segments, hnil]) rfl
  · exact hne [] (by simp [segments, Option.mem_def.mp hmem, hnil]) rfl
  · rw [hgit, if_neg Bool.false_ne_true, List.append_nil] at hrepo
    obtain ⟨front, hfront⟩ := hsuffix
    rw [← hrepo, ← hfront, stripGit_append] at hname
    have hlength := congrArg List.length hname
    have hgit : gitSuffix.length = 4 := by decide
    rw [List.length_append] at hlength
    omega

theorem readPieces_eq_none {pieces : List (List Char)} :
    readPieces pieces = none ↔ pieces.length < 2 := by
  rcases pieces with _ | ⟨owner, _ | ⟨repo, rest⟩⟩
  · simp [readPieces]
  · simp [readPieces]
  · refine iff_of_false ?_ (by simp)
    unfold readPieces
    dsimp only
    cases rest with
    | nil => simp
    | cons first more =>
      dsimp only
      split_ifs
      · cases more <;> simp
      · simp

variable (layout) in
/-- An owner and a name that are read from the shorthand are pieces of the URL. -/
theorem two_le_length_urlPieces (hp : p.Slashless) (hq : q.Readable)
    (htext : p.shortTrim.shorthand = q.shorthand) : 2 ≤ (p.urlPieces layout).length := by
  obtain ⟨howner, hrest⟩ := owner_eq_of_shorthand hp.shortTrim.owner hq.owner_slash htext
  have hp_owner : p.owner ≠ [] := by
    intro hnil
    rw [shortTrim_owner, hnil] at howner
    exact hq.owner_ne howner.symm
  have hrepo : p.shortTrim.repo ≠ [] := by
    intro hnil
    obtain ⟨c, repo, hcons⟩ := List.exists_cons_of_ne_nil hq.repo_ne
    have hslash : c ≠ '/' := fun heq => hq.repo_slash (by rw [hcons, heq]; exact List.mem_cons_self)
    have hat : c ≠ '@' := fun heq => hq.repo_at (by rw [hcons, heq]; exact List.mem_cons_self)
    rw [hnil, hcons] at hrest
    cases hsubdir : p.shortTrim.subdir <;> cases hreference : p.shortTrim.reference <;>
      simp [hsubdir, hreference] at hrest <;> grind
  have hurl : (p.urlTrim layout).repo ≠ [] := by
    intro hnil
    have htrim : trimEnd [] = [] := rfl
    rw [urlTrim_repo] at hnil
    rw [shortTrim_repo] at hrepo
    split_ifs at hnil hrepo with hlast
    · exact hrepo hnil
    · grind
    · exact hrepo (by rw [hnil, htrim])
    · exact hrepo hnil
  rw [urlPieces, segments, List.filter_cons_of_pos (by simpa using hp_owner),
    List.filter_cons_of_pos (by simp [hurl])]
  simp

theorem rejected_of_few (hp : p.Slashless) (h : (p.urlPieces layout).length < 2) :
    readSpec (trim p.shorthand) = none := by
  by_contra hsome
  obtain ⟨q, hq⟩ := Option.ne_none_iff_exists'.mp hsome
  rcases readSpec_trim_shorthand layout hp hq with hsize | ⟨htext, hread⟩
  · omega
  · have := two_le_length_urlPieces layout hp hread htext
    omega

/-- What is read from clean parts has no empty part. -/
theorem Clean.nonempty {git : Bool} (h : q.Clean git) : q.toSpec.owner ≠ "" ∧ q.toSpec.repo ≠ "" ∧
    q.toSpec.subdir ≠ some "" ∧ q.toSpec.reference ≠ some "" := by
  have hempty (text : List Char) (hne : text ≠ []) : String.ofList text ≠ "" := fun heq =>
    hne (by simpa using congrArg String.toList heq)
  refine ⟨hempty _ h.owner_ne, hempty _ h.repo_ne, fun hsubdir => ?_, fun hreference => ?_⟩
  · obtain ⟨subdir, hmem, hsubdir⟩ := Option.map_eq_some_iff.mp hsubdir
    refine hempty subdir (fun hnil => h.subdir_ne subdir hmem ?_) hsubdir
    rw [hnil]
    exact List.mem_singleton_self _
  · obtain ⟨reference, hmem, hreference⟩ := Option.map_eq_some_iff.mp hreference
    exact hempty reference (fun hnil => h.reference_ne (hnil ▸ hmem)) hreference

end SpecParts

section Agree
variable {p : SpecParts} {layout : UrlLayout}

theorem same_iff : (parseGithubSpec (String.ofList p.shorthand)).toOption =
      (parseGithubSpec (String.ofList (p.url layout))).toOption ↔
    readSpec (trim p.shorthand) = readSpec (trim (p.url layout)) := by
  rw [parse_toOption, parse_toOption, String.toList_ofList, String.toList_ofList]
  exact (Option.map_injective SpecParts.toSpec_injective).eq_iff

/-- Both spellings are rejected when the URL has no owner and name; else they are read alike just
when trimming leaves the same parts of both, and these are clean. -/
theorem spellingsAgree_iff (p : SpecParts) (layout : UrlLayout) (hp : p.Slashless) :
    SpellingsAgree p layout ↔ (p.urlPieces layout).length < 2 ∨
      (p.shortTrim = p.urlTrim layout ∧ p.shortTrim.Clean layout.git) := by
  constructor
  · intro h
    have hsame := same_iff.mp h.same
    rw [SpecParts.readSpec_trim_url hp] at hsame
    cases hread : readPieces (p.urlPieces layout) with
    | none => exact .inl (SpecParts.readPieces_eq_none.mp hread)
    | some q => exact .inr (SpecParts.clean_of_same hp (hsame.trans hread) hread)
  · intro h
    obtain ⟨result, hshort, hurl, hresult⟩ : ∃ result, readSpec (trim p.shorthand) = result ∧
        readSpec (trim (p.url layout)) = result ∧
        ∀ q ∈ result, ∃ git, q.Clean git := by
      rcases h with hfew | ⟨htrims, hclean⟩
      · refine ⟨none, SpecParts.rejected_of_few hp hfew, ?_, nofun⟩
        rw [SpecParts.readSpec_trim_url hp]
        exact SpecParts.readPieces_eq_none.mpr hfew
      · refine ⟨some p.shortTrim, ?_, ?_, fun q hq => ⟨layout.git, Option.some.inj hq ▸ hclean⟩⟩
        · rw [SpecParts.trim_shorthand]
          exact hclean.readSpec_shorthand hp.shortTrim
        · rw [SpecParts.trim_url, ← htrims]
          exact hclean.readSpec_url hp.shortTrim
    refine ⟨same_iff.mpr (hshort.trans hurl.symm), fun text htext spec hspec => ?_⟩
    have hread : readSpec (trim text) = result := by
      simp only [List.mem_cons, List.not_mem_nil, or_false] at htext
      rcases htext with rfl | rfl <;> assumption
    have hsome := parse_toOption (String.ofList text)
    rw [hspec, String.toList_ofList, hread] at hsome
    obtain ⟨q, hq, rfl⟩ := Option.map_eq_some_iff.mp hsome.symm
    obtain ⟨git, hclean⟩ := hresult q hq
    exact hclean.nonempty

/-- `skills/x` of the repository `o/r` at `v1`. -/
def skillParts : SpecParts :=
  ⟨"o".toList, "r".toList, some "skills/x".toList, some "v1".toList⟩

theorem skillParts_clean (git : Bool) : skillParts.Clean git where
  owner_slash := by decide
  repo_slash := by decide
  owner_at := by decide
  repo_at := by decide
  subdir_at := by decide
  owner_ne := by decide
  repo_ne := by decide
  reference_ne := by decide
  subdir_ne := by decide
  repo_git := by decide +revert
  subdir_tree := nofun

/-- `o/r/skills/x@v1` and `https://github.com//o//r.git//tree//v1//skills//x/`. -/
theorem spellingsAgree_skillParts : SpellingsAgree skillParts ⟨true, fun _ => 1, 1⟩ :=
  (spellingsAgree_iff skillParts ⟨true, fun _ => 1, 1⟩ ⟨by decide, by decide, by decide⟩).mpr
    (.inr ⟨by decide, skillParts_clean true⟩)

/-- `o/r/` is read with an empty subdirectory, and `https://github.com/o/r/` without one. -/
theorem trailingSlash_not_agree :
    ¬ SpellingsAgree ⟨"o".toList, "r".toList, some [], none⟩ {} :=
  fun h => absurd h.same (by decide +kernel)

end Agree

end Tethys.Sync
