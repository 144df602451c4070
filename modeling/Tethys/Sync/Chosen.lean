import Tethys.Sync.Search
import Tethys.Sync.Staging

/-!
# The skill that is installed

What a successful import of a tarball leaves in the skills directory, and what an update would
change: the files of the archive below the chosen directory, and nothing else of the archive. The
wrapper that is left behind by the stripping is installed along with a skill that comes from a
subdirectory, with all that it still holds; `chosen_iff` says when it holds nothing.
-/

namespace Tethys.Sync

open Lib Schema

/-! ## The chosen directory -/

/-- The text of a subdirectory leads so far down, from wherever it is followed. -/
def SubdirNames (subdir : String) (sub : List String) : Prop :=
  (Path.parse subdir).absolute = false ∧
    ∀ place, follow place (Path.parse subdir).components = place ++ sub

theorem SubdirNames.unique {subdir : String} {sub sub' : List String} (h : SubdirNames subdir sub)
    (h' : SubdirNames subdir sub') : sub = sub' := by
  simpa using (h.2 []).symm.trans (h'.2 [])

/-- The directory of the archive that is to be installed: the subdirectory, or else the one of a
`SKILL.md`. -/
def Chosen (files : List String → Option SkillFile) (wrapper : String) (subdir : Option String)
    (dir : List String) : Prop :=
  match subdir with
  | some s => ∃ sub, SubdirNames s sub ∧ dir = wrapper :: sub
  | none => (∃ d, dir = wrapper :: d) ∧ files (dir ++ ["SKILL.md"]) ≠ none

/-- A subdirectory has its own `SKILL.md`, and there is no file in the archive beside it. -/
def Whole (files : List String → Option SkillFile) (wrapper : String) (subdir : Option String) : Prop :=
  ∀ s sub, subdir = some s → SubdirNames s sub →
    files (wrapper :: (sub ++ ["SKILL.md"])) ≠ none ∧ ∀ q, files q ≠ none → wrapper :: sub <+: q

/-- How far down the subdirectory is; nowhere if there is none. -/
def SubdirIs (subdir : Option String) (sub : List String) : Prop :=
  match subdir with
  | some s => SubdirNames s sub
  | none => sub = []

variable {m : NodeMap SkillFile} {staging : List String} {wrapper : String} {sub d : List String}
  {files before : List String → Option SkillFile} {subdir : Option String}

/-- Without a subdirectory, the staging directory has taken the place of the wrapper. -/
theorem Stripped.eq_of_nil (h : Stripped m staging wrapper [] files before) (q : List String) :
    m.fileAt (staging ++ q) = files (wrapper :: q) := by
  cases q with
  | nil =>
    rw [h.noDir]
    exact NodeMap.fileAt_eq_none (by simp [h.dir])
  | cons name q =>
    by_cases hname : name = wrapper
    · subst hname
      exact (h.gone q).trans (h.noWrapper q).symm
    · exact h.moved name q hname

/-- The `SKILL.md` of the subdirectory comes to lie in the staging directory. -/
theorem Stripped.skill (h : Stripped m staging wrapper sub files before)
    (hskill : files (wrapper :: (sub ++ ["SKILL.md"])) ≠ none) :
    m.fileAt (staging ++ ["SKILL.md"]) ≠ none := by
  have hne : "SKILL.md" ≠ wrapper := by
    rintro rfl
    exact hskill (h.noWrapper [])
  rwa [h.moved "SKILL.md" [] hne]

/-- If nothing but the chosen directory is found, the archive is whole. -/
theorem Stripped.whole (h : Stripped m staging wrapper sub files before) (hsub : SubdirIs subdir sub)
    (hfound : m.fileAt (staging ++ (d ++ ["SKILL.md"])) ≠ none)
    (hfirst : d = [] ∨ m.fileAt (staging ++ ["SKILL.md"]) = none)
    (hpresent : ∃ dir, Chosen files wrapper subdir dir ∧
      ∀ q, m.fileAt (staging ++ (d ++ q)) ≠ none ↔ files (dir ++ q) ≠ none) :
    Whole files wrapper subdir := by
  rintro s sub' rfl hnames
  obtain rfl := SubdirNames.unique hsub hnames
  obtain ⟨dir, ⟨sub', hnames', rfl⟩, hpresent⟩ := hpresent
  obtain rfl := hnames.unique hnames'
  have hskill : files (wrapper :: (sub ++ ["SKILL.md"])) ≠ none := (hpresent ["SKILL.md"]).mp hfound
  refine ⟨hskill, fun q hq => ?_⟩
  obtain rfl := hfirst.resolve_right (h.skill hskill)
  obtain ⟨rest, rfl⟩ := h.wrapped q hq
  by_contra hbeside
  rw [List.cons_prefix_cons, not_and] at hbeside
  rw [← h.left rest (hbeside rfl)] at hq
  exact (hpresent (wrapper :: rest)).mp hq (h.noWrapper rest)

/-- From a whole archive, what is found is the chosen directory. -/
theorem Stripped.exact (h : Stripped m staging wrapper sub files before) (hsub : SubdirIs subdir sub)
    (hfound : m.fileAt (staging ++ (d ++ ["SKILL.md"])) ≠ none)
    (hfirst : d = [] ∨ m.fileAt (staging ++ ["SKILL.md"]) = none)
    (hwhole : Whole files wrapper subdir) :
    ∃ dir, Chosen files wrapper subdir dir ∧ ∀ q, m.fileAt (staging ++ (d ++ q)) = files (dir ++ q) := by
  cases subdir with
  | none =>
    obtain rfl : sub = [] := hsub
    refine ⟨wrapper :: d, ⟨⟨d, rfl⟩, ?_⟩, fun q => h.eq_of_nil _⟩
    rwa [h.eq_of_nil] at hfound
  | some s =>
    obtain ⟨hskill, hbeside⟩ := hwhole s sub rfl hsub
    obtain rfl := hfirst.resolve_right (h.skill hskill)
    refine ⟨wrapper :: sub, ⟨sub, hsub, rfl⟩, fun q => ?_⟩
    cases q with
    | nil =>
      rw [List.append_nil (wrapper :: sub), h.noDir]
      exact NodeMap.fileAt_eq_none (by simp [h.dir])
    | cons name q =>
      by_cases hname : name = wrapper
      · subst hname
        refine Eq.trans ?_ (h.noWrapper q).symm
        by_cases hbelow : sub <+: q
        · obtain ⟨rest, rfl⟩ := hbelow
          exact h.gone rest
        · rw [List.nil_append, h.left q hbelow]
          by_contra hfile
          exact hbelow (List.cons_prefix_cons.mp (hbeside _ hfile)).2
      · exact h.moved name q hname

/-! ## Staging and swapping -/

/-- What holds if a program ends with a value. -/
def IfOk {α : Type} (Q : α → SkillVolume → Prop) : Except SkillError α → SkillVolume → Prop
  | .ok a, vol => Q a vol
  | .error _, _ => True

section Steps
variable {Hash α : Type} {world : ImportWorld Hash}
  {post : Except SkillError α → SkillVolume → Prop} {vol : SkillVolume} {skills : List String}

theorem yields_fail {Q : α → SkillVolume → Prop} (e : SkillError) (t : SkillVolume) :
    Yields world (IfOk Q) t (fail e : ImportProgram Hash α) := trivial

theorem yields_cleanUp {Q : α → SkillVolume → Prop} {path : Path} (e : SkillError) (t : SkillVolume) :
    Yields world (IfOk Q) t (removeDirAll path (fail e) : ImportProgram Hash α) :=
  fun _ _ _ => trivial

variable (wrapper) in
/-- A new staging directory is empty. -/
theorem yields_stageDir {hint : String} (hslash : '/' ∉ hint.toList)
    (hfresh : ∀ ms, world.now ms → vol.nodes (skills ++ [stagingName hint ms]) = none)
    (hfail : ∀ e t, Yields world post t (fail e : ImportProgram Hash α))
    {next : Path → ImportProgram Hash α}
    (hnext : ∀ ms (t : SkillVolume), world.now ms →
      Staged t.nodes (skills ++ [stagingName hint ms]) wrapper (fun _ => none) vol.nodes.fileAt →
      Yields world post t (next (.ofPlace (skills ++ [stagingName hint ms])))) :
    Yields world post vol (stageDir (.ofPlace skills) hint next) := by
  intro made t₁ h₁
  cases made with
  | false => exact hfail _ _
  | true =>
    rintro ms t ⟨hms, rfl⟩
    beta_reduce
    rw [join_stagingName hslash, Path.child_ofPlace]
    intro made t₂ h₂
    cases made with
    | false => exact hfail _ _
    | true =>
      obtain ⟨hfree₁, hnodes₁⟩ := h₁
      obtain ⟨hfree₂, hnodes₂⟩ := h₂
      refine hnext ms t₂ hms ?_
      set staging := skills ++ [stagingName hint ms] with hstaging
      have hlong : ∀ q, ¬ staging ++ q <+: skills := fun q hp => by
        simpa [hstaging] using hp.length_le
      have hsame : ∀ q, t.nodes (staging ++ q) = none := fun q => by
        rw [hnodes₁, NodeMap.make_of_notMem (fun hmem => hlong q (mem_placesOf_ofPlace.mp hmem))]
        exact Volume.none_below (hfresh ms hms) q
      have hfiles : ∀ q, t₂.nodes.fileAt q = vol.nodes.fileAt q := fun q => by
        rw [hnodes₂, NodeMap.fileAt_make hfree₂, hnodes₁, NodeMap.fileAt_make hfree₁]
      have hdir : t₂.nodes staging = some .dir := by
        rw [hnodes₂, NodeMap.make_of_mem (mem_placesOf_ofPlace.mpr List.prefix_rfl)]
        simpa using congrArg (Option.or · (some .dir)) (hsame [])
      have hnone : ∀ name q, t₂.nodes (staging ++ name :: q) = none := fun name q => by
        rw [hnodes₂, NodeMap.make_of_notMem, hsame]
        intro hmem
        simpa using (mem_placesOf_ofPlace.mp hmem).length_le
      refine ⟨hdir, fun q => ?_, fun name q hne => absurd (hnone name q) hne, fun q => ?_, rfl,
        fun q _ => hfiles q⟩
      · have hempty : vol.nodes (staging ++ q) = none := Volume.none_below (hfresh ms hms) q
        rw [hfiles]
        exact NodeMap.fileAt_eq_none (by simp [hempty])
      · cases q with
        | nil => simp [hdir]
        | cons name q => simp [hnone]

/-- What a tarball with one wrapper directory comes to in the staging directory. -/
theorem yields_stageTarball {entries : List TarEntry} (hentries : ∀ e ∈ entries, e.Wrapped wrapper)
    (hsub : SubdirIs subdir sub)
    (hfresh : ∀ ms, world.now ms → vol.nodes (skills ++ [stagingName "upstream" ms]) = none)
    (hfail : ∀ e t, Yields world post t (fail e : ImportProgram Hash α))
    {next : Path → ImportProgram Hash α}
    (hnext : ∀ ms (t : SkillVolume), world.now ms →
      Stripped t.nodes (skills ++ [stagingName "upstream" ms]) wrapper sub (archiveFiles entries)
        vol.nodes.fileAt →
      Yields world post t (next (.ofPlace (skills ++ [stagingName "upstream" ms])))) :
    Yields world post vol
      (stageTarball (.ofPlace skills) (.ok (entries.map .ok)) subdir next) := by
  refine yields_stageDir wrapper (by decide) hfresh hfail fun ms t hms hstaged => ?_
  have hcleanUp : ∀ e t, Yields world post t
      (removeDirAll (.ofPlace (skills ++ [stagingName "upstream" ms])) (fail e) : ImportProgram Hash α) :=
    fun e t r t' _ => hfail e t'
  refine yields_extractTarEntries (Path.place_ofPlace _) hentries hcleanUp (fun t hstaged => ?_) hstaged
  cases subdir with
  | none =>
    obtain rfl : sub = [] := hsub
    exact yields_stripSingleWrapper (Path.place_ofPlace _) (Path.parent_notMem_ofPlace _) hcleanUp
      (fun t => hnext ms t hms) hstaged
  | some s =>
    exact yields_stripWrapper hsub.1 hsub.2 (Path.place_ofPlace _) hcleanUp
      (fun t => hnext ms t hms) hstaged

/-- A name that is moved aside or staged is no name that is swapped for. -/
theorem trash_ne (name : String) (ms : Nat) : ".trash-" ++ name ++ "-" ++ toString ms ≠ name := by
  intro h
  have hlength := congrArg String.length h
  have hseven : ".trash-".length = 7 := by decide
  simp only [String.length_append] at hlength
  omega

theorem trash_ne_staging (name hint : String) (ms ms' : Nat) :
    ".trash-" ++ name ++ "-" ++ toString ms ≠ stagingName hint ms' := by
  intro h
  have hlist := congrArg String.toList h
  simp [stagingName, String.toList_append] at hlist

/-- What stood at the root stands in the place of the skill. -/
theorem yields_swapIntoPlace {name hint : String} {ms : Nat} {root : Path}
    (hname : validateName name = .ok ())
    (hroot : root.place = skills ++ stagingName hint ms :: d)
    (hdir : vol.nodes (skills ++ [stagingName hint ms]) = some .dir)
    {error : SkillError → ImportProgram Hash α} {next : ImportProgram Hash α}
    (herror : ∀ e t, Yields world post t (error e))
    (hnext : ∀ t : SkillVolume, name ≠ stagingName hint ms →
      (∀ q, t.nodes (skills ++ name :: q) = vol.nodes (root.place ++ q)) → Yields world post t next) :
    Yields world post vol (swapIntoPlace ((Path.ofPlace skills).child name) root error next) := by
  have hskills : vol.nodes skills = some .dir := vol.rooted skills (stagingName hint ms) (by simp [hdir])
  simp only [swapIntoPlace, Path.parent_child]
  intro made t₁ h₁
  cases made with
  | false => exact herror _ _
  | true =>
    have hmade : t₁.nodes = vol.nodes := h₁.2.trans (make_placesOf_eq hskills)
    rintro isThere t ⟨hprobe, rfl⟩
    cases isThere with
    | true =>
      rintro ms' t ⟨-, rfl⟩
      beta_reduce
      rw [trash_eq hname]
      intro moved t₂ h₂
      cases moved with
      | false => exact herror _ _
      | true =>
        obtain ⟨-, haside⟩ := h₂
        intro swapped t₃ h₃
        cases swapped with
        | false => exact fun _ _ _ => herror _ _
        | true =>
          obtain ⟨hmovable, hmoved⟩ := h₃
          simp only [Path.place_child, Path.place_ofPlace, hmade] at haside hmoved
          have hne : name ≠ stagingName hint ms := by
            rintro rfl
            refine hmovable.there ?_
            rw [haside, hroot, NodeMap.move_child_gone (not_below_of_ne (trash_ne _ ms'))]
          have hplace : ∀ q, t₃.nodes (skills ++ name :: q) = vol.nodes (root.place ++ q) := by
            intro q
            rw [hmoved, NodeMap.move_child, haside, hroot, List.append_assoc, List.cons_append,
              NodeMap.move_elsewhere (not_below_of_ne (trash_ne_staging _ _ _ _)) (not_below_of_ne hne)]
          intro removed t₄ h₄
          refine hnext t₄ hne fun q => ?_
          rw [← hplace q]
          have hkept : ¬ skills ++ [".trash-" ++ name ++ "-" ++ toString ms'] <+: skills ++ name :: q :=
            not_below_of_ne (trash_ne name ms')
          cases removed with
          | true =>
            rw [h₄.2, Path.place_child, Path.place_ofPlace, NodeMap.remove_elsewhere hkept]
          | false =>
            refine (h₄ _).resolve_right fun hbelow => hkept ?_
            simpa using hbelow.1
    | false =>
      have hne : name ≠ stagingName hint ms := by
        rintro rfl
        have hthere := hprobe.eq (by simp [hmade, hdir]) (by simpa using Path.parent_notMem_ofPlace _)
        simp [hmade, hdir] at hthere
      intro moved t₂ h₂
      cases moved with
      | false => exact herror _ _
      | true =>
        obtain ⟨-, hmoved⟩ := h₂
        refine hnext t₂ hne fun q => ?_
        rw [hmoved, Path.place_child, Path.place_ofPlace, NodeMap.move_child, hmade]

/-- The search goes on with a directory that holds a `SKILL.md`, if it can. -/
theorem yields_findSkillRoot {staging : List String}
    (hplain : ∀ q, vol.nodes (staging ++ q) ≠ some .other)
    (hfail : ∀ e t, Yields world post t (fail e : ImportProgram Hash α))
    {next : Path → ImportProgram Hash α}
    (hnext : ∀ root d, root.place = staging ++ d →
      vol.nodes.fileAt (staging ++ (d ++ ["SKILL.md"])) ≠ none →
      (d = [] ∨ vol.nodes.fileAt (staging ++ ["SKILL.md"]) = none) → Yields world post vol (next root)) :
    Yields world post vol (findSkillRoot (.ofPlace staging) fail next) := by
  have hlook : Looking world id world.Performs vol (· = vol) :=
    ⟨fun h => h, fun h => h, fun hs hop h => (h.eq_of_reads hop).trans hs⟩
  refine ensures_findSkillRoot hlook (fun _ _ _ _ _ => hfail _ _) (Path.place_ofPlace staging)
    (Path.parent_notMem_ofPlace _) rfl (fun r t h => h.eq_of_reads rfl) (fun _ _ _ => hfail _ _) ?_
  rintro t root rfl ⟨d, hroot, hskill⟩ hfirst
  refine hnext root d hroot (hskill hplain) (hfirst.imp_left fun heq => ?_)
  simpa [hroot] using heq

end Steps

/-! ## What is installed and what is planned -/

section Results
variable {Hash : Type} (world : ImportWorld Hash) (home : SkillHome (List String)) (scope : Scope)

/-- The skill that was installed has exactly the files of the chosen directory, and its digest is
the one of these files. -/
def InstallsExactly (files : List String → Option SkillFile) (wrapper : String)
    (subdir : Option String) (info : SkillInfo (List String) Hash) (vol : SkillVolume) : Prop :=
  ∃ dir, Chosen files wrapper subdir dir ∧
    (∀ q, vol.nodes.fileAt (skillsPlace home scope ++ info.name :: q) = files (dir ++ q)) ∧
    info.contentHash = (world.inspect fun q => files (dir ++ q)).contentHash

/-- The plan has exactly the differences between the skill that is there and the chosen directory. -/
def PlansExactly (files : List String → Option SkillFile) (wrapper : String)
    (subdir : Option String) (plan : SkillUpdatePlan) (vol : SkillVolume) : Prop :=
  ∃ dir, Chosen files wrapper subdir dir ∧ ∀ q before after, (q, before, after) ∈ plan.changes ↔
    before = bytesAt vol (skillsPlace home scope ++ plan.name :: q) ∧
      after = (files (dir ++ q)).map (·.bytes) ∧ before ≠ after

variable {world home scope} {vol : SkillVolume} {skills : List String}

variable (home scope) in
/-- The place of the staging directory of a tarball. -/
abbrev upstreamPlace (ms : Nat) : List String := skillsPlace home scope ++ [stagingName "upstream" ms]

/-- The end of an import and of an update, from the stripped staging directory on. -/
theorem yields_swap {name : String} {ms : Nat} {root : Path} {d : List String}
    {info : SkillFacts Hash → SkillInfo (List String) Hash} (hname : validateName name = .ok ())
    (hinfo : ∀ facts, (info facts).name = name ∧ (info facts).contentHash = facts.contentHash)
    (hsub : SubdirIs subdir sub)
    (hstripped : Stripped vol.nodes (upstreamPlace home scope ms) wrapper sub files before)
    (hroot : root.place = upstreamPlace home scope ms ++ d)
    (hskill : vol.nodes.fileAt (upstreamPlace home scope ms ++ (d ++ ["SKILL.md"])) ≠ none)
    (hfirst : d = [] ∨ vol.nodes.fileAt (upstreamPlace home scope ms ++ ["SKILL.md"]) = none) :
    Yields world (IfOk fun info t =>
      (InstallsExactly world home scope files wrapper subdir info t ↔ Whole files wrapper subdir)) vol
      (swapIntoPlace (skillPath home scope name) root
        (fun e => removeDirAll (.ofPlace (upstreamPlace home scope ms)) (fail e)) <|
        removeDirAll (.ofPlace (upstreamPlace home scope ms)) <|
        recordInstalled (skillPath home scope name) info) := by
  rw [skillPath_eq hname]
  have hinside : root.place = skillsPlace home scope ++ stagingName "upstream" ms :: d := by simp [hroot]
  refine yields_swapIntoPlace hname hinside hstripped.dir yields_cleanUp
    fun t hne hplace => ?_
  intro removed t₁ h₁
  have hkept : ∀ q, t₁.nodes (skillsPlace home scope ++ name :: q) =
      vol.nodes (upstreamPlace home scope ms ++ (d ++ q)) := by
    intro q
    have hbeside : ¬ (Path.ofPlace (upstreamPlace home scope ms)).place <+:
        skillsPlace home scope ++ name :: q := by
      rw [Path.place_ofPlace]
      exact not_below_of_ne hne.symm
    rw [← List.append_assoc, ← hroot, ← hplace q]
    cases removed with
    | true => rw [h₁.2, NodeMap.remove_elsewhere hbeside]
    | false => exact (h₁ _).resolve_right fun hbelow => hbeside hbelow.1
  have hinstalled : ∀ q, t₁.nodes.fileAt (skillsPlace home scope ++ name :: q) =
      vol.nodes.fileAt (upstreamPlace home scope ms ++ (d ++ q)) := fun q =>
    NodeMap.fileAt_congr (hkept q)
  rintro facts t ⟨hfacts, rfl⟩
  cases facts with
  | none => exact yields_fail _ _
  | some facts =>
    intro recorded t' ht'
    obtain rfl : t' = t := ht'
    cases recorded with
    | false => exact yields_fail _ _
    | true =>
      obtain ⟨hinfoName, hinfoHash⟩ := hinfo facts
      constructor
      · rintro ⟨dir, hchosen, hfiles, -⟩
        refine hstripped.whole hsub hskill hfirst ⟨dir, hchosen, fun q => ?_⟩
        rw [← hinstalled, ← hfiles, hinfoName]
      · intro hwhole
        obtain ⟨dir, hchosen, hexact⟩ := hstripped.exact hsub hskill hfirst hwhole
        refine ⟨dir, hchosen, fun q => ?_, ?_⟩
        · rw [hinfoName, hinstalled, hexact]
        · rw [hinfoHash, hfacts facts rfl]
          congr 2
          funext q
          simpa [NodeMap.files] using (hinstalled q).trans (hexact q)

/-- Two comparisons with the same files tell the same of the others. -/
theorem eq_of_changes {changes : FileChanges} {installed after other : List String → Option (List UInt8)}
    (h : ∀ q b a, (q, b, a) ∈ changes ↔ b = installed q ∧ a = after q ∧ b ≠ a)
    (h' : ∀ q b a, (q, b, a) ∈ changes ↔ b = installed q ∧ a = other q ∧ b ≠ a) (q : List String) :
    after q = other q := by
  by_contra hne
  by_cases hsame : installed q = after q
  · have hmem := (h' q (installed q) (other q)).mpr ⟨rfl, rfl, hsame ▸ hne⟩
    exact hne ((h q _ _).mp hmem).2.1.symm
  · have hmem := (h q (installed q) (after q)).mpr ⟨rfl, rfl, hsame⟩
    exact hne ((h' q _ _).mp hmem).2.1

variable {entries : List TarEntry} (hentries : ∀ e ∈ entries, e.Wrapped wrapper)
  (hsub : SubdirIs subdir sub)
  (hfresh : ∀ ms, world.now ms → vol.nodes (upstreamPlace home scope ms) = none)

include hentries hsub hfresh

theorem yields_importTarball (source : SkillSource) (pinnedSha : Option String) :
    Yields world (IfOk fun info t =>
      (InstallsExactly world home scope (archiveFiles entries) wrapper subdir info t ↔
        Whole (archiveFiles entries) wrapper subdir)) vol
      (importTarball home scope (.ok (entries.map .ok)) subdir source pinnedSha) := by
  refine yields_stageTarball hentries hsub hfresh yields_fail
    fun ms t _ hstripped => ?_
  refine yields_findSkillRoot hstripped.plain yields_fail
    fun root d hroot hskill hfirst => ?_
  intro text t' ht'
  obtain rfl : t' = t := ht'
  beta_reduce
  split
  · rename_i name _
    unfold installNamed
    split
    · exact yields_fail _ _
    · rename_i hname
      exact yields_swap hname (fun facts => ⟨rfl, rfl⟩) hsub hstripped hroot hskill hfirst
  · exact yields_fail _ _

theorem yields_updateInstalled {loaded : Installed home scope Hash} {sha : String}
    (hsource : loaded.info.source.subdir = subdir)
    (hupstream : world.upstream loaded.info.source = .ok (sha, .ok (entries.map .ok))) :
    Yields world (IfOk fun info t =>
      (InstallsExactly world home scope (archiveFiles entries) wrapper subdir info t ↔
        Whole (archiveFiles entries) wrapper subdir)) vol (updateInstalled home scope loaded) := by
  unfold updateInstalled
  split
  · exact yields_fail _ _
  · rename_i repo hrepo
    have hname := loaded.named (by simp [hrepo])
    rintro answer t ⟨rfl, rfl⟩
    rw [hupstream, hsource]
    refine yields_stageTarball hentries hsub hfresh yields_fail
      fun ms t _ hstripped => ?_
    refine yields_findSkillRoot hstripped.plain yields_fail
      fun root d hroot hskill hfirst => ?_
    exact yields_swap hname (fun facts => ⟨rfl, rfl⟩) hsub hstripped hroot hskill hfirst

theorem yields_planInstalled {loaded : Installed home scope Hash} {sha : String}
    (hsource : loaded.info.source.subdir = subdir)
    (hupstream : world.upstream loaded.info.source = .ok (sha, .ok (entries.map .ok)))
    (hthere : vol.nodes (skillsPlace home scope ++ [loaded.info.name]) ≠ none) :
    Yields world (IfOk fun plan _ =>
      (PlansExactly home scope (archiveFiles entries) wrapper subdir plan vol ↔
        Whole (archiveFiles entries) wrapper subdir)) vol (planInstalled home scope loaded) := by
  unfold planInstalled
  split
  · exact yields_fail _ _
  · rename_i repo hrepo
    have hname := loaded.named (by simp [hrepo])
    rintro answer t ⟨rfl, rfl⟩
    rw [hupstream, hsource, skillPath_eq hname]
    refine yields_stageTarball hentries hsub hfresh yields_fail
      fun ms u hms hstripped => ?_
    refine yields_findSkillRoot hstripped.plain yields_fail
      fun root d hroot hskill hfirst => ?_
    rintro changes u' ⟨hchanges, rfl⟩
    intro removed u'' _
    cases changes with
    | none => exact yields_fail _ _
    | some changes =>
      have hne : stagingName "upstream" ms ≠ loaded.info.name := by
        intro heq
        exact hthere (heq ▸ hfresh ms hms)
      have hinstalled : ∀ q, bytesAt u' (skillsPlace home scope ++ loaded.info.name :: q) =
          bytesAt t (skillsPlace home scope ++ loaded.info.name :: q) := fun q => by
        rw [bytesAt, hstripped.outside _ (not_below_of_ne hne)]
        rfl
      have hcompare : ∀ q b a, (q, b, a) ∈ changes ↔
          b = bytesAt t (skillsPlace home scope ++ loaded.info.name :: q) ∧
            a = bytesAt u' (upstreamPlace home scope ms ++ (d ++ q)) ∧ b ≠ a := fun q b a => by
        simpa [hroot, hinstalled] using hchanges changes rfl q b a
      constructor
      · rintro ⟨dir, hchosen, hplan⟩
        refine hstripped.whole hsub hskill hfirst ⟨dir, hchosen, fun q => ?_⟩
        have hbytes := eq_of_changes hcompare hplan q
        rw [bytesAt] at hbytes
        rw [← Option.isSome_iff_ne_none, ← Option.isSome_iff_ne_none, ← Option.isSome_map, hbytes,
          Option.isSome_map]
      · intro hwhole
        obtain ⟨dir, hchosen, hexact⟩ := hstripped.exact hsub hskill hfirst hwhole
        refine ⟨dir, hchosen, fun q b a => ?_⟩
        rw [hcompare, bytesAt, bytesAt, hexact]

omit hsub in
/-- A successful import or update installs exactly the chosen directory of a tarball with one
wrapper directory, and a plan compares with exactly this directory, if and only if the
subdirectory, where one is given, has a `SKILL.md` and there is no file beside it. -/
theorem chosen_iff (hsubdir : ∀ s, subdir = some s → ∃ sub, SubdirNames s sub) (vol' : SkillVolume) :
    (∀ source pinnedSha info,
      (importTarball home scope (.ok (entries.map .ok)) subdir source pinnedSha).Runs world.Performs
        vol (.ok info) vol' →
      (InstallsExactly world home scope (archiveFiles entries) wrapper subdir info vol' ↔
        Whole (archiveFiles entries) wrapper subdir)) ∧
    (∀ (loaded : Installed home scope Hash) sha, loaded.info.source.subdir = subdir →
      world.upstream loaded.info.source = .ok (sha, .ok (entries.map .ok)) →
      (∀ info, (updateInstalled home scope loaded).Runs world.Performs vol (.ok info) vol' →
        (InstallsExactly world home scope (archiveFiles entries) wrapper subdir info vol' ↔
          Whole (archiveFiles entries) wrapper subdir)) ∧
      (∀ plan, vol.nodes (skillsPlace home scope ++ [loaded.info.name]) ≠ none →
        (planInstalled home scope loaded).Runs world.Performs vol (.ok plan) vol' →
        (PlansExactly home scope (archiveFiles entries) wrapper subdir plan vol ↔
          Whole (archiveFiles entries) wrapper subdir))) := by
  obtain ⟨sub, hsub⟩ : ∃ sub, SubdirIs subdir sub := by
    cases subdir with
    | none => exact ⟨[], rfl⟩
    | some s => exact hsubdir s rfl
  refine ⟨fun source pinnedSha info hrun => ?_, fun loaded sha hsource hupstream =>
    ⟨fun info hrun => ?_, fun plan hthere hrun => ?_⟩⟩
  · exact (yields_importTarball hentries hsub hfresh source pinnedSha).of_runs hrun
  · exact (yields_updateInstalled hentries hsub hfresh hsource hupstream).of_runs hrun
  · exact (yields_planInstalled hentries hsub hfresh hsource hupstream hthere).of_runs hrun

end Results

/-! ## An archive with a skill and a readme -/

section Example

def exampleHome : SkillHome (List String) := ⟨[], []⟩

def skillsAt : List String := [".agents", "skills"]
def stagingAt : List String := skillsAt ++ [".staging-upstream-5"]

def exampleWorld : ImportWorld (List String → Option SkillFile) where
  now ms := ms = 5
  inspect files := ⟨files, false⟩
  upstream _ := .error (.upstream "offline")

def skillText : String := "---\nname: s\n---\n"
def skillEntry : TarEntry := ⟨.file, "r/s/SKILL.md", 16, ⟨ascii skillText, false⟩⟩
def readmeEntry : TarEntry := ⟨.file, "r/README.md", 3, ⟨ascii "# r", false⟩⟩

theorem skillEntry_place : skillEntry.place = ["r", "s", "SKILL.md"] := by decide +kernel
theorem readmeEntry_place : readmeEntry.place = ["r", "README.md"] := by decide +kernel

/-- The archive is staged. -/
structure Ready (vol : SkillVolume) : Prop where
  skill : vol.nodes (stagingAt ++ ["r", "s", "SKILL.md"]) = some (.file skillEntry.file)
  top : ∀ name, vol.nodes (stagingAt ++ [name]) ≠ none → name = "r"
  sub : ∀ name, vol.nodes (stagingAt ++ ["r", "s", name]) ≠ none → name = "SKILL.md"
  free : vol.nodes (skillsAt ++ ["s"]) = none

def installedInfo (vol : SkillVolume) (source : SkillSource) :
    SkillInfo (List String) (List String → Option SkillFile) where
  name := "s"
  scope := .workspace
  path := skillDir exampleHome .workspace "s"
  source := source
  enabled := true
  requiresTrust := false
  trusted := false
  contentHash := vol.nodes.files (skillsAt ++ ["s"])
  pinnedSha := none

theorem Ready.dir {vol : SkillVolume} (h : Ready vol) {place : List String}
    (hplace : place <+: stagingAt ++ ["r", "s"]) : vol.nodes place = some .dir := by
  obtain ⟨rest, hrest⟩ := hplace
  have hbelow : vol.nodes (place ++ (rest ++ ["SKILL.md"])) ≠ none := by
    rw [← List.append_assoc, hrest, List.append_assoc]
    simp [h.skill]
  exact Volume.dir_of_below hbelow (by simp)

theorem Ready.runs {vol : SkillVolume} (h : Ready vol) (source : SkillSource) :
    ∃ vol' : SkillVolume, vol'.nodes = (vol.nodes.move (stagingAt ++ ["r", "s", "SKILL.md"])
        (stagingAt ++ ["SKILL.md"])).move stagingAt (skillsAt ++ ["s"]) ∧
      (stripWrapper (.ofPlace stagingAt) "s" (fun e => removeDirAll (.ofPlace stagingAt) (fail e))
        (installStaged exampleHome .workspace (.ofPlace stagingAt) none source none)).Runs
        exampleWorld.Performs vol (.ok (installedInfo vol' source)) vol' := by
  have hfree : ∀ name, name ≠ "r" → vol.nodes (stagingAt ++ [name]) = none := fun name hne => by
    by_contra hnode
    exact hne (h.top name hnode)
  have hmove : vol.nodes.Movable (stagingAt ++ ["r", "s", "SKILL.md"]) (stagingAt ++ ["SKILL.md"]) := by
    refine ⟨by simp [h.skill], by decide, fun place name heq => ?_, .inl (hfree _ (by decide))⟩
    obtain ⟨rfl, -⟩ := List.append_inj' heq rfl
    exact h.dir (by decide)
  let v₁ : SkillVolume := ⟨_, vol.rooted.move hmove⟩
  have hskill : v₁.nodes (stagingAt ++ ["SKILL.md"]) = some (.file skillEntry.file) := by
    change vol.nodes.move (stagingAt ++ ["r", "s", "SKILL.md"]) (stagingAt ++ ["SKILL.md"])
      (stagingAt ++ ["SKILL.md"]) = _
    rw [NodeMap.move_there, h.skill]
  have hstaging : v₁.nodes stagingAt = some .dir := v₁.rooted stagingAt "SKILL.md" (by simp [hskill])
  have hskillsDir : v₁.nodes skillsAt = some .dir := Volume.dir_of_initial hstaging (by decide)
  have hnone : v₁.nodes (skillsAt ++ ["s"]) = none := by
    change vol.nodes.move (stagingAt ++ ["r", "s", "SKILL.md"]) (stagingAt ++ ["SKILL.md"])
      (skillsAt ++ ["s"]) = none
    rw [NodeMap.move_elsewhere (by decide) (by decide), h.free]
  have hmove' : v₁.nodes.Movable stagingAt (skillsAt ++ ["s"]) := by
    refine ⟨by simp [hstaging], by decide, fun place name heq => ?_, .inl hnone⟩
    obtain ⟨rfl, -⟩ := List.append_inj' heq rfl
    exact hskillsDir
  let v₂ : SkillVolume := ⟨_, v₁.rooted.move hmove'⟩
  have hsub : ((Path.ofPlace stagingAt).child "r").join (.parse "s") = .ofPlace (stagingAt ++ ["r", "s"]) := by
    decide +kernel
  have hskills : skillPath exampleHome .workspace "s" = (Path.ofPlace skillsAt).child "s" :=
    skillPath_eq (by decide +kernel)
  have hlisted : exampleWorld.Performs vol (.readDir (.ofPlace stagingAt)) (some ["r"]) vol := by
    refine ⟨?_, rfl⟩
    rintro names ⟨⟩
    rw [Lists, Path.place_ofPlace]
    refine .inr ⟨h.dir (by decide), by simp, fun name => ⟨fun hname => ?_, fun hnode => ?_⟩⟩
    · obtain rfl := List.mem_singleton.mp hname
      rw [h.dir (by decide)]
      nofun
    · exact List.mem_singleton.mpr (h.top name hnode)
  have hwrapper : exampleWorld.Performs vol (.isDir ((Path.ofPlace stagingAt).child "r")) true vol := by
    refine ⟨.inr ⟨fun _ => ?_, fun _ _ => rfl⟩, rfl⟩
    rw [Path.place_child, Path.place_ofPlace, h.dir (by decide)]
    rfl
  have hdirectory : exampleWorld.Performs vol (.isDir (.ofPlace (stagingAt ++ ["r", "s"]))) true vol := by
    refine ⟨.inr ⟨fun _ => ?_, fun _ _ => rfl⟩, rfl⟩
    rw [Path.place_ofPlace, h.dir (by decide)]
    rfl
  have hnames : exampleWorld.Performs vol (.readDir (.ofPlace (stagingAt ++ ["r", "s"])))
      (some ["SKILL.md"]) vol := by
    refine ⟨?_, rfl⟩
    rintro names ⟨⟩
    rw [Lists, Path.place_ofPlace]
    refine .inr ⟨h.dir (by decide), by simp, fun name => ⟨fun hname => ?_, fun hnode => ?_⟩⟩
    · obtain rfl := List.mem_singleton.mp hname
      simpa using h.skill ▸ nofun
    · exact List.mem_singleton.mpr (h.sub name (by simpa using hnode))
  have hmoved : exampleWorld.Performs vol (.rename ((Path.ofPlace (stagingAt ++ ["r", "s"])).child "SKILL.md")
      ((Path.ofPlace stagingAt).child "SKILL.md")) true v₁ := by
    simp only [ImportWorld.Performs, Path.place_child, Path.place_ofPlace, List.append_assoc]
    exact ⟨hmove, rfl⟩
  have hfound : exampleWorld.Performs v₁ (.isFile ((Path.ofPlace stagingAt).child "SKILL.md")) true v₁ := by
    refine ⟨.inr ⟨fun _ => ?_, fun _ _ => rfl⟩, rfl⟩
    rw [Path.place_child, Path.place_ofPlace, hskill]
    rfl
  have hmade : exampleWorld.Performs v₁ (.createDirAll (.ofPlace skillsAt)) true v₁ := by
    refine ⟨fun q hq file => ?_, (make_placesOf_eq hskillsDir).symm⟩
    rw [Volume.dir_of_initial hskillsDir (mem_placesOf_ofPlace.mp hq)]
    nofun
  have hnew : exampleWorld.Performs v₁ (.exists ((Path.ofPlace skillsAt).child "s")) false v₁ := by
    refine ⟨.inr ⟨nofun, fun _ hnode => ?_⟩, rfl⟩
    rw [Path.place_child, Path.place_ofPlace, hnone] at hnode
    cases hnode
  have hswapped : exampleWorld.Performs v₁ (.rename (.ofPlace stagingAt) ((Path.ofPlace skillsAt).child "s"))
      true v₂ := by
    simp only [ImportWorld.Performs, Path.place_child, Path.place_ofPlace]
    exact ⟨hmove', rfl⟩
  have hgone : exampleWorld.Performs v₂ (.removeDirAll (.ofPlace stagingAt)) false v₂ := fun q => .inl rfl
  have hinspected : exampleWorld.Performs v₂ (.inspect ((Path.ofPlace skillsAt).child "s"))
      (some ⟨v₂.nodes.files (skillsAt ++ ["s"]), false⟩) v₂ := by
    refine ⟨?_, rfl⟩
    rintro facts ⟨⟩
    rw [Path.place_child, Path.place_ofPlace]
    rfl
  have hrecorded : exampleWorld.Performs v₂ (.record (installedInfo v₂ source)) true v₂ := rfl
  refine ⟨v₂, rfl, .call hlisted (.call hwrapper ?_)⟩
  simp only [filterDirs, if_true, List.nil_append, List.mergeSort_singleton, hsub]
  refine .call hdirectory (.call hnames (.call hmoved (.call hfound (.call (r := some skillText) rfl ?_))))
  have hname : ((some skillText).bind frontmatterName).or (Path.ofPlace stagingAt).fileName = some "s" := by
    decide +kernel
  have hvalid : validateName "s" = .ok () := by decide +kernel
  simp only [hname, installNamed, hvalid, hskills, swapIntoPlace, Path.parent_child]
  refine .call hmade (.call hnew (.call hswapped (.call hgone (.call hinspected (.call hrecorded ?_)))))
  exact .ret _ _

/-- An entry of the archive is unpacked. -/
theorem runs_extractTarEntries {Hash α : Type} {world : ImportWorld Hash} {destination : Path}
    {error : SkillError → ImportProgram Hash α} {next : ImportProgram Hash α} {count total : Nat}
    {entry : TarEntry} {entries : List (Except String TarEntry)} {vol t u : SkillVolume}
    {a : Except SkillError α}
    (haccepted : entry.kind ≠ .other ∧ (Path.parse entry.path).absolute = false ∧
      .parent ∉ (Path.parse entry.path).components ∧ count + 1 ≤ maxArchiveEntries ∧
      (total + entry.size) % 2 ^ 64 ≤ maxArchiveBytes)
    (hunpack : Unpacks vol entry destination.place t)
    (hrun : (extractTarEntries destination error next (count + 1) ((total + entry.size) % 2 ^ 64)
      entries).Runs world.Performs t a u) :
    (extractTarEntries destination error next count total (.ok entry :: entries)).Runs world.Performs
      vol a u := by
  obtain ⟨hkind, habsolute, hparent, hcount, hbytes⟩ := haccepted
  rw [extractTarEntries, if_neg hkind, if_neg (by simp [habsolute, hparent]), if_neg (by omega)]
  have hperform : world.Performs vol (.unpackIn entry destination) (.ok ()) t := hunpack
  exact .call hperform hrun

def skillOnly : SkillVolume where
  nodes := (dirsTo (stagingAt ++ ["r", "s"])).nodes.put (stagingAt ++ ["r", "s"] ++ ["SKILL.md"])
    skillEntry.file
  rooted := (dirsTo (stagingAt ++ ["r", "s"])).rooted.put (by decide) (by decide)

def withReadme : SkillVolume where
  nodes := skillOnly.nodes.put (stagingAt ++ ["r"] ++ ["README.md"]) readmeEntry.file
  rooted := skillOnly.rooted.put (by decide) (by decide)

theorem ready_skillOnly : Ready skillOnly := by
  refine ⟨by decide, fun name hnode => ?_, fun name hnode => ?_, by decide⟩
  · simpa [skillOnly, NodeMap.put, dirsTo, List.prefix_append_right_inj, List.cons_prefix_cons] using hnode
  · simpa [skillOnly, NodeMap.put, dirsTo, List.prefix_append_right_inj, List.cons_prefix_cons] using hnode

theorem ready_withReadme : Ready withReadme := by
  refine ⟨by decide, fun name hnode => ?_, fun name hnode => ?_, by decide⟩
  · refine ready_skillOnly.top name ?_
    simpa [withReadme, NodeMap.put] using hnode
  · refine ready_skillOnly.sub name ?_
    simpa [withReadme, NodeMap.put] using hnode

theorem unpacks_skillEntry : Unpacks (dirsTo stagingAt) skillEntry stagingAt skillOnly := by
  have hkind : skillEntry.kind = .file := rfl
  have hparent : (stagingAt ++ ["r", "s", "SKILL.md"]).dropLast = stagingAt ++ ["r", "s"] := rfl
  simp only [Unpacks, skillEntry_place, hkind, hparent, reduceCtorEq, if_false]
  refine ⟨fun q _ file => ?_, by decide, ?_⟩
  · simp only [dirsTo]
    split_ifs <;> simp
  · rw [make_dirsTo (List.prefix_append _ _)]
    rfl

theorem unpacks_readmeEntry : Unpacks skillOnly readmeEntry stagingAt withReadme := by
  have hkind : readmeEntry.kind = .file := rfl
  have hparent : (stagingAt ++ ["r", "README.md"]).dropLast = stagingAt ++ ["r"] := rfl
  have hdir : ∀ q, q <+: stagingAt ++ ["r"] → skillOnly.nodes q = some .dir := fun q hq =>
    ready_skillOnly.dir (hq.trans (by decide))
  simp only [Unpacks, readmeEntry_place, hkind, hparent, reduceCtorEq, if_false]
  refine ⟨fun q hq file => by rw [hdir q hq]; nofun, by decide, ?_⟩
  rw [← make_placesOf, make_placesOf_eq (hdir _ List.prefix_rfl)]
  rfl

/-- From the skills directory to the end of the import. -/
theorem runs_import {entries : List TarEntry} {vol : SkillVolume} {source : SkillSource}
    (hrun : ∀ {error : SkillError → ImportProgram (List String → Option SkillFile)}
      {next : ImportProgram (List String → Option SkillFile)} {a u},
      next.Runs exampleWorld.Performs vol a u →
      (extractTarEntries (.ofPlace stagingAt) error next 0 0 (entries.map .ok)).Runs
        exampleWorld.Performs (dirsTo stagingAt) a u) (h : Ready vol) :
    ∃ vol' : SkillVolume, vol'.nodes = (vol.nodes.move (stagingAt ++ ["r", "s", "SKILL.md"])
        (stagingAt ++ ["SKILL.md"])).move stagingAt (skillsAt ++ ["s"]) ∧
      (importTarball exampleHome .workspace (.ok (entries.map .ok)) (some "s") source none).Runs
        exampleWorld.Performs (dirsTo skillsAt) (.ok (installedInfo vol' source)) vol' := by
  obtain ⟨vol', hnodes, hinstall⟩ := h.runs source
  have hstaging : (Path.ofPlace skillsAt).join (.parse (stagingName "upstream" 5)) = .ofPlace stagingAt := by
    decide +kernel
  have hskills : exampleWorld.Performs (dirsTo skillsAt) (.createDirAll (.ofPlace skillsAt)) true
      (dirsTo skillsAt) := by
    refine ⟨fun q _ file => ?_, (make_placesOf_eq (by decide)).symm⟩
    simp only [dirsTo]
    split_ifs <;> simp
  have hnow : exampleWorld.Performs (dirsTo skillsAt) .nowMs (5 : Nat) (dirsTo skillsAt) := ⟨rfl, rfl⟩
  have hmade : exampleWorld.Performs (dirsTo skillsAt) (.createDirAll (.ofPlace stagingAt)) true
      (dirsTo stagingAt) := by
    refine ⟨fun q _ file => ?_, ?_⟩
    · simp only [dirsTo]
      split_ifs <;> simp
    · rw [make_placesOf, make_dirsTo (show skillsAt <+: stagingAt by decide)]
  have hplace : skillsPlace exampleHome .workspace = skillsAt := rfl
  refine ⟨vol', hnodes, .call hskills (.call hnow ?_)⟩
  beta_reduce
  rw [hplace, hstaging]
  exact .call hmade (hrun hinstall)

theorem exampleNames : SubdirNames "s" ["s"] := by
  have hparse : Path.parse "s" = ⟨false, [.name "s"]⟩ := by decide +kernel
  exact ⟨by rw [hparse], fun place => by rw [hparse]; rfl⟩

theorem exampleFresh (ms : Nat) :
    (dirsTo skillsAt).nodes (upstreamPlace exampleHome .workspace ms) = none := by
  have hplace : skillsPlace exampleHome .workspace = skillsAt := rfl
  simp only [dirsTo]
  refine if_neg fun h => ?_
  simpa [hplace] using h.length_le

def exampleSource : SkillSource := ⟨.gitHub, some "o/r", none, some "s", none, none⟩

section Extraction
variable {error : SkillError → ImportProgram (List String → Option SkillFile)}
  {next : ImportProgram (List String → Option SkillFile)}
  {a : Except SkillError (SkillInfo (List String) (List String → Option SkillFile))} {u : SkillVolume}

theorem extracts_skillOnly (h : next.Runs exampleWorld.Performs skillOnly a u) :
    (extractTarEntries (.ofPlace stagingAt) error next 0 0 ([skillEntry].map .ok)).Runs
      exampleWorld.Performs (dirsTo stagingAt) a u := by
  have hunpack : Unpacks (dirsTo stagingAt) skillEntry (Path.ofPlace stagingAt).place skillOnly := by
    rw [Path.place_ofPlace]
    exact unpacks_skillEntry
  exact runs_extractTarEntries (by decide +kernel) hunpack h

theorem extracts_withReadme (h : next.Runs exampleWorld.Performs withReadme a u) :
    (extractTarEntries (.ofPlace stagingAt) error next 0 0 ([skillEntry, readmeEntry].map .ok)).Runs
      exampleWorld.Performs (dirsTo stagingAt) a u := by
  have hskill : Unpacks (dirsTo stagingAt) skillEntry (Path.ofPlace stagingAt).place skillOnly := by
    rw [Path.place_ofPlace]
    exact unpacks_skillEntry
  have hreadme : Unpacks skillOnly readmeEntry (Path.ofPlace stagingAt).place withReadme := by
    rw [Path.place_ofPlace]
    exact unpacks_readmeEntry
  refine runs_extractTarEntries (by decide +kernel) hskill ?_
  exact runs_extractTarEntries (by decide +kernel) hreadme h

end Extraction

theorem wrapped_of_place {entry : TarEntry} {name : String} {rest : List String}
    (h : entry.place = wrapper :: name :: rest) : entry.Wrapped wrapper := .inr (.inr ⟨name, rest, h⟩)

theorem archive_skillOnly (q : List String) :
    archiveFiles [skillEntry] q = if q = ["r", "s", "SKILL.md"] then some skillEntry.file else none := by
  have hkind : skillEntry.kind = .file := rfl
  simp [archiveFiles, addEntry, skillEntry_place, hkind, Function.update_apply]

theorem chosen_skill_only :
    ∃ vol' : SkillVolume,
      (importTarball exampleHome .workspace (.ok ([skillEntry].map .ok)) (some "s")
        exampleSource none).Runs exampleWorld.Performs
        (dirsTo skillsAt) (.ok (installedInfo vol' exampleSource)) vol' ∧
      InstallsExactly exampleWorld exampleHome .workspace (archiveFiles [skillEntry]) "r" (some "s")
        (installedInfo vol' exampleSource) vol' := by
  obtain ⟨vol', -, hrun⟩ := runs_import extracts_skillOnly ready_skillOnly
  have hentries : ∀ e ∈ [skillEntry], e.Wrapped "r" := by
    intro e he
    obtain rfl := List.mem_singleton.mp he
    exact wrapped_of_place skillEntry_place
  have hwhole : Whole (archiveFiles [skillEntry]) "r" (some "s") := by
    rintro s sub ⟨⟩ hnames
    obtain rfl := hnames.unique exampleNames
    refine ⟨by simp [archive_skillOnly], fun q hq => ?_⟩
    rw [archive_skillOnly, ne_eq, ite_eq_right_iff, not_forall] at hq
    obtain ⟨rfl, -⟩ := hq
    decide
  exact ⟨vol', hrun, ((chosen_iff hentries (fun ms _ => exampleFresh ms)
    (by rintro s ⟨⟩; exact ⟨_, exampleNames⟩) vol').1 exampleSource none _ hrun).mpr hwhole⟩

/-- The rest of the archive is installed along with the subdirectory. -/
theorem readme_installed :
    ∃ vol' : SkillVolume,
      (importTarball exampleHome .workspace (.ok ([skillEntry, readmeEntry].map .ok)) (some "s")
        exampleSource none).Runs exampleWorld.Performs
        (dirsTo skillsAt) (.ok (installedInfo vol' exampleSource)) vol' ∧
      ¬ InstallsExactly exampleWorld exampleHome .workspace (archiveFiles [skillEntry, readmeEntry])
        "r" (some "s") (installedInfo vol' exampleSource) vol' := by
  obtain ⟨vol', hnodes, hrun⟩ := runs_import extracts_withReadme ready_withReadme
  refine ⟨vol', hrun, ?_⟩
  rintro ⟨dir, ⟨sub, hnames, rfl⟩, hfiles, -⟩
  obtain rfl := hnames.unique exampleNames
  have hhere : vol'.nodes (skillsAt ++ "s" :: ["r", "README.md"]) = some (.file readmeEntry.file) := by
    have hstill : withReadme.nodes (stagingAt ++ ["r", "README.md"]) = some (.file readmeEntry.file) := by
      decide
    rw [hnodes, NodeMap.move_child, NodeMap.move_elsewhere (by decide) (by decide), hstill]
  have hnot : archiveFiles [skillEntry, readmeEntry] ["r", "s", "r", "README.md"] = none := by
    have hkind : skillEntry.kind = .file := rfl
    have hkind' : readmeEntry.kind = .file := rfl
    simp [archiveFiles, addEntry, skillEntry_place, readmeEntry_place, hkind, hkind']
  exact NodeMap.fileAt_ne_none.mpr ⟨_, hhere⟩ ((hfiles ["r", "README.md"]).trans hnot)

end Example

end Tethys.Sync
