import Tethys.Sync.Jail
import Tethys.Sync.Search

/-!
# What a failed import leaves behind

An import works in a staging directory, and moves an old skill into a trash directory before it puts
the new one in its place. It removes the staging directory when an archive cannot be unpacked or the
last move fails, but gives up without a word in between; and what happens after the last move is not
taken back. `failed_import_leaves_no_trace` says that no other step leaves anything behind.
-/

namespace Tethys.Sync

open Lib Schema

/-- The names of staging and trash directories. No skill is listed whose name begins with a dot. -/
def StagingName (name : String) : Prop := ".staging-".toList <+: name.toList

def TrashName (name : String) : Prop := ".trash-".toList <+: name.toList

/-- What has the name in the skills directory is as it was, or was a staging or trash directory and is
gone. -/
def Traceless (skills : List String) (vol vol' : SkillVolume) (name : String) : Prop :=
  (∀ q, vol'.nodes (skills ++ name :: q) = vol.nodes (skills ++ name :: q)) ∨
    ((StagingName name ∨ TrashName name) ∧ ∀ q, vol'.nodes (skills ++ name :: q) = none)

/-- The skills are what they were, and no staging or trash directory is new. -/
def NoTrace (skills : List String) (vol vol' : SkillVolume) : Prop :=
  ∀ name, Traceless skills vol vol' name

/-- All directories can be read. -/
def SourceDir.readable : SourceDir → Bool
  | .nil => true
  | .file _ rest | .other _ rest => rest.readable
  | .dir _ children rest => children.readable && rest.readable
  | .unreadable _ _ => false

/-- The calls of the search for a `SKILL.md`. -/
def ImportOp.searches {Hash : Type} : ImportOp Hash → Bool
  | .isFile _ => true
  | _ => false

/-- The disk, and whether an import has begun to search for a `SKILL.md`. -/
structure ImportState where
  disk : SkillVolume
  searching : Bool

/-- A step of an import. -/
structure ImportWorld.Step {Hash : Type} (world : ImportWorld Hash) (s : ImportState)
    (op : ImportOp Hash) (r : op.Res) (t : ImportState) : Prop where
  performs : world.Performs s.disk op r t.disk
  searching : t.searching = (s.searching || op.searches)

section Calls
variable {Hash : Type} (home : SkillHome (List String)) (scope : Scope)

/-- From the wrapper directory of an archive, the subdirectory stays in the staging directory. -/
def SubdirStaged (subdir : String) : Prop :=
  ∀ ms wrapper, (stagingPath home scope "upstream" ms).place <+:
    (((stagingPath home scope "upstream" ms).child wrapper).join (.parse subdir)).place

variable {home scope}

def ImportCall.isFolder : ImportCall home scope Hash → Bool
  | folder .. => true
  | _ => false

/-- The explicit name is one for a skill, a folder can be read, and the subdirectory of a spec is one
of the archive. -/
def ImportCall.Plain : ImportCall home scope Hash → Prop
  | folder name _ _ entries =>
    (∀ n, name = some n → validateName n = .ok ()) ∧ ∃ dir, entries = some dir ∧ dir.readable = true
  | zip _ => True
  | tarball archive subdir _ _ =>
    ∀ s, subdir = some s → archiveAccepted archive = true → SubdirStaged home scope s
  | github spec =>
    ∀ parsed s, parseGithubSpec spec = .ok parsed → parsed.subdir = some s → SubdirStaged home scope s
  | update loaded =>
    loaded.info.source.repo.isSome = true →
      ∀ s, loaded.info.source.subdir = some s → SubdirStaged home scope s

/-- The steps that nobody cleans up after go well: a folder is copied, a `SKILL.md` is found and names
the skill, and once the new skill is in place, it can be read and recorded. So do those that clean up:
a staging directory is removed, and an old skill is moved back. -/
def ImportCall.Tidy (c : ImportCall home scope Hash) (s : ImportState) :
    (op : ImportOp Hash) → op.Res → Prop
  | .copy _ _, ok | .record _, ok => ok = true
  -- a directory of the folder
  | .createDirAll path, ok =>
    c.isFolder = true → (skillsPlace home scope).length + 2 ≤ path.place.length → ok = true
  -- the first step of the search
  | .isFile path, _ =>
    path.place.length = (skillsPlace home scope).length + 2 → Searchable s.disk path.place.dropLast
  | .readDir _, names => s.searching = true → names ≠ none
  | .readToString path, text =>
    ∃ name, (text.bind frontmatterName).or (path.parent.bind Path.fileName) = some name ∧
      validateName name = .ok ()
  | .inspect _, facts => facts ≠ none
  | .removeDirAll path, ok =>
    (∃ name, path.place = skillsPlace home scope ++ [name] ∧ StagingName name) →
      s.disk.nodes path.place ≠ none → ok = true
  | .rename source _, ok =>
    (∃ name, source.place = skillsPlace home scope ++ [name] ∧ TrashName name) → ok = true
  | _, _ => True

end Calls

/-! ## What a step leaves alone -/

section Frame
variable {Hash : Type} {world : ImportWorld Hash} {op : ImportOp Hash} {r : op.Res}
  {vol vol' : SkillVolume} {jail q : List String} {name other : String}

theorem not_along_of_ne (hne : other ≠ name) {place : List String} (h : jail ++ [name] <+: place) :
    ¬ Along place (jail ++ other :: q) := by
  have hbelow : ¬ jail ++ [name] <+: jail ++ other :: q := not_below_of_ne hne.symm
  have habove : ¬ jail ++ other :: q <+: jail ++ [name] := by
    simp [List.prefix_append_right_inj, List.cons_prefix_cons, hne]
  rintro (hq | hq)
  · exact hbelow (h.trans hq)
  · exact (List.prefix_or_prefix_of_prefix h hq).elim hbelow habove

/-- Neighbours are on the way neither to a staging directory nor to what is in it. -/
theorem notMem_placesOf {path : Path} (hop : path = .ofPlace jail ∨ Inside (jail ++ [name]) path)
    (hne : other ≠ name) : jail ++ other :: q ∉ placesOf path := by
  intro hmem
  rcases hop with rfl | hinside
  · exact absurd (mem_placesOf_ofPlace.mp hmem).length_le (by simp)
  · obtain ⟨n, -, hn⟩ := List.mem_map.mp hmem
    refine not_along_of_ne (q := q) hne (List.prefix_refl (jail ++ [name])) ?_
    exact (hn ▸ hinside.along n).symm

/-- An archive is unpacked below the destination. -/
theorem unpacks_beside {entry : TarEntry} {destination : List String} (h : Unpacks vol entry destination vol')
    (hapart : ∀ rest, ¬ Along (destination ++ rest) q) : vol'.nodes q = vol.nodes q := by
  have hway : ∀ rest, q ∉ (destination ++ rest).inits := fun rest hmem =>
    hapart rest (.inr ((List.mem_inits _ _).mp hmem))
  unfold Unpacks at h
  split_ifs at h with hplace
  · rw [h]
  dsimp only at h
  split at h
  · rw [h.2, NodeMap.make_of_notMem (hway _)]
  · rw [List.dropLast_append_of_ne_nil hplace] at h
    have hself : q ≠ destination ++ entry.place := fun heq =>
      hapart entry.place (.inl (heq ▸ List.prefix_refl _))
    rw [h.2.2, NodeMap.put, if_neg hself, NodeMap.make_of_notMem (hway _)]
  · exact h.elim

/-- What is done in a staging directory leaves its neighbours alone. -/
theorem performs_beside (hop : stagingOp jail name op) (hne : other ≠ name)
    (h : world.Performs vol op r vol') :
    vol'.nodes (jail ++ other :: q) = vol.nodes (jail ++ other :: q) := by
  have hbelow : ∀ place, jail ++ [name] <+: place → ¬ place <+: jail ++ other :: q :=
    fun place hplace hq => not_along_of_ne hne hplace (.inl hq)
  have hself : ∀ place, jail ++ [name] <+: place → jail ++ other :: q ≠ place :=
    fun place hplace heq => hbelow place hplace (heq ▸ List.prefix_refl _)
  cases op with
  | createDirAll path =>
    have hway := notMem_placesOf (q := q) hop hne
    cases r with
    | true => rw [h.2, NodeMap.make_of_notMem hway]
    | false => exact (h _).resolve_right fun hmade => hway hmade.1
  | createFile path =>
    cases r with
    | true =>
      obtain ⟨-, file, hnodes⟩ := h
      rw [hnodes, NodeMap.put, if_neg (hself _ hop.2)]
    | false => exact (h _).resolve_right (hself _ hop.2)
  | copy source target =>
    cases r with
    | true =>
      obtain ⟨-, file, -, hnodes⟩ := h
      rw [hnodes, NodeMap.put, if_neg (hself _ hop.2)]
    | false => exact (h _).resolve_right (hself _ hop.2)
  | rename source target =>
    cases r with
    | true => rw [h.2, NodeMap.move_elsewhere (hbelow _ hop.2.2) (hbelow _ hop.1.2)]
    | false => rw [h]
  | removeDirAll path =>
    cases r with
    | true => rw [h.2, NodeMap.remove_elsewhere (hbelow _ hop.2)]
    | false => exact (h _).resolve_right fun hgone => hbelow _ hop.2 hgone.1
  | unpackIn entry destination =>
    cases r with
    | ok => exact unpacks_beside h fun rest => not_along_of_ne hne (hop.2.trans (List.prefix_append _ _))
    | error => exact (h _).resolve_right fun hgone => hbelow _ hop.2 hgone.1
  | _ => rw [h.eq_of_reads rfl]

end Frame

/-! ## What follows a failure -/

section Traces
variable {Hash : Type} {home : SkillHome (List String)} {scope : Scope}
  {c : ImportCall home scope Hash} {world : ImportWorld Hash} {vol : SkillVolume}

variable (world) in
/-- A step that is taken alone and is tidy. -/
def ImportCall.Step (c : ImportCall home scope Hash) (s : ImportState) (op : ImportOp Hash) (r : op.Res)
    (t : ImportState) : Prop :=
  world.Step s op r t ∧ c.Tidy s op r

variable (c world vol) in
/-- From a disk with the property, the program leaves no trace when it fails. -/
def Holds (I : SkillVolume → Prop) (p : ImportProgram Hash) : Prop :=
  ∀ s : ImportState, I s.disk → p.Ensures (c.Step world)
    (fun result t => ∀ e, result = .error e → NoTrace (skillsPlace home scope) vol t.disk) s

variable (home scope) in
/-- What has the name in the skills directory. -/
abbrev skillsChild (name : String) : Path := (Path.ofPlace (skillsPlace home scope)).child name

theorem place_skillsChild {name : String} :
    (skillsChild home scope name).place = skillsPlace home scope ++ [name] := by
  rw [Path.place_child, Path.place_ofPlace]

theorem inside_skillsChild {name : String} :
    Inside (skillsPlace home scope ++ [name]) (skillsChild home scope name) := by
  rw [skillsChild, Path.child_ofPlace]
  exact inside_jail

variable (home scope vol) in
/-- No trace beside one staging directory. -/
def NoTraceBeside (name : String) (vol' : SkillVolume) : Prop :=
  ∀ other, other ≠ name → Traceless (skillsPlace home scope) vol vol' other

variable {I J : SkillVolume → Prop} {name hint : String} {staging : Path}

/-- A call that takes every disk with one property to a disk with another. -/
theorem Holds.call {op : ImportOp Hash} {next : op.Res → ImportProgram Hash}
    (hkeep : ∀ {vol r vol'}, I vol → world.Performs vol op r vol' → J vol')
    (hnext : ∀ r, Holds c world vol J (next r)) : Holds c world vol I (.call op next) :=
  fun _ hs r t hstep => hnext r t (hkeep hs hstep.1.performs)

/-- Looking changes nothing. -/
theorem Holds.look {op : ImportOp Hash} {next : op.Res → ImportProgram Hash} (hop : op.reads = true)
    (hnext : ∀ r, Holds c world vol I (next r)) : Holds c world vol I (.call op next) :=
  .call (fun hI h => h.eq_of_reads hop ▸ hI) hnext

theorem Traceless.congr {skills : List String} {vol' vol'' : SkillVolume}
    (h : Traceless skills vol vol' name)
    (heq : ∀ q, vol''.nodes (skills ++ name :: q) = vol'.nodes (skills ++ name :: q)) :
    Traceless skills vol vol'' name :=
  h.imp (fun hsame q => (heq q).trans (hsame q))
    fun hgone => ⟨hgone.1, fun q => (heq q).trans (hgone.2 q)⟩

theorem holds_fail (e : SkillError) : Holds c world vol (NoTrace (skillsPlace home scope) vol) (fail e) :=
  fun _ hs _ _ => hs

theorem closed_holds :
    Closed (stagingOp (skillsPlace home scope) name) (Holds c world vol (NoTraceBeside home scope vol name)) :=
  fun _ _ hop hnext => .call
    (fun hI h other hne => (hI other hne).congr fun _ => performs_beside hop hne h) hnext

/-- Once the staging directory is removed, no trace is left. -/
theorem holds_cleanUp (hstaging : staging = skillsChild home scope name)
    (hname : StagingName name) (e : SkillError) :
    Holds c world vol (NoTraceBeside home scope vol name) (removeDirAll staging (fail e)) := by
  rintro s hs r t ⟨hstep, htidy⟩ - - other
  have hplace : staging.place = skillsPlace home scope ++ [name] := hstaging ▸ place_skillsChild
  have hop : stagingOp (skillsPlace home scope) name (.removeDirAll staging : ImportOp Hash) :=
    ⟨hstaging ▸ rfl, hplace ▸ List.prefix_refl _⟩
  by_cases hne : other = name
  · subst hne
    refine .inr ⟨.inl hname, fun q => ?_⟩
    have hbelow : staging.place <+: skillsPlace home scope ++ other :: q := by simp [hplace]
    cases r with
    | true => rw [hstep.performs.2, NodeMap.remove_below hbelow]
    | false =>
      -- what is not removed was not there
      have hnone : s.disk.nodes staging.place = none := by
        by_contra hthere
        cases htidy ⟨other, hplace, hname⟩ hthere
      have hsame : s.disk.nodes (skillsPlace home scope ++ other :: q) = none := by
        simpa [hplace] using Volume.none_below hnone q
      exact (hstep.performs _).elim (·.trans hsame) (·.2.2)
  · exact (hs other hne).congr fun q => performs_beside hop hne hstep.performs

/-! ## Staging -/

/-- Making the way to the skills directory changes nothing in it. -/
theorem nodes_of_createSkills {vol vol' : SkillVolume} {jail q : List String} {r : Bool}
    (h : world.Performs vol (.createDirAll (.ofPlace jail)) r vol') (name : String) :
    vol'.nodes (jail ++ name :: q) = vol.nodes (jail ++ name :: q) := by
  have hway : jail ++ name :: q ∉ placesOf (.ofPlace jail) := fun hmem =>
    absurd (mem_placesOf_ofPlace.mp hmem).length_le (by simp)
  cases r with
  | true => rw [h.2, NodeMap.make_of_notMem hway]
  | false => exact (h _).resolve_right fun hmade => hway hmade.1

/-- A staging directory that cannot be made is not there. -/
theorem nodes_of_not_createDirAll {vol vol' : SkillVolume} {jail q : List String}
    (h : world.Performs vol (.createDirAll ((Path.ofPlace jail).child name)) false vol') (other : String) :
    vol'.nodes (jail ++ other :: q) = vol.nodes (jail ++ other :: q) := by
  refine (h _).resolve_right ?_
  rintro ⟨hmem, hself, -⟩
  rw [Path.child_ofPlace] at hmem hself
  exact hself (by simpa using (mem_placesOf_ofPlace.mp hmem).eq_of_length_le (by simp))

theorem holds_stageDir {next : Path → ImportProgram Hash} (hslash : '/' ∉ hint.toList)
    (hnext : ∀ ms, Holds c world vol (NoTraceBeside home scope vol (stagingName hint ms))
      (next (skillsChild home scope (stagingName hint ms)))) :
    Holds c world vol (NoTrace (skillsPlace home scope) vol)
      (stageDir (.ofPlace (skillsPlace home scope)) hint next) := by
  refine .call (J := NoTrace (skillsPlace home scope) vol)
    (fun hI h other => (hI other).congr fun q => nodes_of_createSkills h other) fun ok => ?_
  split_ifs
  · refine .look rfl fun ms => ?_
    rw [join_stagingName hslash]
    intro s hs made t hmade
    cases made with
    | true =>
      have hop : stagingOp (skillsPlace home scope) (stagingName hint ms) (.createDirAll
          (skillsChild home scope (stagingName hint ms)) : ImportOp Hash) :=
        Or.inr inside_skillsChild
      exact hnext ms t fun other hne =>
        (hs other).congr fun q => performs_beside hop hne hmade.1.performs
    | false =>
      refine holds_fail .io t fun other => (hs other).congr fun q => ?_
      exact nodes_of_not_createDirAll hmade.1.performs other
  · exact holds_fail .io

theorem isStaging_stagingName (hint : String) (ms : Nat) : StagingName (stagingName hint ms) := by
  simp only [StagingName, stagingName, String.toList_append, List.append_assoc]
  exact List.prefix_append _ _

/-! ## The swap -/

/-- The name under which an old skill is kept during the swap. -/
def trashName (skill : String) (ms : Nat) : String := ".trash-" ++ skill ++ "-" ++ toString ms

theorem isTrash_trashName {skill : String} {ms : Nat} : TrashName (trashName skill ms) := by
  simp only [TrashName, trashName, String.toList_append, List.append_assoc]
  exact List.prefix_append _ _

theorem ne_trashName (skill : String) (ms : Nat) : skill ≠ trashName skill ms := by
  intro heq
  have hlength := congrArg String.length heq
  simp only [trashName, String.length_append] at hlength
  have hdash : "-".length = 1 := rfl
  omega

/-- Once the new skill is in place, nothing fails. -/
theorem holds_recordInstalled {path : Path} {info : SkillFacts Hash → SkillInfo (List String) Hash} :
    Holds c world vol (fun _ => True) (recordInstalled path info) := by
  intro s _ facts t hfacts
  cases facts with
  | none => exact absurd rfl hfacts.2
  | some facts =>
    intro ok u hok
    obtain rfl : ok = true := hok.2
    intro e he
    cases he

theorem holds_swap {skill : String} {root : Path} {info : SkillFacts Hash → SkillInfo (List String) Hash}
    (hskill : validateName skill = .ok ())
    (hstaging : staging = skillsChild home scope name) (hname : StagingName name) :
    Holds c world vol (NoTraceBeside home scope vol name)
      (swapIntoPlace (skillPath home scope skill) root (fun e => removeDirAll staging (fail e)) <|
        removeDirAll staging <| recordInstalled (skillPath home scope skill) info) := by
  have hfail : Holds c world vol (NoTraceBeside home scope vol name)
      (removeDirAll staging (fail .io)) := holds_cleanUp hstaging hname .io
  have hdone : Holds c world vol (fun _ => True)
      (removeDirAll staging (recordInstalled (skillPath home scope skill) info)) :=
    .call (fun _ _ => trivial) fun _ => holds_recordInstalled
  rw [skillPath_eq hskill] at hdone ⊢
  simp only [swapIntoPlace, Path.parent_child]
  refine .call (J := NoTraceBeside home scope vol name)
    (fun hI h other hne => (hI other hne).congr fun q => nodes_of_createSkills h other) fun ok => ?_
  split_ifs
  · refine .look rfl fun isThere => ?_
    split_ifs
    · refine .look rfl fun ms => ?_
      rw [trash_eq hskill]
      intro s hs moved t hmoved
      cases moved with
      | false => exact hfail t (hmoved.1.performs ▸ hs)
      | true =>
        intro replaced u hreplaced
        cases replaced with
        | true => exact fun _ v _ => hdone v trivial
        | false =>
          -- the old skill is moved back
          intro back v hback
          obtain rfl : back = true := hback.2 ⟨trashName skill ms, by simp [trashName], isTrash_trashName⟩
          have hnodes : ∀ x q, v.disk.nodes (skillsPlace home scope ++ x :: q) =
              if x = trashName skill ms then none else s.disk.nodes (skillsPlace home scope ++ x :: q) := by
            intro x q
            rw [hback.1.performs.2, hreplaced.1.performs, hmoved.1.performs.2]
            simp only [Path.place_child, Path.place_ofPlace]
            exact NodeMap.move_back (ne_trashName skill ms) x q
          refine hfail v fun other hne => ?_
          by_cases hother : other = trashName skill ms
          · exact .inr ⟨hother ▸ .inr isTrash_trashName, fun q => by rw [hnodes, if_pos hother]⟩
          · exact (hs other hne).congr fun q => by rw [hnodes, if_neg hother]
    · intro s hs replaced t hreplaced
      cases replaced with
      | true => exact hdone t trivial
      | false => exact hfail t (hreplaced.1.performs ▸ hs)
  · exact hfail

/-! ## The imports -/

/-- A search that begins in a tidy way finds something. -/
theorem holds_findSkillRoot {next : Path → ImportProgram Hash}
    (hnext : ∀ root, Holds c world vol (NoTraceBeside home scope vol name) (next root)) :
    Holds c world vol (NoTraceBeside home scope vol name)
      (findSkillRoot (skillsChild home scope name) fail next) := by
  intro s hs
  have hlook : Looking world ImportState.disk (c.Step world) s.disk fun t => t.disk = s.disk ∧
      t.searching = true ∧ Searchable s.disk (skillsPlace home scope ++ [name]) := by
    refine ⟨fun h => h.1.performs, fun h => h.1, ?_⟩
    rintro t op r u ⟨hdisk, hsearching, hsearch⟩ hreads hstep
    refine ⟨(hstep.1.performs.eq_of_reads hreads).trans hdisk, ?_, hsearch⟩
    rw [hstep.1.searching, hsearching, Bool.true_or]
  refine ensures_findSkillRoot hlook ?_ place_skillsChild (by simp [Path.ofPlace]) rfl ?_ ?_ ?_
  · rintro t path u ⟨-, hsearching, -⟩ hread
    exact absurd rfl (hread.2 hsearching)
  · intro r t hstep
    refine ⟨hstep.1.performs.eq_of_reads rfl, ?_, ?_⟩
    · rw [hstep.1.searching]
      exact Bool.or_true _
    · simpa using hstep.2 (by simp)
  · rintro hmissing t ⟨-, -, hsearch⟩
    exact absurd hsearch hmissing
  · rintro t root ⟨hdisk, -⟩ - -
    exact hnext root t (hdisk ▸ hs)

theorem holds_installStaged {explicitName : Option String} {source : SkillSource} {pinnedSha : Option String}
    (hexplicit : ∀ n, explicitName = some n → validateName n = .ok ()) (hname : StagingName name) :
    Holds c world vol (NoTraceBeside home scope vol name) (installStaged home scope
      (skillsChild home scope name) explicitName source pinnedSha) := by
  have hinstall : ∀ skill root, validateName skill = .ok () →
      Holds c world vol (NoTraceBeside home scope vol name) (installNamed home scope
        (skillsChild home scope name) root skill source pinnedSha) := by
    intro skill root hskill
    simp only [installNamed, hskill]
    exact holds_swap hskill rfl hname
  refine holds_findSkillRoot fun root => ?_
  cases explicitName with
  | some skill => exact hinstall skill root (hexplicit skill rfl)
  | none =>
    intro s hs text t htext
    obtain ⟨skill, hfound, hskill⟩ := htext.2
    rw [Path.parent_child, Option.bind_some] at hfound
    simp only [hfound]
    exact hinstall skill root hskill t (htext.1.performs.eq_of_reads rfl ▸ hs)

theorem holds_stageTarball {archive : Archive TarEntry} {subdir : Option String}
    {next : Path → ImportProgram Hash}
    (hsubdir : ∀ s, subdir = some s → archiveAccepted archive = true → SubdirStaged home scope s)
    (hnext : ∀ name, StagingName name → Holds c world vol (NoTraceBeside home scope vol name)
      (next (skillsChild home scope name))) :
    Holds c world vol (NoTrace (skillsPlace home scope) vol)
      (stageTarball (.ofPlace (skillsPlace home scope)) archive subdir next) := by
  refine holds_stageDir (by decide) fun ms => ?_
  have hname := isStaging_stagingName "upstream" ms
  have hsource : ∀ s, subdir = some s → archiveAccepted archive = true → ∀ wrapper,
      skillsPlace home scope ++ [stagingName "upstream" ms] <+:
        (((skillsChild home scope (stagingName "upstream" ms)).child wrapper).join (.parse s)).place := by
    intro s hs haccepted wrapper
    have hstaged := hsubdir s hs haccepted ms wrapper
    rwa [stagingPath_eq (by decide), place_skillsChild] at hstaged
  generalize stagingName "upstream" ms = name at *
  have hclean : ∀ e, Holds c world vol (NoTraceBeside home scope vol name)
      (removeDirAll (skillsChild home scope name) (fail e)) := holds_cleanUp rfl hname
  have hself : skillsPlace home scope ++ [name] <+: (skillsChild home scope name).place :=
    place_skillsChild ▸ List.prefix_refl _
  have hbelow : ∀ (path : Path) (n : String), skillsPlace home scope ++ [name] <+: path.place →
      skillsPlace home scope ++ [name] <+: (path.child n).place := by
    intro path n h
    rw [Path.place_child]
    exact h.trans (List.prefix_append _ _)
  refine closed_holds.extractTar (fun entry => ⟨rfl, hself⟩) hclean fun haccepted => ?_
  cases subdir with
  | some s =>
    exact closed_holds.stripWrapper (fun _ => trivial) (fun _ => trivial)
      (fun wrapper n => ⟨⟨Path.absolute_join rfl, hbelow _ n (hsource s rfl haccepted wrapper)⟩, rfl,
        hbelow _ n hself⟩) hclean (hnext name hname)
  | none =>
    exact closed_holds.stripSingleWrapper (fun _ => trivial) (fun _ => trivial)
      (fun wrapper n => ⟨⟨rfl, hbelow _ n (hbelow _ wrapper hself)⟩, rfl, hbelow _ n hself⟩) hclean
      (hnext name hname)

/-- Copying, by induction on the source. -/
theorem holds_copyDir (hfolder : c.isFolder = true) {entries : SourceDir}
    (hreadable : entries.readable = true) {source destination : Path} {next : ImportProgram Hash}
    (hinside : Inside (skillsPlace home scope ++ [name]) destination)
    (hnext : Holds c world vol (NoTraceBeside home scope vol name) next) :
    Holds c world vol (NoTraceBeside home scope vol name) (copyDir fail entries source destination next) := by
  induction entries generalizing source destination next with
  | nil => exact hnext
  | file n rest ih =>
    intro s hs ok t hok
    obtain rfl : ok = true := hok.2
    have hop : stagingOp (skillsPlace home scope) name
        (.copy (source.child n) (destination.child n) : ImportOp Hash) :=
      ⟨hinside.absolute, hinside.child.place⟩
    exact ih hreadable hinside hnext t fun other hne =>
      (hs other hne).congr fun q => performs_beside hop hne hok.1.performs
  | dir n children rest ihChildren ihRest =>
    obtain ⟨hchildren, hrest⟩ := Bool.and_eq_true_iff.mp hreadable
    intro s hs ok t hok
    have hlength : (skillsPlace home scope).length + 2 ≤ (destination.child n).place.length := by
      have := hinside.place.length_le
      rw [Path.place_child]
      simp only [List.length_append, List.length_singleton] at this ⊢
      omega
    obtain rfl : ok = true := hok.2 hfolder hlength
    have hop : stagingOp (skillsPlace home scope) name (.createDirAll (destination.child n) : ImportOp Hash) :=
      Or.inr hinside.child
    exact ihChildren hchildren hinside.child (ihRest hrest hinside hnext) t fun other hne =>
      (hs other hne).congr fun q => performs_beside hop hne hok.1.performs
  | unreadable n rest _ => cases hreadable
  | other n rest ih => exact ih hreadable hinside hnext

theorem holds_importTarball {archive : Archive TarEntry} {subdir : Option String} {source : SkillSource}
    {pinnedSha : Option String}
    (hsubdir : ∀ s, subdir = some s → archiveAccepted archive = true → SubdirStaged home scope s) :
    Holds c world vol (NoTrace (skillsPlace home scope) vol)
      (importTarball home scope archive subdir source pinnedSha) :=
  holds_stageTarball hsubdir fun _ hname => holds_installStaged nofun hname

/-- What came back from upstream is imported. -/
theorem holds_fetch {source : SkillSource}
    {next : Except SkillError (String × Archive TarEntry) → ImportProgram Hash}
    (hfail : ∀ e, next (.error e) = fail e)
    (hnext : ∀ sha archive,
      Holds c world vol (NoTrace (skillsPlace home scope) vol) (next (.ok (sha, archive)))) :
    Holds c world vol (NoTrace (skillsPlace home scope) vol) (.call (.fetch source) next) := by
  refine .look rfl fun answer => ?_
  cases answer with
  | error e => exact hfail e ▸ holds_fail e
  | ok answer => exact hnext answer.1 answer.2

theorem holds_program {enclosedName : String → Option String} (henclosed : EnclosedNames enclosedName)
    (hplain : c.Plain) :
    Holds c world vol (NoTrace (skillsPlace home scope) vol) (c.program enclosedName) := by
  cases c with
  | folder explicitName sourceDir url entries =>
    obtain ⟨hexplicit, dir, rfl, hreadable⟩ := hplain
    have hslash : '/' ∉ (explicitName.getD "skill").toList := by
      cases explicitName with
      | none => decide
      | some n => exact (validateName_eq_ok.mp (hexplicit n rfl)).2.1
    simp only [ImportCall.program, importFolder]
    refine holds_stageDir hslash fun ms => ?_
    exact holds_copyDir rfl hreadable inside_skillsChild
      (holds_installStaged hexplicit (isStaging_stagingName _ ms))
  | zip archive =>
    have hslash : '/' ∉ "skill".toList := by decide
    simp only [ImportCall.program, importZip]
    refine holds_stageDir hslash fun ms => ?_
    have hname := isStaging_stagingName "skill" ms
    exact closed_holds.extractZip henclosed (holds_cleanUp rfl hname)
      (holds_installStaged (by simp) hname)
  | tarball archive subdir source pinnedSha => exact holds_importTarball hplain
  | github spec =>
    simp only [ImportCall.program, importGithub]
    cases hparse : parseGithubSpec spec with
    | error e => exact holds_fail e
    | ok parsed =>
      exact holds_fetch (fun _ => rfl) fun sha archive =>
        holds_importTarball fun s hs _ => hplain parsed s hparse hs
  | update loaded =>
    simp only [ImportCall.program, updateInstalled]
    cases hrepo : loaded.info.source.repo with
    | none => exact holds_fail _
    | some repo =>
      have hsome : loaded.info.source.repo.isSome = true := by rw [hrepo, Option.isSome_some]
      refine holds_fetch (fun _ => rfl) fun sha archive => ?_
      refine holds_stageTarball (fun s hs _ => hplain hsome s hs) fun name hname => ?_
      exact holds_findSkillRoot fun root => holds_swap (loaded.named hsome) rfl hname

/-- An import that fails leaves the skills as they were and no staging or trash directory behind, if the
steps that nobody cleans up after go well. -/
theorem failed_import_leaves_no_trace {enclosedName : String → Option String}
    (henclosed : EnclosedNames enclosedName) (c : ImportCall home scope Hash) (hplain : c.Plain)
    (world : ImportWorld Hash) {vol : SkillVolume} {t : ImportState} {e : SkillError}
    (hrun : (c.program enclosedName).Runs (c.Step world) ⟨vol, false⟩ (.error e) t) :
    NoTrace (skillsPlace home scope) vol t.disk :=
  (holds_program henclosed hplain ⟨vol, false⟩ fun _ => .inl fun _ => rfl).of_runs hrun e rfl

end Traces

section Runs

/-- A step before the search. -/
theorem ImportWorld.Step.of_performs {Hash : Type} {world : ImportWorld Hash} {vol vol' : SkillVolume}
    {op : ImportOp Hash} {r : op.Res} (h : world.Performs vol op r vol') (hop : op.searches = false) :
    world.Step ⟨vol, false⟩ op r ⟨vol', false⟩ :=
  ⟨h, by rw [hop, Bool.or_false]⟩

/-- A step after it has begun. -/
theorem ImportWorld.Step.of_searching {Hash : Type} {world : ImportWorld Hash} {vol vol' : SkillVolume}
    {op : ImportOp Hash} {r : op.Res} (h : world.Performs vol op r vol') :
    world.Step ⟨vol, true⟩ op r ⟨vol', true⟩ := ⟨h, rfl⟩

def bareHome : SkillHome (List String) := ⟨["w"], ["h"]⟩

def bareWorld : ImportWorld Nat where
  now ms := ms = 0
  inspect _ := ⟨0, false⟩
  upstream _ := .error (.upstream "offline")

theorem performs_createDirAll {place place' : List String} (h : place <+: place') :
    bareWorld.Performs (dirsTo place) (.createDirAll (.ofPlace place')) true (dirsTo place') := by
  refine ⟨fun q _ file => ?_, ?_⟩
  · simp only [dirsTo]
    split_ifs <;> simp
  · rw [make_placesOf, make_dirsTo h]

theorem bareWorld_now : bareWorld.now 0 := rfl

/-- Nothing is in the staging directory yet. -/
theorem dirsTo_below {place : List String} {name : String} :
    (dirsTo place).nodes (place ++ [name]) = none := by
  simp only [dirsTo]
  exact if_neg fun h => absurd h.length_le (by simp)

theorem performs_searchEmpty {place : List String} {levels : Nat}
    {error : SkillError → ImportProgram Nat} {next : List Path → ImportProgram Nat}
    {result : Except SkillError (SkillInfo (List String) Nat)} {vol : SkillVolume}
    (h : (next []).Runs bareWorld.Performs (dirsTo place) result vol) :
    (collectSkillDirs error (levels + 1) (.ofPlace place) [] next).Runs bareWorld.Performs (dirsTo place)
      result vol := by
  have hread : bareWorld.Performs (dirsTo place) (.readDir (.ofPlace place)) (some [])
      (dirsTo place) := by
    refine ⟨?_, rfl⟩
    rintro names ⟨⟩
    exact .inr ⟨by simp [dirsTo], List.nodup_nil, fun name => by simp [dirsTo_below]⟩
  exact .call hread h

/-- An archive without a skill stays in its staging directory. -/
theorem empty_archive_leaves_staging :
    ¬ ∀ (c : ImportCall bareHome .workspace Nat) (e : SkillError) (vol vol' : SkillVolume),
      (c.program enclosedPlain).Runs bareWorld.Performs vol (.error e) vol' →
        NoTrace (skillsPlace bareHome .workspace) vol vol' := by
  intro h
  have hrun : ((.zip (.ok []) : ImportCall bareHome .workspace Nat).program enclosedPlain).Runs
      bareWorld.Performs (dirsTo (skillsPlace bareHome .workspace))
      (.error (.registry "archive does not contain a SKILL.md"))
      (dirsTo (skillsPlace bareHome .workspace ++ [stagingName "skill" 0])) := by
    have hslash : '/' ∉ "skill".toList := by decide
    simp only [ImportCall.program, importZip, stageDir, join_stagingName hslash, Path.child_ofPlace]
    refine .call (r := true) (performs_createDirAll (List.prefix_refl _)) ?_
    refine .call ⟨bareWorld_now, rfl⟩ ?_
    refine .call (r := true) (performs_createDirAll (List.prefix_append _ _)) ?_
    refine .call (r := false)
      ⟨.inr ⟨fun hthere => absurd hthere Bool.false_ne_true, fun _ hthere => ?_⟩, rfl⟩ ?_
    · rw [Path.place_child, Path.place_ofPlace, dirsTo_below] at hthere
      cases hthere
    · refine performs_searchEmpty ?_
      rw [List.mergeSort_nil]
      exact .ret _ _
  rcases h _ _ _ _ hrun (stagingName "skill" 0) with hsame | ⟨-, hnone⟩
  · have hthere : (dirsTo (skillsPlace bareHome .workspace)).nodes
        (skillsPlace bareHome .workspace ++ [stagingName "skill" 0]) = some .dir := by
      simpa [dirsTo] using (hsame []).symm
    simp [dirsTo_below] at hthere
  · simpa [dirsTo] using hnone []

/-! ## A skill that is not replaced -/

def bareSkills : List String := skillsPlace bareHome .workspace

def oldPlace : List String := bareSkills ++ ["s"]
def stagedPlace : List String := bareSkills ++ [".staging-s-0"]
def trashPlace : List String := bareSkills ++ [".trash-s-0"]

def oldFile : SkillFile := ⟨[1], false⟩
def newFile : SkillFile := ⟨[2], false⟩

/-- A skill of one file, and a folder with another one. -/
def oldDisk : SkillVolume where
  nodes q :=
    if q <+: oldPlace ∨ q = ["new"] then some .dir
    else if q = oldPlace ++ ["SKILL.md"] then some (.file oldFile)
    else if q = ["new", "SKILL.md"] then some (.file newFile)
    else none
  rooted q name h := by
    have hdir : q <+: oldPlace ∨ q = ["new"] := by
      beta_reduce at h
      split_ifs at h with hnode hold hnew
      · rcases hnode with hnode | hnode
        · exact .inl ((List.prefix_append q [name]).trans hnode)
        · obtain ⟨rfl, -⟩ := List.append_inj' (show q ++ [name] = [] ++ ["new"] from hnode) rfl
          exact .inl List.nil_prefix
      · obtain ⟨rfl, -⟩ := List.append_inj' hold rfl
        exact .inl (List.prefix_refl _)
      · obtain ⟨rfl, -⟩ := List.append_inj' (show q ++ [name] = ["new"] ++ ["SKILL.md"] from hnew) rfl
        exact .inr rfl
      · exact absurd rfl h
    exact if_pos hdir

theorem staged_free : ∀ q ∈ stagedPlace.inits, oldDisk.nodes q = none ∨ oldDisk.nodes q = some .dir := by
  decide

/-- The staging directory is made, -/
def stagedDisk : SkillVolume where
  nodes := oldDisk.nodes.make stagedPlace.inits
  rooted := oldDisk.rooted.make (fun place name h => (List.mem_inits _ _).mpr
    ((List.prefix_append place [name]).trans ((List.mem_inits _ _).mp h))) staged_free

/-- and the folder is copied. -/
def copiedDisk : SkillVolume where
  nodes := stagedDisk.nodes.put (stagedPlace ++ ["SKILL.md"]) newFile
  rooted := stagedDisk.rooted.put (by decide) (by decide)

theorem movable_old : copiedDisk.nodes.Movable oldPlace trashPlace := by
  refine ⟨by decide, by decide, fun place name heq => ?_, .inl (by decide)⟩
  obtain ⟨rfl, -⟩ := List.append_inj' heq rfl
  decide

/-- The old skill is out of the way, -/
def asideDisk : SkillVolume := ⟨_, copiedDisk.rooted.move movable_old⟩

theorem movable_trash : asideDisk.nodes.Movable trashPlace oldPlace := by
  refine ⟨by decide, by decide, fun place name heq => ?_, .inl (by decide)⟩
  obtain ⟨rfl, -⟩ := List.append_inj' heq rfl
  decide

/-- and back again. -/
def backDisk : SkillVolume := ⟨_, asideDisk.rooted.move movable_trash⟩

/-- The staging directory is removed. -/
def cleanDisk : SkillVolume where
  nodes := backDisk.nodes.remove stagedPlace
  rooted := backDisk.rooted.remove

theorem performs_there {vol : SkillVolume} {place : List String} (h : vol.nodes place = some .dir) :
    bareWorld.Performs vol (.createDirAll (.ofPlace place)) true vol := by
  refine ⟨fun q hq file => ?_, (make_placesOf_eq h).symm⟩
  rw [Volume.dir_of_initial h (mem_placesOf_ofPlace.mp hq)]
  simp

theorem performs_staged : bareWorld.Performs oldDisk (.createDirAll (.ofPlace stagedPlace)) true stagedDisk := by
  refine ⟨fun q hq file => ?_, (make_placesOf _ _).symm⟩
  rcases staged_free q ((List.mem_inits _ _).mpr (mem_placesOf_ofPlace.mp hq)) with h | h <;> simp [h]

theorem performs_copied : bareWorld.Performs stagedDisk (.copy ((Path.ofPlace ["new"]).child "SKILL.md")
    ((Path.ofPlace stagedPlace).child "SKILL.md")) true copiedDisk := by
  rw [Path.child_ofPlace, Path.child_ofPlace]
  exact ⟨by decide, newFile, by decide, rfl⟩

theorem performs_aside :
    bareWorld.Performs copiedDisk (.rename (.ofPlace oldPlace) (.ofPlace trashPlace)) true asideDisk := by
  simp only [ImportWorld.Performs, Path.place_ofPlace]
  exact ⟨movable_old, rfl⟩

theorem performs_back :
    bareWorld.Performs asideDisk (.rename (.ofPlace trashPlace) (.ofPlace oldPlace)) true backDisk := by
  simp only [ImportWorld.Performs, Path.place_ofPlace]
  exact ⟨movable_trash, rfl⟩

theorem performs_clean :
    bareWorld.Performs backDisk (.removeDirAll (.ofPlace stagedPlace)) true cleanDisk := by
  simp only [ImportWorld.Performs, Path.place_ofPlace]
  exact ⟨by decide, rfl⟩

theorem validateName_s : validateName "s" = .ok () := by decide +kernel

theorem skillPath_s : skillPath bareHome .workspace "s" = .ofPlace oldPlace := by
  rw [skillPath_eq validateName_s, Path.child_ofPlace]
  rfl

theorem join_staged : (Path.ofPlace (skillsPlace bareHome .workspace)).join (.parse (stagingName "s" 0)) =
    .ofPlace stagedPlace := by
  rw [join_stagingName (by decide), Path.child_ofPlace]
  decide +kernel

/-- The folder is to replace the skill. -/
def replacing : ImportCall bareHome .workspace Nat :=
  .folder (some "s") (.ofPlace ["new"]) "/new" (some (.file "SKILL.md" .nil))

/-- The new skill cannot be put in the place of the old one. -/
theorem replacing_runs : (replacing.program enclosedPlain).Runs (replacing.Step bareWorld)
    ⟨oldDisk, false⟩ (.error .io) ⟨cleanDisk, true⟩ := by
  have hparent : (Path.ofPlace oldPlace).parent = some (.ofPlace bareSkills) := by decide
  have htrash : withFileName (.ofPlace oldPlace)
      (".trash-" ++ (Path.ofPlace oldPlace).fileName.getD "skill" ++ "-" ++ toString 0) =
        .ofPlace trashPlace := by decide +kernel
  have hfound : bareWorld.Performs copiedDisk (.isFile ((Path.ofPlace stagedPlace).child "SKILL.md")) true
      copiedDisk := ⟨.inr ⟨fun _ => by decide, fun _ _ => rfl⟩, rfl⟩
  have hold : bareWorld.Performs copiedDisk (.exists (.ofPlace oldPlace)) true copiedDisk :=
    ⟨.inr ⟨fun _ => by decide, fun _ _ => rfl⟩, rfl⟩
  have hfails : bareWorld.Performs asideDisk (.rename (.ofPlace stagedPlace) (.ofPlace oldPlace)) false
      asideDisk := rfl
  -- the folder is copied into the staging directory
  simp only [replacing, ImportCall.program, importFolder, stageDir, Option.getD_some]
  refine .call (r := true) ⟨.of_performs (performs_there (by decide)) rfl, fun _ _ => rfl⟩ ?_
  refine .call ⟨.of_performs ⟨bareWorld_now, rfl⟩ rfl, trivial⟩ ?_
  rw [join_staged]
  refine .call (r := true) ⟨.of_performs performs_staged rfl, fun _ _ => rfl⟩ ?_
  refine .call ⟨.of_performs performs_copied rfl, rfl⟩ ?_
  refine .call (t := ⟨copiedDisk, true⟩) ⟨⟨hfound, rfl⟩, fun _ => .inl (by decide)⟩ ?_
  -- the old skill is moved away and, as the new one cannot be moved in, back
  simp only [installNamed, validateName_s, skillPath_s, swapIntoPlace, hparent]
  refine .call (r := true) ⟨.of_searching (performs_there (by decide)), fun _ _ => rfl⟩ ?_
  refine .call ⟨.of_searching hold, trivial⟩ ?_
  refine .call ⟨.of_searching ⟨bareWorld_now, rfl⟩, trivial⟩ ?_
  rw [htrash]
  refine .call ⟨.of_searching performs_aside, fun _ => rfl⟩ ?_
  refine .call ⟨.of_searching hfails, ?_⟩ ?_
  · rintro ⟨name, hplace, htrashed⟩
    rw [Path.place_ofPlace] at hplace
    obtain ⟨-, hname⟩ := List.append_inj' hplace rfl
    obtain rfl := (List.cons.inj hname).1
    exact absurd htrashed (by unfold TrashName; decide)
  refine .call ⟨.of_searching performs_back, fun _ => rfl⟩ ?_
  exact .call ⟨.of_searching performs_clean, fun _ _ => rfl⟩ (.ret _ _)

/-- The old skill is there again, and nothing else. -/
theorem failed_swap_leaves_no_trace :
    (replacing.program enclosedPlain).Runs (replacing.Step bareWorld) ⟨oldDisk, false⟩ (.error .io)
        ⟨cleanDisk, true⟩ ∧
      cleanDisk.nodes (oldPlace ++ ["SKILL.md"]) = some (.file oldFile) ∧
      NoTrace bareSkills oldDisk cleanDisk := by
  refine ⟨replacing_runs, by decide, ?_⟩
  refine failed_import_leaves_no_trace enclosedNames_enclosedPlain replacing ⟨fun n hn => ?_, _, rfl, rfl⟩
    bareWorld replacing_runs
  obtain rfl := Option.some.inj hn
  exact validateName_s

end Runs

end Tethys.Sync
