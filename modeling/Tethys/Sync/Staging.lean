import Tethys.Sync.ImportSteps
import Tethys.Sync.Jail

/-!
# What is staged

The staging directory of a tarball, from the extraction to the stripping of its wrapper: which
files of the archive stand where. The archive has one wrapper directory. Stripping it moves up
what lies below the wrapper, or below the subdirectory of a spec; whatever else the wrapper holds
stays in the staging directory.
-/

namespace Tethys.Sync

open Lib Schema

/-! ## Archives -/

/-- The files of an archive after one more entry; the last one of a path counts. -/
def addEntry (files : List String → Option SkillFile) (entry : TarEntry) :
    List String → Option SkillFile :=
  if entry.kind = .file ∧ entry.place ≠ [] then Function.update files entry.place (some entry.file)
  else files

def archiveFiles (entries : List TarEntry) : List String → Option SkillFile :=
  entries.foldl addEntry fun _ => none

/-- The entry is the wrapper directory, or below it. -/
def TarEntry.Wrapped (wrapper : String) (entry : TarEntry) : Prop :=
  entry.place = [] ∨ (entry.place = [wrapper] ∧ entry.kind = .dir) ∨
    ∃ name rest, entry.place = wrapper :: name :: rest

variable {Hash α : Type} {world : ImportWorld Hash}
  {post : Except SkillError α → SkillVolume → Prop} {vol : SkillVolume}

variable (world post) in
/-- Every run from the disk ends well. -/
abbrev Yields (vol : SkillVolume) (p : ImportProgram Hash α) : Prop :=
  p.Ensures world.Performs post vol

/-! ## Extraction -/

/-- The staging directory holds these files, all of them below the wrapper. -/
structure Staged (m : NodeMap SkillFile) (staging : List String) (wrapper : String)
    (files before : List String → Option SkillFile) : Prop where
  dir : m staging = some .dir
  file : ∀ q, m.fileAt (staging ++ q) = files q
  wrapped : ∀ name q, m (staging ++ name :: q) ≠ none → name = wrapper
  plain : ∀ q, m (staging ++ q) ≠ some .other
  noFile : files [wrapper] = none
  outside : ∀ q, ¬ staging <+: q → m.fileAt q = before q

variable {m : NodeMap SkillFile} {staging : List String} {wrapper : String}
  {files before : List String → Option SkillFile}

theorem Staged.make {rest : List String} (h : Staged m staging wrapper files before)
    (hfree : ∀ q, q <+: staging ++ rest → ∀ file, m q ≠ some (.file file))
    (hrest : ∀ name q, name :: q <+: rest → name = wrapper) :
    Staged (m.make (staging ++ rest).inits) staging wrapper files before := by
  have hfiles : ∀ q, (m.make (staging ++ rest).inits).fileAt q = m.fileAt q := fun q =>
    NodeMap.fileAt_make fun p hp => hfree p ((List.mem_inits _ _).mp hp)
  refine ⟨?_, fun q => (hfiles _).trans (h.file q), fun name q hne => ?_, fun q => ?_, h.noFile,
    fun q hq => (hfiles q).trans (h.outside q hq)⟩
  · simp [NodeMap.make, h.dir]
  · by_cases hmem : staging ++ name :: q ∈ (staging ++ rest).inits
    · exact hrest name q ((List.prefix_append_right_inj staging).mp ((List.mem_inits _ _).mp hmem))
    · rw [NodeMap.make_of_notMem hmem] at hne
      exact h.wrapped name q hne
  · have hplain := h.plain q
    unfold NodeMap.make
    split_ifs
    · cases hnode : m (staging ++ q) <;> simp_all
    · exact hplain

theorem Staged.put {name : String} {rest : List String} {file : SkillFile}
    (h : Staged m staging wrapper files before) :
    Staged (m.put (staging ++ wrapper :: name :: rest) file) staging wrapper
      (Function.update files (wrapper :: name :: rest) (some file)) before := by
  refine ⟨?_, fun q => ?_, fun other q hne => ?_, fun q => ?_, ?_, fun q hq => ?_⟩
  · simp [NodeMap.put, h.dir]
  · simp [NodeMap.fileAt_put, Function.update_apply, h.file]
  · unfold NodeMap.put at hne
    split_ifs at hne with heq
    · exact (List.cons.inj (List.append_cancel_left heq)).1
    · exact h.wrapped other q hne
  · unfold NodeMap.put
    split_ifs
    · simp
    · exact h.plain q
  · simp [h.noFile]
  · have hne : q ≠ staging ++ wrapper :: name :: rest := by
      rintro rfl
      exact hq (List.prefix_append _ _)
    rw [NodeMap.fileAt_put, if_neg hne, h.outside q hq]

/-- One entry is unpacked. -/
theorem Staged.unpack {entry : TarEntry} {vol' : SkillVolume}
    (h : Staged vol.nodes staging wrapper files before) (hentry : entry.Wrapped wrapper)
    (hunpack : Unpacks vol entry staging vol') :
    Staged vol'.nodes staging wrapper (addEntry files entry) before := by
  unfold Unpacks at hunpack
  split_ifs at hunpack with hplace
  · subst hunpack
    simpa [addEntry, hplace] using h
  have hhead : ∀ name q, name :: q <+: entry.place → name = wrapper := by
    rintro name q ⟨t, ht⟩
    rcases hentry with hnil | ⟨hone, -⟩ | ⟨other, rest, hmore⟩
    · exact absurd hnil hplace
    · rw [hone] at ht
      exact (List.cons.inj ht).1
    · rw [hmore] at ht
      exact (List.cons.inj ht).1
  cases hkind : entry.kind with
  | dir =>
    simp only [hkind] at hunpack
    obtain ⟨hfree, hnodes⟩ := hunpack
    rw [hnodes]
    simpa [addEntry, hkind] using h.make hfree hhead
  | file =>
    simp only [hkind] at hunpack
    obtain ⟨hfree, -, hnodes⟩ := hunpack
    obtain ⟨name, rest, hmore⟩ : ∃ name rest, entry.place = wrapper :: name :: rest := by
      rcases hentry with hnil | ⟨-, hdir⟩ | hmore
      · exact absurd hnil hplace
      · exact absurd (hdir.symm.trans hkind) (by simp)
      · exact hmore
    rw [List.dropLast_append_of_ne_nil hplace] at hfree hnodes
    have hmade := h.make hfree fun name q hq => hhead name q (hq.trans (List.dropLast_prefix _))
    rw [hnodes, addEntry, if_pos ⟨hkind, hplace⟩, hmore]
    exact (hmore ▸ hmade).put
  | other => simp [hkind] at hunpack

variable {destination : Path} {error : SkillError → ImportProgram Hash α} {next : ImportProgram Hash α}

/-- The whole archive is unpacked, or the extraction fails. -/
theorem yields_extractTarEntries {entries : List TarEntry} {count total : Nat}
    (hplace : destination.place = staging) (hentries : ∀ entry ∈ entries, entry.Wrapped wrapper)
    (herror : ∀ e t, Yields world post t (error e))
    (hnext : ∀ t : SkillVolume, Staged t.nodes staging wrapper (entries.foldl addEntry files) before →
      Yields world post t next)
    (h : Staged vol.nodes staging wrapper files before) :
    Yields world post vol
      (extractTarEntries destination error next count total (entries.map .ok)) := by
  induction entries generalizing vol files count total with
  | nil => exact hnext vol h
  | cons entry entries ih =>
    rw [List.forall_mem_cons] at hentries
    simp only [List.map_cons, extractTarEntries]
    split_ifs
    · exact herror _ _
    · exact herror _ _
    · exact herror _ _
    · intro r t hr
      cases r with
      | error message => exact herror _ _
      | ok =>
        have hunpack : Unpacks vol entry staging t := hplace ▸ hr
        exact ih hentries.2 hnext (h.unpack hentries.1 hunpack)

/-! ## Stripping the wrapper -/

/-- Some of the entries below the wrapper have been moved up. -/
structure Moving (base m : NodeMap SkillFile) (staging : List String) (wrapper : String)
    (sub names : List String) : Prop where
  notWrapper : wrapper ∉ names
  moved : ∀ name ∈ names, ∀ q, m (staging ++ name :: q) = base (staging ++ wrapper :: (sub ++ name :: q))
  free : ∀ name ∉ names, name ≠ wrapper → ∀ q, m (staging ++ name :: q) = none
  left : ∀ q, (∀ name ∈ names, ¬ sub ++ [name] <+: q) →
    m (staging ++ wrapper :: q) = base (staging ++ wrapper :: q)
  gone : ∀ name ∈ names, ∀ q, m (staging ++ wrapper :: (sub ++ name :: q)) = none
  dir : m staging = base staging
  outside : ∀ q, ¬ staging <+: q → m q = base q

variable {base : NodeMap SkillFile} {sub names : List String}

theorem Staged.moving (h : Staged base staging wrapper files before) :
    Moving base base staging wrapper sub [] := by
  refine ⟨by simp, by simp, fun name _ hne q => ?_, fun _ _ => rfl, by simp, rfl, fun _ _ => rfl⟩
  by_contra hnode
  exact hne (h.wrapped name q hnode)

/-- Nothing is moved onto the wrapper, which is not empty. -/
theorem Moving.ne_wrapper {name : String} {vol : SkillVolume}
    (hmove : vol.nodes.Movable (staging ++ wrapper :: (sub ++ [name])) (staging ++ [name])) :
    name ≠ wrapper := by
  rintro rfl
  have hsource : vol.nodes ((staging ++ [name]) ++ (sub ++ [name])) ≠ none := by
    simpa using hmove.there
  have hdir : vol.nodes (staging ++ [name]) = some .dir := Volume.dir_of_below hsource (by simp)
  obtain ⟨child, rest, hrest⟩ := List.exists_cons_of_ne_nil (l := sub ++ [name]) (by simp)
  have hchild : vol.nodes ((staging ++ [name]) ++ [child]) ≠ none := by
    rw [hrest, List.append_cons] at hsource
    exact fun hnone => hsource (Volume.none_below hnone rest)
  rcases hmove.free with hnone | heq | ⟨-, -, hempty⟩ | ⟨-, hno⟩
  · rw [hdir] at hnone
    cases hnone
  · have hlength := congrArg List.length heq
    simp at hlength
  · exact hchild (hempty child)
  · exact hno hdir

/-- One more entry is moved up. -/
theorem Moving.step {name : String} (h : Moving base m staging wrapper sub names)
    (hne : name ≠ wrapper) (hnew : name ∉ names) :
    Moving base (m.move (staging ++ wrapper :: (sub ++ [name])) (staging ++ [name])) staging wrapper
      sub (name :: names) := by
  have htarget : ∀ other q, staging ++ [name] <+: staging ++ other :: q ↔ name = other := by
    simp [List.prefix_append_right_inj, List.cons_prefix_cons]
  have hsource : ∀ other q, staging ++ wrapper :: (sub ++ [name]) <+: staging ++ other :: q ↔
      wrapper = other ∧ sub ++ [name] <+: q := by
    simp [List.prefix_append_right_inj, List.cons_prefix_cons]
  have hkeep : ∀ other q, name ≠ other → (wrapper = other → ¬ sub ++ [name] <+: q) →
      m.move (staging ++ wrapper :: (sub ++ [name])) (staging ++ [name]) (staging ++ other :: q) =
        m (staging ++ other :: q) := fun other q hname hwrapper =>
    NodeMap.move_elsewhere (fun hp => hname ((htarget other q).mp hp)) fun hp =>
      hwrapper ((hsource other q).mp hp).1 ((hsource other q).mp hp).2
  have hgone : ∀ q, sub ++ [name] <+: q →
      m.move (staging ++ wrapper :: (sub ++ [name])) (staging ++ [name]) (staging ++ wrapper :: q) =
        none := by
    intro q hq
    rw [NodeMap.move, if_neg (fun hp => hne ((htarget _ _).mp hp)), if_pos ((hsource _ _).mpr ⟨rfl, hq⟩)]
  have hshort : ∀ rest : List String, rest ≠ [] → ¬ staging ++ rest <+: staging := by
    intro rest hrest hp
    exact hrest (by simpa using hp.length_le)
  refine ⟨?_, ?_, ?_, ?_, ?_, ?_, ?_⟩
  · simp [hne.symm, h.notWrapper]
  · intro other hother q
    rcases List.mem_cons.mp hother with rfl | hother
    · have hmoved : m.move (staging ++ wrapper :: (sub ++ [other])) (staging ++ [other])
          ((staging ++ [other]) ++ q) = m ((staging ++ wrapper :: (sub ++ [other])) ++ q) :=
        NodeMap.move_target q
      simp only [List.append_assoc, List.cons_append, List.nil_append] at hmoved
      rw [hmoved]
      refine h.left _ fun done hdone hp => hnew ?_
      obtain rfl : done = other := by
        simpa [List.prefix_append_right_inj, List.cons_prefix_cons] using hp
      exact hdone
    · rw [hkeep other q (fun heq => hnew (heq ▸ hother)) fun heq => absurd (heq ▸ hother) h.notWrapper]
      exact h.moved other hother q
  · intro other hother hwrapper q
    rw [List.mem_cons, not_or] at hother
    rw [hkeep other q (Ne.symm hother.1) fun heq => absurd heq.symm hwrapper]
    exact h.free other hother.2 hwrapper q
  · intro q hq
    rw [List.forall_mem_cons] at hq
    rw [hkeep wrapper q hne fun _ => hq.1]
    exact h.left q hq.2
  · intro other hother q
    by_cases hp : sub ++ [name] <+: sub ++ other :: q
    · exact hgone _ hp
    · rw [hkeep wrapper _ hne fun _ => hp]
      refine h.gone other ?_ q
      rcases List.mem_cons.mp hother with rfl | hother
      · exact absurd (by simp [List.prefix_append_right_inj, List.cons_prefix_cons]) hp
      · exact hother
  · rw [NodeMap.move_elsewhere (hshort _ (by simp)) (hshort _ (by simp))]
    exact h.dir
  · intro q hq
    rw [NodeMap.move_elsewhere (fun hp => hq ((List.prefix_append _ _).trans hp))
      (fun hp => hq ((List.prefix_append _ _).trans hp))]
    exact h.outside q hq

/-- Whatever is in the staging directory was there before. -/
theorem Moving.from_base (h : Moving base m staging wrapper sub names) (q : List String) :
    m (staging ++ q) = none ∨ ∃ p, m (staging ++ q) = base (staging ++ p) := by
  cases q with
  | nil => exact .inr ⟨[], by simpa using h.dir⟩
  | cons name q =>
    by_cases hwrapper : name = wrapper
    · subst hwrapper
      by_cases hq : ∀ other ∈ names, ¬ sub ++ [other] <+: q
      · exact .inr ⟨_, h.left q hq⟩
      · push Not at hq
        obtain ⟨other, hother, rest, rfl⟩ := hq
        exact .inl (by simpa using h.gone other hother rest)
    · by_cases hname : name ∈ names
      · exact .inr ⟨_, h.moved name hname q⟩
      · exact .inl (h.free name hname hwrapper q)

/-- The wrapper has been stripped: what was below the subdirectory stands in the staging directory,
and the rest of the wrapper stands beside it. -/
structure Stripped (m : NodeMap SkillFile) (staging : List String) (wrapper : String)
    (sub : List String) (files before : List String → Option SkillFile) : Prop where
  dir : m staging = some .dir
  moved : ∀ name q, name ≠ wrapper →
    m.fileAt (staging ++ name :: q) = files (wrapper :: (sub ++ name :: q))
  left : ∀ q, ¬ sub <+: q → m.fileAt (staging ++ wrapper :: q) = files (wrapper :: q)
  gone : ∀ q, m.fileAt (staging ++ wrapper :: (sub ++ q)) = none
  wrapped : ∀ q, files q ≠ none → ∃ rest, q = wrapper :: rest
  noDir : files (wrapper :: sub) = none
  noWrapper : ∀ q, files (wrapper :: (sub ++ wrapper :: q)) = none
  plain : ∀ q, m (staging ++ q) ≠ some .other
  outside : ∀ q, ¬ staging <+: q → m.fileAt q = before q

/-- Every file of the archive lies below the wrapper. -/
theorem Staged.files_wrapped (h : Staged m staging wrapper files before) {q : List String}
    (hq : files q ≠ none) : ∃ rest, q = wrapper :: rest := by
  rw [← h.file] at hq
  obtain ⟨data, hdata⟩ := NodeMap.fileAt_ne_none.mp hq
  cases q with
  | nil => simp [h.dir] at hdata
  | cons name rest => exact ⟨rest, by rw [h.wrapped name rest (by simp [hdata])]⟩

/-- Once every entry below the subdirectory is moved, the wrapper is stripped. -/
theorem Moving.stripped (hbase : Staged vol.nodes staging wrapper files before)
    (hsub : vol.nodes (staging ++ wrapper :: sub) = some .dir)
    (hnames : ∀ name, name ∈ names ↔ vol.nodes (staging ++ wrapper :: (sub ++ [name])) ≠ none)
    (h : Moving vol.nodes m staging wrapper sub names) :
    Stripped m staging wrapper sub files before := by
  have hnone : ∀ name ∉ names, ∀ q, vol.nodes (staging ++ wrapper :: (sub ++ name :: q)) = none := by
    intro name hname q
    rw [hnames, not_not] at hname
    simpa using Volume.none_below hname q
  have hempty : ∀ q, vol.nodes q = none → vol.nodes.fileAt q = none := fun q hq =>
    NodeMap.fileAt_eq_none (by simp [hq])
  have hfiles : ∀ q, vol.nodes (staging ++ q) = none → files q = none := fun q hq =>
    (hbase.file q).symm.trans (hempty _ hq)
  have hstays : ∀ q, (∀ name ∈ names, ¬ sub ++ [name] <+: q) →
      m.fileAt (staging ++ wrapper :: q) = files (wrapper :: q) := fun q hq =>
    (NodeMap.fileAt_congr (h.left q hq)).trans (hbase.file _)
  have hdir : files (wrapper :: sub) = none := by
    rw [← hbase.file]
    exact NodeMap.fileAt_eq_none (by simp [hsub])
  refine ⟨h.dir.trans hbase.dir, fun name q hne => ?_, fun q hq => ?_, fun q => ?_,
    fun q hq => hbase.files_wrapped hq, hdir, fun q => ?_, fun q => ?_, fun q hq => ?_⟩
  · by_cases hname : name ∈ names
    · exact (NodeMap.fileAt_congr (h.moved name hname q)).trans (hbase.file _)
    · rw [hfiles _ (hnone name hname q)]
      exact NodeMap.fileAt_eq_none (by simp [h.free name hname hne q])
  · exact hstays q fun name _ hp => hq ((List.prefix_append _ _).trans hp)
  · cases q with
    | nil =>
      rw [List.append_nil, hstays sub ?_, hdir]
      exact fun name _ hp => absurd hp.length_le (by simp)
    | cons name q =>
      by_cases hname : name ∈ names
      · exact NodeMap.fileAt_eq_none (by simp [h.gone name hname q])
      · rw [hstays, hfiles _ (hnone name hname q)]
        intro other hother hp
        obtain rfl : other = name := by
          simpa [List.prefix_append_right_inj, List.cons_prefix_cons] using hp
        exact hname hother
  · exact hfiles _ (hnone wrapper h.notWrapper q)
  · rcases h.from_base q with hnone | ⟨p, hp⟩
    · simp [hnone]
    · rw [hp]
      exact hbase.plain p
  · exact (NodeMap.fileAt_congr (h.outside q hq)).trans (hbase.outside q hq)

section Strip
variable {source : Path}

/-- The rest of the entries is moved up. -/
theorem yields_moveAll {todo : List String} (hsource : source.place = staging ++ wrapper :: sub)
    (hplace : destination.place = staging) (htodo : todo.Nodup) (hnew : ∀ name ∈ todo, name ∉ names)
    (herror : ∀ e t, Yields world post t (error e))
    (hnext : ∀ t : SkillVolume, Moving base t.nodes staging wrapper sub (todo.reverse ++ names) →
      Yields world post t next)
    (h : Moving base vol.nodes staging wrapper sub names) :
    Yields world post vol (moveAll source destination error next todo) := by
  induction todo generalizing vol names with
  | nil => exact hnext vol h
  | cons name todo ih =>
    obtain ⟨hname, htodo⟩ := List.nodup_cons.mp htodo
    rw [List.forall_mem_cons] at hnew
    intro moved t hmoved
    cases moved with
    | false => exact herror _ _
    | true =>
      obtain ⟨hmove, hnodes⟩ := hmoved
      simp only [Path.place_child, hsource, hplace, List.append_assoc, List.cons_append] at hmove hnodes
      refine ih htodo (fun other hother => ?_) (fun t ht => hnext t (by simpa using ht))
        (hnodes ▸ h.step (Moving.ne_wrapper hmove) hnew.1)
      rw [List.mem_cons, not_or]
      exact ⟨fun heq => hname (heq ▸ hother), hnew.2 other hother⟩

theorem yields_moveContents (hsource : source.place = staging ++ wrapper :: sub)
    (hplace : destination.place = staging) (herror : ∀ e t, Yields world post t (error e))
    (hnext : ∀ t : SkillVolume, Stripped t.nodes staging wrapper sub files before →
      Yields world post t next)
    (h : Staged vol.nodes staging wrapper files before) :
    Yields world post vol (moveContents source destination error next) := by
  rintro names t ⟨hlists, rfl⟩
  cases names with
  | none => exact herror _ _
  | some names =>
    obtain hother | ⟨hdir, hnodup, hnames⟩ := hlists names rfl
    · exact absurd (hsource ▸ hother) (h.plain _)
    rw [hsource] at hdir hnames
    refine yields_moveAll hsource hplace hnodup (by simp) herror (fun u hu => hnext u ?_) h.moving
    refine Moving.stripped h hdir (fun name => ?_) hu
    simpa using hnames name

/-- Nothing but the wrapper is in the staging directory. -/
theorem Staged.lists (h : Staged vol.nodes staging wrapper files before)
    (hplace : destination.place = staging) (hlists : Lists vol destination names) :
    names = [] ∨ names = [wrapper] := by
  obtain hother | ⟨-, hnodup, hnames⟩ := hlists
  · exact absurd hother (by simpa [hplace] using h.plain [])
  have hall : ∀ name ∈ names, name = wrapper := fun name hname =>
    h.wrapped name [] (hplace ▸ (hnames name).mp hname)
  match names with
  | [] => exact .inl rfl
  | [name] => exact .inr (by rw [hall name (by simp)])
  | first :: second :: rest =>
    have heq : first = second := (hall first (by simp)).trans (hall second (by simp)).symm
    simp [heq] at hnodup

theorem yields_stripWrapper {subdir : String} (habsolute : (Path.parse subdir).absolute = false)
    (hsub : ∀ place, follow place (Path.parse subdir).components = place ++ sub)
    (hplace : destination.place = staging) (herror : ∀ e t, Yields world post t (error e))
    (hnext : ∀ t : SkillVolume, Stripped t.nodes staging wrapper sub files before →
      Yields world post t next)
    (h : Staged vol.nodes staging wrapper files before) :
    Yields world post vol (stripWrapper destination subdir error next) := by
  rintro names t ⟨hlists, rfl⟩
  cases names with
  | none => exact herror _ _
  | some names =>
    obtain rfl | rfl := h.lists hplace (hlists names rfl)
    · simpa only [filterDirs, List.mergeSort_nil] using herror _ _
    rintro isDir t ⟨-, rfl⟩
    cases isDir with
    | false => simpa [filterDirs] using herror _ _
    | true =>
      simp only [filterDirs, if_true, List.nil_append, List.mergeSort_singleton]
      rintro isSource t ⟨-, rfl⟩
      cases isSource with
      | false => exact herror _ _
      | true =>
        refine yields_moveContents ?_ hplace herror hnext h
        rw [Path.place_join habsolute, Path.place_child, hplace, hsub]
        simp

/-- An archive without files has no wrapper to strip. -/
theorem Staged.stripped_of_empty (h : Staged vol.nodes staging wrapper files before)
    (hempty : ∀ name, vol.nodes (staging ++ [name]) = none) :
    Stripped vol.nodes staging wrapper [] files before := by
  have hnone : ∀ name q, vol.nodes (staging ++ name :: q) = none := by
    intro name q
    simpa using Volume.none_below (hempty name) q
  have hfile : ∀ name q, vol.nodes.fileAt (staging ++ name :: q) = none := fun name q =>
    NodeMap.fileAt_eq_none (by simp [hnone name q])
  have hfiles : ∀ name q, files (name :: q) = none := fun name q =>
    (h.file _).symm.trans (hfile name q)
  exact ⟨h.dir, fun name q _ => (hfile name q).trans (hfiles _ _).symm,
    fun q hq => absurd (List.nil_prefix) hq, fun q => hfile _ _, fun q hq => h.files_wrapped hq,
    hfiles _ _, fun q => hfiles _ _, h.plain, h.outside⟩

/-- The wrapper is a directory, if it is there. -/
theorem Staged.wrapper_dir (h : Staged m staging wrapper files before)
    (hthere : m (staging ++ [wrapper]) ≠ none) : m (staging ++ [wrapper]) = some .dir := by
  have hfile := h.file [wrapper]
  rw [h.noFile] at hfile
  cases hnode : m (staging ++ [wrapper]) with
  | none => exact absurd hnode hthere
  | some node =>
    cases node with
    | dir => rfl
    | file data => simp [NodeMap.fileAt, hnode] at hfile
    | other => exact absurd hnode (h.plain _)

theorem yields_stripSingleWrapper (hplace : destination.place = staging)
    (hdots : .parent ∉ destination.components) (herror : ∀ e t, Yields world post t (error e))
    (hnext : ∀ t : SkillVolume, Stripped t.nodes staging wrapper [] files before →
      Yields world post t next)
    (h : Staged vol.nodes staging wrapper files before) :
    Yields world post vol (stripSingleWrapper destination error next) := by
  rintro names t ⟨hlists, rfl⟩
  cases names with
  | none => exact herror _ _
  | some names =>
    obtain hother | ⟨-, -, hnames⟩ := hlists names rfl
    · exact absurd hother (by simpa [hplace] using h.plain [])
    rw [hplace] at hnames
    obtain rfl | rfl := h.lists hplace (hlists names rfl)
    · exact hnext t (h.stripped_of_empty fun name => by simpa using hnames name)
    have hdir := h.wrapper_dir ((hnames wrapper).mp (by simp))
    rintro isDir t ⟨hprobe, rfl⟩
    cases isDir with
    | true =>
      refine yields_moveContents ?_ hplace herror hnext h
      simp [hplace]
    | false =>
      have htrue := hprobe.eq (by simp [hplace, hdir]) (by simpa using hdots)
      simp [hplace, hdir] at htrue

end Strip

end Tethys.Sync
