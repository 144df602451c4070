import Tethys.Sync.ImportSteps

/-!
# The search for a skill

`find_skill_root`: what is found lies in the staging directory and holds a `SKILL.md`, and where
one lies within the depth of the search, something is found. The states of a run may hold more
than the disk; all that matters is that looking leaves the disk alone.
-/

namespace Tethys.Sync

open Lib

variable {Hash α σ : Type}

/-- Runs whose states show a disk that stays as it is while the run looks around. -/
structure Looking (world : ImportWorld Hash) (disk : σ → SkillVolume)
    (step : σ → (op : ImportOp Hash) → op.Res → σ → Prop) (vol : SkillVolume) (I : σ → Prop) : Prop where
  performs : ∀ {s op r t}, step s op r t → world.Performs (disk s) op r (disk t)
  disk : ∀ {s}, I s → disk s = vol
  keeps : ∀ {s op r t}, I s → op.reads = true → step s op r t → I t

/-- The directory lies in the staging directory, and holds a `SKILL.md` if there are no links. -/
def Found (vol : SkillVolume) (staging : List String) (dir : Path) : Prop :=
  ∃ d, dir.place = staging ++ d ∧ ((∀ q, vol.nodes (staging ++ q) ≠ some .other) →
    vol.nodes.fileAt (staging ++ (d ++ ["SKILL.md"])) ≠ none)

/-- Some directory below holds a `SKILL.md`, so many levels down at most. -/
def HoldsSkill (vol : SkillVolume) (levels : Nat) (place : List String) : Prop :=
  ∃ d, d ≠ [] ∧ d.length ≤ levels ∧ vol.nodes.fileAt (place ++ (d ++ ["SKILL.md"])) ≠ none

/-- The directory, or one within five levels, holds a `SKILL.md`. -/
def Searchable (vol : SkillVolume) (staging : List String) : Prop :=
  vol.nodes.fileAt (staging ++ ["SKILL.md"]) ≠ none ∨ HoldsSkill vol 5 staging

variable {world : ImportWorld Hash} {disk : σ → SkillVolume}
  {step : σ → (op : ImportOp Hash) → op.Res → σ → Prop} {vol : SkillVolume} {I : σ → Prop}
  {post : Except SkillError α → σ → Prop} {staging : List String}
  {error : SkillError → ImportProgram Hash α}

/-- Whether a file is found where one is. -/
theorem isFile_eq {path : Path} {r : Bool} {vol' : SkillVolume} (hdots : .parent ∉ path.components)
    (h : world.Performs vol (.isFile path) r vol') :
    (r = true → vol.nodes path.place ≠ some .other → vol.nodes.fileAt path.place ≠ none) ∧
      (vol.nodes.fileAt path.place ≠ none → r = true) := by
  constructor
  · rintro rfl hnode
    have htrue := h.1.eq hnode hdots
    rw [NodeMap.fileAt_ne_none]
    cases hplace : vol.nodes path.place with
    | none => simp [hplace] at htrue
    | some node =>
      cases node with
      | dir => simp [hplace] at htrue
      | file data => exact ⟨data, rfl⟩
      | other => exact absurd hplace hnode
  · intro hfile
    obtain ⟨data, hdata⟩ := NodeMap.fileAt_ne_none.mp hfile
    rw [h.1.eq (by simp [hdata]) hdots, hdata]
    rfl

/-- The entries of one directory are looked at; `collect` looks into those without a `SKILL.md`. -/
theorem ensures_collectNames (hlook : Looking world disk step vol I) (levels : Nat) {dir : Path}
    {d : List String} (hdir : dir.place = staging ++ d) (hdots : .parent ∉ dir.components)
    {collect : Path → List Path → (List Path → ImportProgram Hash α) → ImportProgram Hash α}
    (hcollect : ∀ name s old after, I s → (∀ c ∈ old, Found vol staging c) →
      (∀ t new, I t → (∀ c ∈ new, Found vol staging c) →
        (old ≠ [] ∨ HoldsSkill vol levels (dir.place ++ [name]) → new ≠ []) →
        (after new).Ensures step post t) →
      (collect (dir.child name) old after).Ensures step post s)
    {names : List String} {s : σ} {old : List Path} {after : List Path → ImportProgram Hash α}
    (hs : I s) (hold : ∀ c ∈ old, Found vol staging c)
    (hafter : ∀ t new, I t → (∀ c ∈ new, Found vol staging c) →
      (old ≠ [] ∨ (∃ name ∈ names, ∃ e, e.length ≤ levels ∧
        vol.nodes.fileAt (dir.place ++ name :: (e ++ ["SKILL.md"])) ≠ none) → new ≠ []) →
      (after new).Ensures step post t) :
    (collectNames collect dir names old after).Ensures step post s := by
  induction names generalizing s old with
  | nil => exact hafter s old hs hold (by simp)
  | cons name names ih =>
    intro isDir t ht
    have hdirectory : world.Performs vol (.entryIsDir (dir.child name)) isDir _ :=
      hlook.disk hs ▸ hlook.performs ht
    replace hs := hlook.keeps hs rfl ht
    cases isDir with
    | false =>
      -- what is no directory holds nothing
      refine ih hs hold fun t new ht hnew hhit => hafter t new ht hnew fun h => hhit ?_
      refine h.imp_right ?_
      rintro ⟨other, hother, e, he, hfile⟩
      rcases List.mem_cons.mp hother with rfl | hother
      · obtain ⟨data, hdata⟩ := NodeMap.fileAt_ne_none.mp hfile
        have hbelow : vol.nodes ((dir.place ++ [other]) ++ (e ++ ["SKILL.md"])) ≠ none := by
          simp [hdata]
        have hdirectory := hdirectory.1.mpr (by simpa using Volume.dir_of_below hbelow (by simp))
        cases hdirectory
      · exact ⟨other, hother, e, he, hfile⟩
    | true =>
      intro isSkill t ht
      have hskill : world.Performs vol (.isFile ((dir.child name).child "SKILL.md")) isSkill _ :=
        hlook.disk hs ▸ hlook.performs ht
      obtain ⟨hsound, hcomplete⟩ := isFile_eq (by simpa using hdots) hskill
      simp only [Path.place_child, hdir, List.append_assoc, List.singleton_append] at hsound hcomplete
      replace hs := hlook.keeps hs rfl ht
      cases isSkill with
      | true =>
        refine ih hs (fun c hc => ?_) fun t new ht hnew hhit => hafter t new ht hnew fun _ =>
          hhit (.inl (by simp))
        rcases List.mem_append.mp hc with hc | hc
        · exact hold c hc
        · obtain rfl := List.mem_singleton.mp hc
          refine ⟨d ++ [name], by simp [hdir], fun hplain => ?_⟩
          simpa using hsound rfl (hplain _)
      | false =>
        refine hcollect name t old _ hs hold fun t new ht hnew hhit => ?_
        refine ih ht hnew fun t new' ht hnew' hhit' => hafter t new' ht hnew' fun h => hhit' ?_
        rcases h with h | ⟨other, hother, e, he, hfile⟩
        · exact .inl (hhit (.inl h))
        rcases List.mem_cons.mp hother with rfl | hother
        · refine .inl (hhit (.inr ⟨e, ?_, he, by simpa using hfile⟩))
          rintro rfl
          cases hcomplete (by simpa [hdir] using hfile)
        · exact .inr ⟨other, hother, e, he, hfile⟩

/-- A directory and those below it are searched, so many levels down. -/
theorem ensures_collectSkillDirs (hlook : Looking world disk step vol I)
    (hread : ∀ s path t, I s → step s (.readDir path) none t → (error .io).Ensures step post t)
    {levels : Nat} {dir : Path} {d : List String} (hdir : dir.place = staging ++ d)
    (hdots : .parent ∉ dir.components) {s : σ} {old : List Path}
    {after : List Path → ImportProgram Hash α} (hs : I s) (hold : ∀ c ∈ old, Found vol staging c)
    (hafter : ∀ t new, I t → (∀ c ∈ new, Found vol staging c) →
      (old ≠ [] ∨ HoldsSkill vol levels dir.place → new ≠ []) → (after new).Ensures step post t) :
    (collectSkillDirs error levels dir old after).Ensures step post s := by
  induction levels generalizing dir d s old after with
  | zero =>
    refine hafter s old hs hold fun h => h.elim id ?_
    rintro ⟨e, he, hlength, -⟩
    exact absurd (List.length_eq_zero_iff.mp (Nat.le_zero.mp hlength)) he
  | succ levels ih =>
    intro names t ht
    cases names with
    | none => exact hread s dir t hs ht
    | some names =>
      have hlists : Lists vol dir names :=
        (hlook.disk hs ▸ hlook.performs ht : world.Performs vol (.readDir dir) (some names) _).1 names rfl
      have hI := hlook.keeps hs rfl ht
      refine ensures_collectNames hlook levels hdir hdots
        (fun name s old after hs hold hafter => ?_) hI hold
        fun t new ht hnew hhit => hafter t new ht hnew fun h => hhit (h.imp_right ?_)
      · refine ih (d := d ++ [name]) (by simp [hdir]) (by simpa using hdots) hs hold ?_
        simpa using hafter
      · rintro ⟨e, he, hlength, hfile⟩
        obtain ⟨name, e, rfl⟩ := List.exists_cons_of_ne_nil he
        obtain ⟨data, hdata⟩ := NodeMap.fileAt_ne_none.mp hfile
        have hbelow : vol.nodes (dir.place ++ (name :: e ++ ["SKILL.md"])) ≠ none := by
          rw [hdata]
          nofun
        refine ⟨name, ?_, e, by simpa using hlength, by simpa using hfile⟩
        rcases hlists with hother | ⟨-, -, hnames⟩
        · rw [Volume.dir_of_below hbelow (by simp)] at hother
          cases hother
        · refine (hnames name).mpr fun hnone => hbelow ?_
          simpa using Volume.none_below hnone (e ++ ["SKILL.md"])

/-- The search goes on with a directory that it found, the staging directory first. -/
theorem ensures_findSkillRoot (hlook : Looking world disk step vol I)
    (hread : ∀ s path t, I s → step s (.readDir path) none t → (error .io).Ensures step post t)
    {path : Path} (hplace : path.place = staging) (hdots : .parent ∉ path.components) {s : σ}
    (hdisk : disk s = vol) (hstart : ∀ r t, step s (.isFile (path.child "SKILL.md")) r t → I t)
    (hmissing : ¬ Searchable vol staging → ∀ t, I t →
      (error (.registry "archive does not contain a SKILL.md")).Ensures step post t)
    {next : Path → ImportProgram Hash α}
    (hnext : ∀ t root, I t → Found vol staging root →
      (root.place = staging ∨ vol.nodes.fileAt (staging ++ ["SKILL.md"]) = none) →
      (next root).Ensures step post t) :
    (findSkillRoot path error next).Ensures step post s := by
  intro isSkill t ht
  have hskill : world.Performs vol (.isFile (path.child "SKILL.md")) isSkill _ :=
    hdisk ▸ hlook.performs ht
  obtain ⟨hsound, hcomplete⟩ := isFile_eq (by simpa using hdots) hskill
  rw [Path.place_child, hplace] at hsound hcomplete
  have hI := hstart _ t ht
  cases isSkill with
  | true =>
    refine hnext t path hI ⟨[], by simp [hplace], fun hplain => ?_⟩ (.inl hplace)
    simpa using hsound rfl (hplain _)
  | false =>
    have hnone : vol.nodes.fileAt (staging ++ ["SKILL.md"]) = none := by
      by_contra hfile
      cases hcomplete hfile
    have hdir : path.place = staging ++ [] := by rw [hplace, List.append_nil]
    refine ensures_collectSkillDirs hlook hread hdir hdots hI (by simp) fun t new ht hnew hhit => ?_
    split
    · rename_i hsorted
      refine hmissing (fun h => ?_) t ht
      have hnil : new = [] := by simpa using congrArg List.length hsorted
      exact hhit (.inr (hplace ▸ h.resolve_left (by simp [hnone]))) hnil
    · rename_i root _ hsorted
      have hmem : root ∈ new := List.mem_mergeSort.mp (hsorted ▸ List.mem_cons_self)
      exact hnext t root ht (hnew root hmem) (.inr hnone)

end Tethys.Sync
