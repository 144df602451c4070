import Mathlib.Data.List.Nodup
import Tethys.Sync.Readback

/-!
# Projecting again

After a successful apply, a plan for the same list should find every entry in sync. The plan
compares the digest of the registry entry with the digest of what was read back from the
file, so a field that the vendor format does not carry keeps the entry pending for good.
`projection_settles_iff` gives the exact entries for which a second plan finds nothing to do.
-/

namespace Tethys.Sync

open Schema Lib

/-! ## What a plan reports -/

section Plan
variable {Hash : Type} [DecidableEq Hash] {D : Digests Hash} {F : Formats} {target : ProjectionTarget} {owned : OrdMap String Hash}
  {onDisk : OrdMap String RegistryEntry} {desired : List (String × RegistryEntry)}

theorem planEntries_projections {projector : Projector} {content content' : String}
    {projections : List EntryProjection}
    (h : planEntries D projector owned onDisk content desired = .ok (content', projections)) :
    projections = desired.map (project D projector.target owned onDisk) := by
  induction desired generalizing content projections with
  | nil =>
    obtain ⟨-, rfl⟩ := Prod.mk.inj (Except.ok.inj h)
    rfl
  | cons e desired ih =>
    obtain ⟨⟨content₁, projection⟩, hround, h⟩ := bind_eq_ok h
    obtain ⟨⟨content₂, projections₂⟩, hrest, h⟩ := bind_eq_ok h
    obtain ⟨rfl, rfl⟩ := Prod.mk.inj (Except.ok.inj h)
    rw [planEntry_eq] at hround
    obtain ⟨_, _, heq⟩ := map_eq_ok hround
    obtain ⟨-, rfl⟩ := Prod.mk.inj heq
    rw [ih hrest, List.map_cons]

/-- A plan whose injections change nothing. -/
theorem planEntries_still {projector : Projector} {content : String}
    (h : ∀ e ∈ desired, writes D projector.target (owned.get e.1) (onDisk.get e.1) e.2 →
      projector.inject content e.1 e.2 = .ok content) :
    planEntries D projector owned onDisk content desired =
      .ok (content, desired.map (project D projector.target owned onDisk)) := by
  induction desired with
  | nil => rfl
  | cons e desired ih =>
    rw [List.forall_mem_cons] at h
    have hround : planEntry D projector owned onDisk content e.1 e.2 =
        .ok (content, project D projector.target owned onDisk e) := by
      rw [planEntry_eq]
      split_ifs with hw
      · rw [h.1 hw]
        rfl
      · rfl
    unfold planEntries
    rw [hround]
    simp only [bind, Except.bind, ih h.2]
    rfl

/-! ## What a plan makes of the document -/

/-- A name as it was: the same entry is read, and the same value stands in the table. -/
structure Kept (target : ProjectionTarget) (doc doc' : Node) (name : String) : Prop where
  read : docRead target doc' name = docRead target doc name
  value : (serversOf target doc').lookup name = (serversOf target doc).lookup name

/-- A name that was written: its value stands in the table, and is read unless shadowed. -/
structure Wrote (target : ProjectionTarget) (doc doc' : Node) (name : String) (value : Node) :
    Prop where
  shadowed : Shadowed target doc name → docRead target doc' name = docRead target doc name
  visible : ¬ Shadowed target doc name → docRead target doc' name = readNode target value
  value : (serversOf target doc').lookup name = some value

variable {doc doc' doc₁ : Node} {name x : String} {value : Node}

theorem lookup_putServer (servers : Members) :
    (putServer target name value servers).lookup x =
      if x = name then some value else servers.lookup x := by
  cases target with
  | codex => exact lookup_insertSorted name x value servers
  | _ => exact lookup_edit

theorem kept_putDoc (hs : DistinctServers target doc)
    (h : putDoc target name value doc = .ok doc') (hx : x ≠ name) : Kept target doc doc' x where
  read := docRead_putDoc_of_ne hs h hx
  value := by rw [serversOf_putDoc h, lookup_putServer, if_neg hx]

theorem wrote_putDoc (hs : DistinctServers target doc)
    (h : putDoc target name value doc = .ok doc') : Wrote target doc doc' name value where
  shadowed := (docRead_putDoc hs h).1
  visible := (docRead_putDoc hs h).2
  value := by rw [serversOf_putDoc h, lookup_putServer, if_pos rfl]

theorem Kept.trans (h : Kept target doc doc₁ name) (h' : Kept target doc₁ doc' name) :
    Kept target doc doc' name where
  read := h'.read.trans h.read
  value := h'.value.trans h.value

theorem Wrote.kept (h : Wrote target doc doc₁ name value) (h' : Kept target doc₁ doc' name) :
    Wrote target doc doc' name value where
  shadowed hs := h'.read.trans (h.shadowed hs)
  visible hs := h'.read.trans (h.visible hs)
  value := h'.value.trans h.value

theorem Kept.wrote (h : Kept target doc doc₁ name)
    (hs : Shadowed target doc₁ name ↔ Shadowed target doc name)
    (h' : Wrote target doc₁ doc' name value) : Wrote target doc doc' name value where
  shadowed hd := (h'.shadowed (hs.mpr hd)).trans h.read
  visible hd := h'.visible (mt hs.mp hd)
  value := h'.value

/-- The document after the loop: what is written stands there, everything else is kept. -/
theorem planEntries_read {content content' : String} {projections : List EntryProjection}
    (hF : F.Sound) (hback : PrintsBack F target desired) (hnames : (desired.map Prod.fst).Nodup)
    (h : planEntries D (projectors F target) owned onDisk content desired =
      .ok (content', projections))
    (hdoc : openDoc F target content = .ok doc) :
    ∃ doc', openDoc F target content' = .ok doc' ∧
      (∀ name, (∀ entry, (name, entry) ∈ desired →
        ¬ writes D target.targetId (owned.get name) (onDisk.get name) entry) →
          Kept target doc doc' name) ∧
      ∀ name entry, (name, entry) ∈ desired →
        writes D target.targetId (owned.get name) (onDisk.get name) entry →
          ∃ value, entryNode target entry = .ok value ∧ Wrote target doc doc' name value := by
  induction desired generalizing content doc projections with
  | nil =>
    obtain ⟨rfl, -⟩ := Prod.mk.inj (Except.ok.inj h)
    exact ⟨doc, hdoc, fun _ _ => ⟨rfl, rfl⟩, fun _ _ hmem => (nomatch hmem)⟩
  | cons e desired ih =>
    obtain ⟨x, entry⟩ := e
    obtain ⟨hfresh, hnames⟩ := List.nodup_cons.mp hnames
    obtain ⟨⟨content₁, projection⟩, hround, h⟩ := bind_eq_ok h
    obtain ⟨⟨content₂, projections₂⟩, hrest, h⟩ := bind_eq_ok h
    obtain ⟨rfl, -⟩ := Prod.mk.inj (Except.ok.inj h)
    have hback' : PrintsBack F target desired := fun name entry hmem =>
      hback name entry (List.mem_cons_of_mem _ hmem)
    have hne : ∀ name entry', (name, entry') ∈ desired → name ≠ x := fun name entry' hmem heq =>
      hfresh (List.mem_map.mpr ⟨_, hmem, heq⟩)
    have hcontent := (planEntry_eq_ok hround).1
    rw [projectors_target] at hcontent
    by_cases hw : writes D target.targetId (owned.get x) (onDisk.get x) entry
    · rw [if_pos hw] at hcontent
      obtain ⟨doc₀, v, doc₁, hopen, hv, hput, rfl⟩ := inject_eq_ok hcontent
      obtain rfl := Except.ok.inj (hdoc.symm.trans hopen)
      have hopen₁ := hback x entry List.mem_cons_self content doc v doc₁ hdoc hv hput
      have hs := distinctServers_of_openDoc hF hdoc
      obtain ⟨doc', hdoc', hkept, hwrote⟩ := ih hback' hnames hrest hopen₁
      refine ⟨doc', hdoc', fun name hnone => ?_, fun name entry' hmem hw' => ?_⟩
      · have hname : name ≠ x := by
          rintro rfl
          exact hnone entry List.mem_cons_self hw
        exact (kept_putDoc hs hput hname).trans
          (hkept name fun entry' hmem => hnone entry' (List.mem_cons_of_mem _ hmem))
      · rcases List.mem_cons.mp hmem with heq | hmem
        · obtain ⟨rfl, rfl⟩ := Prod.mk.inj heq
          exact ⟨v, hv, (wrote_putDoc hs hput).kept
            (hkept name fun entry' hmem => absurd rfl (hne name entry' hmem))⟩
        · obtain ⟨v', hv', hwrote'⟩ := hwrote name entry' hmem hw'
          have hname := hne name entry' hmem
          exact ⟨v', hv', (kept_putDoc hs hput hname).wrote
            (shadowed_putDoc_of_ne hs hput hname) hwrote'⟩
    · rw [if_neg hw] at hcontent
      subst hcontent
      obtain ⟨doc', hdoc', hkept, hwrote⟩ := ih hback' hnames hrest hdoc
      refine ⟨doc', hdoc', fun name hnone => ?_, fun name entry' hmem hw' => ?_⟩
      · exact hkept name fun entry' hmem => hnone entry' (List.mem_cons_of_mem _ hmem)
      · rcases List.mem_cons.mp hmem with heq | hmem
        · obtain ⟨rfl, rfl⟩ := Prod.mk.inj heq
          exact absurd hw' hw
        · exact hwrote name entry' hmem hw'

/-! ## Planning again -/

/-- The entry in its own vendor format: what a target reads from the value it writes. -/
def throughFormat (target : ProjectionTarget) (entry : RegistryEntry) : Option RegistryEntry :=
  (entryNode target entry).toOption.bind (readNode target)

variable (D) in
/-- Written into a document, the entry is what is read under its name, and its vendor format
keeps its digest. -/
def Carried (target : ProjectionTarget) (doc : Node) (name : String) (entry : RegistryEntry) :
    Prop :=
  ¬ Shadowed target doc name ∧
    ∃ back, throughFormat target entry = some back ∧ entryDigest D back = entryDigest D entry

variable (D F) in
/-- A second plan for the same list, with the ownership that apply returned, finds every
supported entry in sync and no difference, and applying it leaves the bytes of the file. -/
def Settled (target : ProjectionTarget) (path : String) (scope : Scope)
    (desired : List (String × RegistryEntry)) (record : Applied Hash) (disk : Disk) : Prop :=
  ∃ again, plan D F ⟨projectors F target, path, scope, disk.files path, desired,
      record.entries⟩ = .ok again ∧
    (∀ projection ∈ again.entries,
      projection.state = .inSync ∨ projection.state = .unsupported) ∧
    again.diff = "" ∧
    ∀ now io record' disk', apply D (projectors F target) again disk now io =
      (.ok record', disk') → disk'.files path = disk.files path

/-- The state of an entry whose record is the digest of what is on disk. -/
theorem entryState_recorded (tag : TargetId) (current : Option RegistryEntry)
    (entry : RegistryEntry) :
    (entryState D tag (current.map (entryDigest D)) current entry).1 =
      if omitsSecrets tag entry then .unsupported
      else match current with
        | some back => if entryDigest D entry = entryDigest D back then .inSync else .pending
        | none => .pending := by
  unfold entryState
  cases hom : omitsSecrets tag entry with
  | true => rfl
  | false =>
    cases current with
    | none => rfl
    | some back =>
      by_cases hd : entryDigest D entry = entryDigest D back <;>
        simp [ownedState, hd]

omit [DecidableEq Hash] in
/-- Ownership after an apply: the digests of the entries that are read back. -/
theorem applied_get {planned : ProjectionPlan Hash} {readBack : OrdMap String RegistryEntry}
    {projection : EntryProjection} (hmem : projection ∈ planned.entries)
    (hprojected : projection.projected = true) :
    (applied D planned readBack).entries.get projection.name =
      (readBack.get projection.name).map (entryDigest D) := by
  have hlist : ((planned.entries.filter (·.projected)).filterMap fun entry =>
      (readBack.get entry.name).map fun written => (entry.name, entryDigest D written)) =
      (((planned.entries.filter (·.projected)).map (·.name)).filterMap fun name =>
        ((readBack.get name).map (entryDigest D)).map fun hash => (name, hash)) := by
    rw [List.filterMap_map]
    refine List.filterMap_congr fun entry _ => ?_
    simp [Function.comp_def]
  rw [applied, hlist, OrdMap.get_ofList_keyed, if_pos]
  exact List.mem_map_of_mem (List.mem_filter.mpr ⟨hmem, hprojected⟩)

omit [DecidableEq Hash] in
theorem state_ne_conflict {planned : ProjectionPlan Hash} (h : conflicts planned = [])
    {projection : EntryProjection} (hmem : projection ∈ planned.entries) :
    projection.state ≠ .conflict := by
  intro hstate
  have hin : projection.name ∈ conflicts planned :=
    List.mem_map_of_mem (List.mem_filter.mpr ⟨hmem, by simpa using hstate⟩)
  rw [h] at hin
  cases hin

/-- An apply records every desired entry that is not `sse`. -/
theorem applied_get_desired {planned : ProjectionPlan Hash} {tag : TargetId}
    {readBack : OrdMap String RegistryEntry}
    (hentries : planned.entries = desired.map (project D tag owned onDisk))
    (hconflicts : conflicts planned = []) {e : String × RegistryEntry} (he : e ∈ desired)
    (hsse : e.2.transport ≠ .sse) :
    (applied D planned readBack).entries.get e.1 = (readBack.get e.1).map (entryDigest D) := by
  have hmem : project D tag owned onDisk e ∈ planned.entries :=
    hentries ▸ List.mem_map_of_mem he
  have hstate := state_ne_conflict hconflicts hmem
  have hname : (project D tag owned onDisk e).name = e.1 := by
    simp [project, hsse]
  rw [← hname]
  refine applied_get hmem ?_
  simp only [project, hsse, if_false] at hstate ⊢
  simpa using hstate

/-- A supported entry that is neither written nor refused has the digest of what is on
disk. -/
theorem digest_of_unwritten {tag : TargetId} {hash : Option Hash} {current : Option RegistryEntry}
    {entry : RegistryEntry} (hsse : entry.transport ≠ .sse)
    (homits : omitsSecrets tag entry = false) (hw : ¬ writes D tag hash current entry)
    (hr : ¬ refuses D tag hash current entry) :
    ∃ back, current = some back ∧ entryDigest D entry = entryDigest D back := by
  cases current with
  | none => simp [writes, hsse] at hw
  | some back =>
    refine ⟨back, rfl, ?_⟩
    cases hash with
    | none => simp [refuses, hsse, homits] at hr
    | some hash =>
      simp [refuses, writes, hsse, homits] at hr hw
      exact (hw hr).trans hr.symm

theorem plan_readable {request : PlanRequest Hash} {planned : ProjectionPlan Hash}
    (target : ProjectionTarget) (hF : F.Sound) (hprojector : request.projector = projectors F target)
    (h : plan D F request = .ok planned) :
    ∃ doc, openDoc F target (request.original.getD "") = .ok doc := by
  unfold plan at h
  obtain ⟨onDisk, honDisk, -⟩ := bind_eq_ok h
  rw [hprojector] at honDisk
  cases hblank : blank (request.original.getD "") with
  | true => exact openDoc_of_readEntries hF (readEntries_of_blank hblank)
  | false =>
    simp only [entriesOnDisk, hblank, Bool.false_eq_true, if_false] at honDisk
    exact openDoc_of_readEntries hF honDisk

/-- A plan from the entries of the file and the result of the loop. -/
theorem plan_of_entries (path : String) (scope : Scope) {content content' : String}
    {projections : List EntryProjection}
    (hread : (projectors F target).readEntries content = .ok onDisk)
    (h : planEntries D (projectors F target) owned onDisk content desired =
      .ok (content', projections)) :
    ∃ planned, plan D F ⟨projectors F target, path, scope, some content, desired, owned⟩ =
        .ok planned ∧
      planned.path = path ∧ planned.content = content' ∧ planned.entries = projections ∧
      planned.diff = unifiedDiff F content content' := by
  have honDisk : entriesOnDisk (projectors F target) content = .ok onDisk := by
    cases hblank : blank content with
    | true =>
      rw [readEntries_of_blank hblank] at hread
      simpa [entriesOnDisk, hblank] using hread
    | false => simpa [entriesOnDisk, hblank] using hread
  unfold plan
  simp only [Option.getD_some, honDisk, bind, Except.bind, h]
  exact ⟨_, rfl, rfl, rfl, rfl, rfl⟩

/-- Injecting into a Codex file the value that stands there changes nothing. -/
theorem inject_still {content : String} {entry : RegistryEntry} (hF : F.Sound)
    (hsse : entry.transport ≠ .sse) (hdoc : openDoc F .codex content = .ok doc)
    (hvalue : entryNode .codex entry = .ok value)
    (hlookup : (serversOf .codex doc).lookup name = some value) :
    (projectors F .codex).inject content name entry = .ok content := by
  obtain ⟨root, hroot, rfl⟩ := map_eq_ok hdoc
  obtain ⟨table, htable, rfl⟩ := map_eq_ok hvalue
  have hs := distinctServers_of_openDoc hF hdoc rfl
  change ((((root.lookup "mcp_servers").bind Node.asTable).getD []).lookup name) = _ at hlookup
  change ((((root.lookup "mcp_servers").bind Node.asTable).getD []).Pairwise _) at hs
  cases hmcp : root.lookup "mcp_servers" with
  | none => simp [hmcp] at hlookup
  | some node =>
    cases node with
    | table servers =>
      simp only [hmcp, Option.bind_some, Node.asTable, Option.getD_some] at hlookup hs
      have hparse : F.toml.parse content = .ok root := by
        unfold Codex.document Toml.parse at hroot
        split_ifs at hroot
        · obtain rfl := Except.ok.inj hroot
          cases hmcp
        · cases hp : F.toml.parse content with
          | error message => rw [hp] at hroot; cases hroot
          | ok doc => rw [hp] at hroot; exact congrArg _ (Except.ok.inj hroot)
      have hservers : insertSorted name (.table table) servers = servers :=
        congrArg OrdMap.entries (OrdMap.insert_eq_self (m := ⟨servers, hs⟩) hlookup)
      have hkept : insertSorted "mcp_servers" (.table servers) root = root :=
        congrArg OrdMap.entries
          (OrdMap.insert_eq_self (m := ⟨root, (hF.distinctKeys content root hparse).1⟩) hmcp)
      change Codex.inject F content name entry = .ok content
      simp only [Codex.inject, hsse, if_false, hroot, bind, Except.bind, Toml.tableOrInsert, hmcp,
        htable, Except.map, hservers, hkept, pure, Except.pure]
      rw [hF.lossless content root hparse]
    | _ => simp [hmcp, Node.asTable] at hlookup

/-- A second plan settles exactly when it reads every supported entry back with the digest of
the desired one, as long as the entries whose secrets are omitted stand in the file. -/
theorem settled_iff_read {path content : String} {scope : Scope} {record : Applied Hash}
    {disk : Disk} {readBack : OrdMap String RegistryEntry} (hF : F.Sound)
    (hfile : disk.files path = some content) (hdoc : openDoc F target content = .ok doc)
    (hread : (projectors F target).readEntries content = .ok readBack)
    (howned : ∀ e ∈ desired, e.2.transport ≠ .sse →
      record.entries.get e.1 = (readBack.get e.1).map (entryDigest D))
    (homitted : ∀ e ∈ desired, omitsSecrets target.targetId e.2 →
      ∃ value, entryNode target e.2 = .ok value ∧
        (serversOf target doc).lookup e.1 = some value) :
    Settled D F target path scope desired record disk ↔
      ∀ e ∈ desired, e.2.transport ≠ .sse → omitsSecrets target.targetId e.2 = false →
        ∃ back, docRead target doc e.1 = some back ∧
          entryDigest D e.2 = entryDigest D back := by
  have hget : ∀ name, readBack.get name = docRead target doc name := by
    obtain ⟨entries, hentries, hget⟩ := readEntries_eq hF hdoc
    obtain rfl := Except.ok.inj (hread.symm.trans hentries)
    exact hget
  -- the state of an entry in the second plan
  have hstate : ∀ e ∈ desired, e.2.transport ≠ .sse →
      (project D target.targetId record.entries readBack e).state =
        if omitsSecrets target.targetId e.2 then .unsupported
        else match docRead target doc e.1 with
          | some back => if entryDigest D e.2 = entryDigest D back then .inSync else .pending
          | none => .pending := by
    intro e he hsse
    rw [← hget, ← entryState_recorded, ← howned e he hsse]
    simp only [project, hsse, if_false]
  have hread' : entriesRead F target content = readBack := by
    rw [entriesRead, hread]
  constructor
  · rintro ⟨again, hagain, hstates, -, -⟩ e he hsse homits
    rw [hfile] at hagain
    have hentries := planEntries_projections (plan_eq_ok hagain).1
    rw [projectors_target, Option.getD_some, hread'] at hentries
    have hin := hstates _ (hentries ▸ List.mem_map_of_mem he)
    rw [hstate e he hsse] at hin
    cases hd : docRead target doc e.1 with
    | none => simp [homits, hd] at hin
    | some back =>
      refine ⟨back, rfl, ?_⟩
      by_contra hne
      simp [homits, hd, hne] at hin
  · intro hcarried
    have hstill : ∀ e ∈ desired,
        writes D (projectors F target).target (record.entries.get e.1) (readBack.get e.1) e.2 →
          (projectors F target).inject content e.1 e.2 = .ok content := by
      intro e he hw
      have hsse : e.2.transport ≠ .sse := fun hsse => by simp [writes, hsse] at hw
      cases homits : omitsSecrets target.targetId e.2 with
      | true =>
        obtain ⟨value, hvalue, hlookup⟩ := homitted e he homits
        have hcodex : target = .codex := by
          cases target <;> simp [omitsSecrets, ProjectionTarget.targetId] at homits ⊢
        subst hcodex
        exact inject_still hF hsse hdoc hvalue hlookup
      | false =>
        obtain ⟨back, hback, hdigest⟩ := hcarried e he hsse homits
        simp [writes, homits, howned e he hsse, hget, hback, hdigest] at hw
    obtain ⟨again, hagain, hpath, hcontent, hentries, hdiff⟩ :=
      plan_of_entries path scope hread (planEntries_still hstill)
    refine ⟨again, by rw [hfile]; exact hagain, ?_, ?_, ?_⟩
    · intro projection hprojection
      rw [hentries] at hprojection
      obtain ⟨e, he, rfl⟩ := List.mem_map.mp hprojection
      rw [projectors_target]
      by_cases hsse : e.2.transport = .sse
      · simp [project, hsse]
      · rw [hstate e he hsse]
        cases homits : omitsSecrets target.targetId e.2 with
        | true => simp
        | false =>
          obtain ⟨back, hback, hdigest⟩ := hcarried e he hsse homits
          simp [hback, hdigest]
    · rw [hdiff, unifiedDiff, if_pos rfl]
    · intro now io record' disk' happly
      have hafter := apply_eq_ok happly
      rw [hpath, hcontent] at hafter
      rw [hafter, hfile]

/-- Plan and apply of a list with distinct names settle it if and only if every supported
entry that was written is carried by the file and the vendor format. -/
theorem projection_settles_iff (D : Digests Hash) (F : Formats) (target : ProjectionTarget)
    (path : String) (scope : Scope) (original : Option String)
    (desired : List (String × RegistryEntry)) (owned : OrdMap String Hash)
    (planned : ProjectionPlan Hash) (disk disk' : Disk) (now : Nat) (io : Io)
    (record : Applied Hash) (hF : F.Sound) (hback : PrintsBack F target desired)
    (hnames : (desired.map Prod.fst).Nodup)
    (hplan : plan D F ⟨projectors F target, path, scope, original, desired, owned⟩ = .ok planned)
    (happly : apply D (projectors F target) planned disk now io = (.ok record, disk')) :
    Settled D F target path scope desired record disk' ↔
      ∀ doc, openDoc F target (original.getD "") = .ok doc →
        ∀ name entry, (name, entry) ∈ desired → omitsSecrets target.targetId entry = false →
          writes D target.targetId (owned.get name)
            ((entriesRead F target (original.getD "")).get name) entry →
          Carried D target doc name entry := by
  obtain ⟨doc, hdoc⟩ := plan_readable target hF rfl hplan
  obtain ⟨hentries, rfl⟩ := plan_eq_ok hplan
  have hprojections := planEntries_projections hentries
  rw [projectors_target] at hprojections
  have hfile := apply_eq_ok happly
  obtain ⟨hconflicts, -, readBack, hread, rfl⟩ := apply_ok_cases happly
  obtain ⟨doc', hdoc', hkept, hwrote⟩ := planEntries_read hF hback hnames hentries hdoc
  have honDisk : ∀ name, (entriesRead F target (original.getD "")).get name =
      docRead target doc name := entriesRead_get hF hdoc
  have hrecorded : ∀ e ∈ desired, e.2.transport ≠ .sse →
      (applied D planned readBack).entries.get e.1 =
        (readBack.get e.1).map (entryDigest D) :=
    fun e he hsse => applied_get_desired hprojections hconflicts he hsse
  have homitted : ∀ e ∈ desired, omitsSecrets target.targetId e.2 →
      ∃ value, entryNode target e.2 = .ok value ∧
        (serversOf target doc').lookup e.1 = some value := by
    intro e he homits
    have hw : writes D target.targetId (owned.get e.1)
        ((entriesRead F target (original.getD "")).get e.1) e.2 := by
      have hsse : e.2.transport ≠ .sse := fun hsse => by simp [omitsSecrets, hsse] at homits
      simp [writes, homits, hsse]
    obtain ⟨value, hvalue, hw'⟩ := hwrote e.1 e.2 he hw
    exact ⟨value, hvalue, hw'.value⟩
  rw [settled_iff_read hF hfile hdoc' hread hrecorded homitted]
  constructor
  · intro hsettled doc₀ hdoc₀ name entry he homits hw
    obtain rfl := Except.ok.inj (hdoc.symm.trans hdoc₀)
    have hsse : entry.transport ≠ .sse := fun hsse => by simp [writes, hsse] at hw
    obtain ⟨back, hback, hdigest⟩ := hsettled (name, entry) he hsse homits
    obtain ⟨value, hvalue, hw'⟩ := hwrote name entry he hw
    by_cases hshadow : Shadowed target doc name
    · -- a shadowed entry was written because its digest is not the one that is read
      rw [hw'.shadowed hshadow] at hback
      cases ho : owned.get name with
      | none => simp [writes, homits, honDisk, hback, ho] at hw
      | some hash =>
        simp only [writes, homits, honDisk, hback, ho, Bool.false_or, Bool.and_eq_true,
          decide_eq_true_eq] at hw
        exact absurd (hdigest.trans hw.2.1) hw.2.2
    · refine ⟨hshadow, back, ?_, hdigest.symm⟩
      rw [hw'.visible hshadow] at hback
      simp [throughFormat, hvalue, Except.toOption, hback]
  · intro hcarried e he hsse homits
    by_cases hw : writes D target.targetId (owned.get e.1)
        ((entriesRead F target (original.getD "")).get e.1) e.2
    · obtain ⟨value, hvalue, hw'⟩ := hwrote e.1 e.2 he hw
      obtain ⟨hshadow, back, hthrough, hdigest⟩ := hcarried doc hdoc e.1 e.2 he homits hw
      refine ⟨back, ?_, hdigest.symm⟩
      rw [hw'.visible hshadow]
      simpa [throughFormat, hvalue, Except.toOption] using hthrough
    · -- an entry that was not written was in sync, and nothing touched it
      have hsame : docRead target doc' e.1 = docRead target doc e.1 := by
        refine (hkept e.1 fun entry hmem => ?_).read
        have heq : (e.1, entry) = e := List.inj_on_of_nodup_map hnames hmem he rfl
        rw [show entry = e.2 from congrArg Prod.snd heq]
        exact hw
      have hrefuses : ¬ refuses D target.targetId (owned.get e.1)
          ((entriesRead F target (original.getD "")).get e.1) e.2 := by
        intro hrefuses
        obtain ⟨projection, hprojection, hstate, -⟩ :=
          mem_conflicts_of_refuses hentries he hrefuses
        exact state_ne_conflict hconflicts hprojection hstate
      rw [hsame, ← honDisk]
      exact digest_of_unwritten hsse homits hw hrefuses

end Plan

/-! ## A new Codex file -/

/-- The formats on a Codex file with one server. -/
def oneServerFormats : Formats where
  json _ := ⟨fun _ => .ok (.object []), fun text _ => text⟩
  toml := (codexFormats
    [(overwritten, [("mcp_servers", .table [("github", commandTable "gh")])])]
    fun _ => overwritten).toml
  patch _ after := after

/-- Formats that know one Codex file, with one server. -/
theorem sound_of_one_file {F : Formats} {text name : String} {value : Node}
    (hjson : ∀ loose, (F.json loose).parse "\x7b\x7d" = .ok (.object []))
    (htoml : F.toml = (codexFormats [(text, [("mcp_servers", .table [(name, value)])])]
      fun _ => text).toml) : F.Sound := by
  have hparse : ∀ text' doc, F.toml.parse text' = .ok doc →
      text' = text ∧ doc = [("mcp_servers", .table [(name, value)])] := by
    intro text' doc h
    simp only [htoml, codexFormats, List.lookup_cons, List.lookup_nil] at h
    by_cases ht : text' = text
    · simp only [ht, BEq.rfl] at h
      exact ⟨ht, (Except.ok.inj h).symm⟩
    · simp [beq_false_of_ne ht] at h
  refine ⟨hjson, fun text' doc h => ?_, fun text' doc h => ?_⟩
  · obtain ⟨-, rfl⟩ := hparse text' doc h
    refine ⟨List.pairwise_singleton _ _, fun servers hs => ?_⟩
    obtain rfl : [(name, value)] = servers := by simpa using hs
    exact List.pairwise_singleton _ _
  · obtain ⟨rfl, -⟩ := hparse text' doc h
    rw [htoml]
    rfl

theorem oneServerFormats_sound : oneServerFormats.Sound :=
  sound_of_one_file (fun _ => rfl) rfl

/-- One stdio server with the given metadata. -/
def oneServer (entryMeta : EntryMeta) : List (String × RegistryEntry) :=
  [("github", { transport := .stdio, command := some "gh", entryMeta := entryMeta })]

theorem oneServerFormats_printsBack (entryMeta : EntryMeta) :
    PrintsBack oneServerFormats .codex (oneServer entryMeta) := by
  refine codexFormats_printsBack fun doc hdoc e he value doc' hvalue hput => ?_
  obtain rfl := List.mem_singleton.mp he
  -- the value does not depend on the metadata
  obtain rfl : commandTable "gh" = value := Except.ok.inj hvalue
  change putDoc .codex "github" (commandTable "gh") (.table doc) = _ at hput
  simp only [List.map_cons, List.map_nil, List.mem_cons, List.not_mem_nil, or_false] at hdoc
  rcases hdoc with rfl | rfl <;>
  · obtain rfl := Node.table.inj (Except.ok.inj hput)
    exact ⟨rfl, rfl⟩

def noFile : Disk where
  files _ := none
  backups _ := .empty
  pathHash _ := "00000000"

theorem projection_settles_plain :
    ∃ planned record disk',
      plan exactDigests oneServerFormats ⟨projectors oneServerFormats .codex, "config.toml", .global,
        none, oneServer {}, .empty⟩ = .ok planned ∧
      apply exactDigests (projectors oneServerFormats .codex) planned noFile 0 .ok =
        (.ok record, disk') ∧
      Settled exactDigests oneServerFormats .codex "config.toml" .global (oneServer {}) record
        disk' := by
  refine ⟨_, _, _, rfl, rfl, ?_⟩
  refine (projection_settles_iff exactDigests oneServerFormats .codex "config.toml" .global none
    (oneServer {}) .empty _ noFile _ 0 .ok _ oneServerFormats_sound
    (oneServerFormats_printsBack {}) (by decide) rfl rfl).mpr ?_
  intro doc hdoc name entry hmem _ _
  obtain rfl := Except.ok.inj hdoc
  obtain ⟨rfl, rfl⟩ := Prod.mk.inj (List.mem_singleton.mp hmem)
  refine ⟨?_, _, rfl, rfl⟩
  rintro (h | h) <;> cases h

/-- An entry with its scope set, as `mcp_registry_set` stores it, stays pending. -/
theorem projection_pending_scoped :
    ∃ planned record disk',
      plan exactDigests oneServerFormats ⟨projectors oneServerFormats .codex, "config.toml", .global,
        none, oneServer { scope := some .global }, .empty⟩ = .ok planned ∧
      apply exactDigests (projectors oneServerFormats .codex) planned noFile 0 .ok =
        (.ok record, disk') ∧
      ¬ Settled exactDigests oneServerFormats .codex "config.toml" .global
        (oneServer { scope := some .global }) record disk' := by
  refine ⟨_, _, _, rfl, rfl, ?_⟩
  rintro ⟨again, hagain, hstates, -⟩
  obtain rfl := Except.ok.inj hagain
  exact absurd (hstates _ List.mem_cons_self) (by decide)

end Tethys.Sync
