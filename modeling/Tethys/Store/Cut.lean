import Tethys.Store.Paging

/-!
# Thread views as cuts of the log

`open_thread` reads `latest_seq` and the page in two statements without a transaction. A view
is a consistent cut of the log when its entries are the page of the materialization of the
events up to the `latest_seq` it reports. Batches committed between the two statements break
this exactly when one of their upserts reaches the page.
-/

namespace Tethys.Store

open Lib Schema.Store

/-- The entry rows that a log of a thread materializes to. -/
def materialize (t : String) (events : List NewEvent) : List EntryRow :=
  (numbered t 0 events).foldl upserts.live []

/-- The page of a transcript. -/
def pageOf (page : EntryPage) (rows : List EntryRow) : List EntryRow :=
  lastPage page.limit.toNat (rows.filter fun row => below page.beforeFirstSeq row.firstSeq)

/-- The view shows the events up to its `latest_seq` and no others, and the events read after
`latest_seq` on a later store are the ones that follow. -/
structure ConsistentCut (s : EventStore) (t : String) (page : EntryPage) (view : ThreadView) :
    Prop where
  entries : view.entries =
    (pageOf page (materialize t ((s.accepted t).take view.latestSeq))).map EntryRow.entry
  resume : ∀ limit, (s.db.readEventsSince t (.ofNat view.latestSeq) limit).map StoredEvent.seq =
    (List.range' (view.latestSeq + 1) ((s.accepted t).length - view.latestSeq)).take limit.toNat

/-- The upsert changes an entry that the page shows, or creates one that belongs on it. -/
def reaches (page : EntryPage) (rows : List EntryRow) (u : Upsert) : Bool :=
  page.limit ≠ 0 ∧ (u.key ∈ (pageOf page rows).map EntryRow.key ∨
    u.key ∉ rows.map EntryRow.key ∧ below page.beforeFirstSeq u.seq)

/-! ### Reading on from a number -/

theorem filter_range'_lt (n m : Nat) :
    (List.range' 1 m).filter (fun k => n < k) = List.range' (n + 1) (m - n) := by
  rcases Nat.le_total m n with hle | hle
  · rw [Nat.sub_eq_zero_of_le hle, List.range'_zero]
    refine List.filter_eq_nil_iff.mpr fun k hk => ?_
    rw [List.mem_range'_1] at hk
    simp
    omega
  · have hsplit : List.range' 1 m = List.range' 1 n ++ List.range' (n + 1) (m - n) := by
      rw [Nat.add_comm n 1, List.range'_append_1, Nat.add_sub_cancel' hle]
    have hlow : (List.range' 1 n).filter (fun k => n < k) = [] := by
      refine List.filter_eq_nil_iff.mpr fun k hk => ?_
      rw [List.mem_range'_1] at hk
      simp
      omega
    have hhigh : (List.range' (n + 1) (m - n)).filter (fun k => n < k) =
        List.range' (n + 1) (m - n) := by
      refine List.filter_eq_self.mpr fun k hk => ?_
      rw [List.mem_range'_1] at hk
      simp
      omega
    rw [hsplit, List.filter_append, hlow, hhigh, List.nil_append]

/-- The events after a number of the log are the rest of the log. -/
theorem Sound.readEventsSince_seqs {s : EventStore} (h : Sound s) (t : String) {n : Nat}
    (hn : n ≤ maxRowId) (limit : UInt32) :
    (s.db.readEventsSince t (.ofNat n) limit).map StoredEvent.seq =
      (List.range' (n + 1) ((s.accepted t).length - n)).take limit.toNat := by
  have hseqs := (h.intact t).seqs
  have hsplit : s.db.events.filter (fun row => row.threadId = t ∧ (n : Int) < row.seq) =
      (s.db.eventsOf t).filter fun row => n < row.seq := by
    rw [Db.eventsOf, List.filter_filter]
    refine List.filter_congr fun row _ => ?_
    simp [Bool.and_comm]
  have hsorted : ((s.db.eventsOf t).filter fun row => n < row.seq).Pairwise
      fun a b => decide (a.seq ≤ b.seq) = true := by
    refine List.Pairwise.filter _ ?_
    have hlt : ((s.db.eventsOf t).map StoredEvent.seq).Pairwise (· < ·) := by
      rw [hseqs]
      exact List.pairwise_lt_range'
    refine (List.pairwise_map.mp hlt).imp fun hlt => ?_
    simpa using Nat.le_of_lt hlt
  rw [Db.readEventsSince, asI64_ofNat hn, hsplit, List.mergeSort_of_pairwise hsorted,
    List.map_take, ← filter_range'_lt, ← hseqs, List.filter_map]
  rfl

/-! ### The numbers of a row -/

theorem numbered_sorted (t : String) (seq : Nat) (events : List NewEvent) :
    (numbered t seq events).Pairwise fun u v => u.seq < v.seq := by
  induction events generalizing seq with
  | nil => exact .nil
  | cons event events ih =>
    refine List.pairwise_append.mpr ⟨?_, ih (seq + 1), ?_⟩
    · cases event.entry with
      | none => exact .nil
      | some entry => exact List.pairwise_singleton _ _
    · intro u hu v hv
      obtain ⟨entry, -, rfl⟩ : ∃ entry, event.entry = some entry ∧ _ = u := by simpa using hu
      exact (mem_numbered hv).2.1

/-- The numbers of a row bound those of its upserts, and are among them. -/
theorem seqs_of_entryOf {us : List Upsert} {row : EntryRow}
    (hsorted : us.Pairwise fun u v => u.seq < v.seq) (h : entryOf us = some row) :
    (∃ u ∈ us, u.seq = row.firstSeq) ∧ (∃ u ∈ us, u.seq = row.lastSeq) ∧
      ∀ u ∈ us, row.firstSeq ≤ u.seq ∧ u.seq ≤ row.lastSeq := by
  induction us using List.reverseRecOn generalizing row with
  | nil => exact nomatch h
  | append_singleton us u ih =>
    obtain ⟨hus, -, hlt⟩ := List.pairwise_append.mp hsorted
    rw [entryOf_append] at h
    cases hold : entryOf us with
    | none =>
      obtain rfl : us = [] := by
        cases us with
        | nil => rfl
        | cons v us => exact nomatch hold
      obtain rfl : u.row = row := by simpa [hold] using h
      refine ⟨⟨u, List.mem_singleton_self u, rfl⟩, ⟨u, List.mem_singleton_self u, rfl⟩, ?_⟩
      intro v hv
      obtain rfl := List.mem_singleton.mp hv
      exact ⟨Nat.le_refl _, Nat.le_refl _⟩
    | some old =>
      obtain rfl : u.update old = row := by simpa [hold] using h
      obtain ⟨⟨first, hfirst, hseq⟩, -, hbounds⟩ := ih hus hold
      have hlast : ∀ v ∈ us, v.seq < u.seq := fun v hv => hlt v hv u (List.mem_singleton_self u)
      refine ⟨⟨first, List.mem_append_left _ hfirst, hseq⟩,
        ⟨u, List.mem_append_right _ (List.mem_singleton_self u), rfl⟩, ?_⟩
      intro v hv
      rcases List.mem_append.mp hv with hv | hv
      · exact ⟨(hbounds v hv).1, Nat.le_of_lt (hlast v hv)⟩
      · obtain rfl := List.mem_singleton.mp hv
        refine ⟨?_, Nat.le_refl _⟩
        exact Nat.le_of_lt (hseq ▸ hlast first hfirst)

section Materialized
variable {t : String} {events : List NewEvent} {row : EntryRow}

theorem materialize_distinct (t : String) (events : List NewEvent) :
    ((materialize t events).map EntryRow.key).Nodup :=
  nodup_foldl_upserts _ List.nodup_nil

theorem lookup_materialize (t : String) (events : List NewEvent) (k : String × String × String) :
    lookup EntryRow.key k (materialize t events) =
      entryOf ((numbered t 0 events).filter fun u => u.key = k) :=
  lookup_foldl_upserts _ k

/-- A row is created by its first upsert and carries the number of its last one. -/
theorem seqs_of_mem (h : row ∈ materialize t events) :
    (∃ u ∈ numbered t 0 events, u.key = row.key ∧ u.seq = row.firstSeq) ∧
      (∃ u ∈ numbered t 0 events, u.key = row.key ∧ u.seq = row.lastSeq) ∧
      ∀ u ∈ numbered t 0 events, u.key = row.key →
        row.firstSeq ≤ u.seq ∧ u.seq ≤ row.lastSeq := by
  have hrow := lookup_of_mem (materialize_distinct t events) h
  rw [lookup_materialize] at hrow
  obtain ⟨⟨u, hu, hfirst⟩, ⟨v, hv, hlast⟩, hbounds⟩ :=
    seqs_of_entryOf ((numbered_sorted t 0 events).filter _) hrow
  simp only [List.mem_filter, decide_eq_true_eq] at hu hv hbounds
  exact ⟨⟨u, hu.1, hu.2, hfirst⟩, ⟨v, hv.1, hv.2, hlast⟩, fun w hw hk => hbounds w ⟨hw, hk⟩⟩

theorem lastSeq_le_of_mem (h : row ∈ materialize t events) : row.lastSeq ≤ events.length := by
  obtain ⟨-, ⟨u, hu, -, hlast⟩, -⟩ := seqs_of_mem h
  have := (mem_numbered hu).2.2
  omega

theorem firstSeq_le_lastSeq (h : row ∈ materialize t events) : row.firstSeq ≤ row.lastSeq := by
  obtain ⟨⟨u, hu, hk, hfirst⟩, -, hbounds⟩ := seqs_of_mem h
  exact hfirst ▸ (hbounds u hu hk).2

/-- Every upsert has a row. -/
theorem exists_row {u : Upsert} (hu : u ∈ numbered t 0 events) :
    ∃ row ∈ materialize t events, row.key = u.key := by
  have hne : entryOf ((numbered t 0 events).filter fun v => v.key = u.key) ≠ none := by
    have hmem : u ∈ (numbered t 0 events).filter fun v => v.key = u.key := by simp [hu]
    cases hhits : (numbered t 0 events).filter fun v => v.key = u.key with
    | nil => simp [hhits] at hmem
    | cons v us => simp [entryOf]
  rw [← lookup_materialize] at hne
  obtain ⟨row, hrow⟩ := Option.ne_none_iff_exists'.mp hne
  exact ⟨row, mem_of_lookup hrow, key_of_lookup hrow⟩

theorem key_of_mem (h : row ∈ materialize t events) : row.key = (t, row.tag.2) := by
  obtain ⟨⟨u, hu, hk, -⟩, -⟩ := seqs_of_mem h
  have hthread : row.threadId = t := by
    rw [← (mem_numbered hu).1]
    exact (congrArg Prod.fst hk).symm
  rw [← hthread]
  rfl

theorem mem_materialize_of_pageOf {page : EntryPage} {rows : List EntryRow}
    (h : row ∈ pageOf page rows) : row ∈ rows :=
  (List.mem_filter.mp (List.mem_of_mem_drop h)).1

theorem materialize_append (t : String) (old new : List NewEvent) :
    materialize t (old ++ new) =
      (numbered t old.length new).foldl upserts.live (materialize t old) := by
  rw [materialize, numbered_append, List.foldl_append, Nat.zero_add]
  rfl

theorem mem_numbered_append {old new : List NewEvent} {u : Upsert} :
    u ∈ numbered t 0 (old ++ new) ↔ u ∈ numbered t 0 old ∨ u ∈ numbered t old.length new := by
  rw [numbered_append, Nat.zero_add, List.mem_append]

end Materialized

/-! ### What a page keeps -/

section Pages
variable {t : String} {page : EntryPage} {old new : List NewEvent}

/-- An upsert of a key without a row in the old log starts a row in the new one. -/
theorem firstSeq_of_new {row : EntryRow} (h : row ∈ materialize t (old ++ new))
    (hkey : row.key ∉ (materialize t old).map EntryRow.key) :
    ∃ u ∈ numbered t old.length new, u.key = row.key ∧ u.seq = row.firstSeq := by
  obtain ⟨⟨u, hu, hk, hfirst⟩, -⟩ := seqs_of_mem h
  rcases mem_numbered_append.mp hu with hu | hu
  · obtain ⟨old, hold, holdKey⟩ := exists_row hu
    exact absurd (List.mem_map.mpr ⟨old, hold, holdKey.trans hk⟩) hkey
  · exact ⟨u, hu, hk, hfirst⟩

theorem key_not_mem_of_lt {row : EntryRow} (h : row ∈ materialize t (old ++ new))
    (hlt : old.length < row.firstSeq) : row.key ∉ (materialize t old).map EntryRow.key := by
  intro hkey
  obtain ⟨r, hr, hrk⟩ := List.mem_map.mp hkey
  obtain ⟨⟨u, hu, hk, -⟩, -⟩ := seqs_of_mem hr
  have hle := ((seqs_of_mem h).2.2 u (mem_numbered_append.mpr (.inl hu)) (hk.trans hrk)).1
  have := (mem_numbered hu).2.2
  omega

/-- The rows of a log have ascending first numbers. -/
theorem window_sorted (t : String) (events : List NewEvent) (before : Option UInt64) :
    ((materialize t events).filter fun row => below before row.firstSeq).Pairwise
      fun a b => a.firstSeq < b.firstSeq := by
  obtain ⟨tags, htags, hsorted, -⟩ := tags_foldl_numbered (t := t) events 0 []
  have hrows : ((materialize t events).map EntryRow.tag).Pairwise fun a b => a.1 < b.1 := by
    rw [materialize, htags]
    exact hsorted
  exact (List.pairwise_map.mp hrows).filter _

/-- An upsert that reaches the page shows on it. -/
theorem pageOf_ne_of_reaches {u : Upsert} (hu : u ∈ numbered t old.length new)
    (h : reaches page (materialize t old) u) :
    pageOf page (materialize t (old ++ new)) ≠ pageOf page (materialize t old) := by
  intro heq
  simp only [reaches, decide_eq_true_eq] at h
  obtain ⟨hlimit, hreach⟩ := h
  obtain ⟨row, hrow, hkey⟩ := exists_row (mem_numbered_append.mpr (.inr hu))
  have hseq := (mem_numbered hu).2.1
  have hbounds := (seqs_of_mem hrow).2.2 u (mem_numbered_append.mpr (.inr hu)) hkey.symm
  -- every row of the common page belongs to the old log
  have hold : ∀ r ∈ pageOf page (materialize t (old ++ new)), r.lastSeq ≤ old.length := by
    intro r hr
    rw [heq] at hr
    exact lastSeq_le_of_mem (mem_materialize_of_pageOf hr)
  rcases hreach with hshown | ⟨hfresh, hbelow⟩
  · rw [← heq] at hshown
    obtain ⟨r, hr, hrk⟩ := List.mem_map.mp hshown
    have hsame : r = row := by
      have hr' := lookup_of_mem (materialize_distinct t _) (mem_materialize_of_pageOf hr)
      have hrow' := lookup_of_mem (materialize_distinct t _) hrow
      rw [hrk, ← hkey, hrow'] at hr'
      exact (Option.some.inj hr').symm
    have := hold r hr
    rw [hsame] at this
    omega
  · obtain ⟨v, hv, hvk, hfirst⟩ := firstSeq_of_new hrow (hkey ▸ hfresh)
    have hwindow : row ∈ (materialize t (old ++ new)).filter
        fun row => below page.beforeFirstSeq row.firstSeq :=
      List.mem_filter.mpr ⟨hrow, below_of_le hbounds.1 hbelow⟩
    have hpos : 0 < page.limit.toNat :=
      Nat.pos_of_ne_zero fun hzero => hlimit (UInt32.toNat_inj.mp hzero)
    obtain ⟨e, he, hle⟩ := exists_page_ge EntryRow.firstSeq (window_sorted t _ _) hwindow hpos
    have h₁ := hold e he
    have h₂ := firstSeq_le_lastSeq (mem_materialize_of_pageOf he)
    have h₃ := (mem_numbered hv).2.1
    omega

/-- Upserts that do not reach the page add nothing to the window before its cursor. -/
theorem tags_window_of_not_reaches (hlimit : page.limit ≠ 0)
    (h : ∀ u ∈ numbered t old.length new, ¬ reaches page (materialize t old) u) :
    ((materialize t (old ++ new)).filter fun row =>
        below page.beforeFirstSeq row.firstSeq).map EntryRow.tag =
      ((materialize t old).filter fun row =>
        below page.beforeFirstSeq row.firstSeq).map EntryRow.tag := by
  obtain ⟨tags, htags, -, hseq⟩ := tags_foldl_numbered (t := t) new old.length (materialize t old)
  rw [← materialize_append] at htags
  have hnil : tags.filter (fun g => below page.beforeFirstSeq g.1) = [] := by
    refine List.filter_eq_nil_iff.mpr fun g hg hbelow => ?_
    obtain ⟨row, hrow, rfl⟩ : ∃ row ∈ materialize t (old ++ new), row.tag = g :=
      List.mem_map.mp (htags ▸ List.mem_append_right _ hg)
    have hfresh := key_not_mem_of_lt hrow (hseq _ hg).1
    obtain ⟨u, hu, hk, hfirst⟩ := firstSeq_of_new hrow hfresh
    refine h u hu ?_
    simp only [reaches, decide_eq_true_eq]
    refine ⟨hlimit, .inr ⟨hk ▸ hfresh, ?_⟩⟩
    rw [hfirst]
    exact hbelow
  have hmap : ∀ rows : List EntryRow,
      (rows.filter fun row => below page.beforeFirstSeq row.firstSeq).map EntryRow.tag =
        (rows.map EntryRow.tag).filter fun g => below page.beforeFirstSeq g.1 := by
    intro rows
    rw [List.filter_map]
    rfl
  rw [hmap, hmap, htags, List.filter_append, hnil, List.append_nil]

theorem pageOf_eq_of_not_reaches
    (h : ∀ u ∈ numbered t old.length new, ¬ reaches page (materialize t old) u) :
    pageOf page (materialize t (old ++ new)) = pageOf page (materialize t old) := by
  by_cases hlimit : page.limit = 0
  · simp [pageOf, lastPage, hlimit]
  have htags : (pageOf page (materialize t (old ++ new))).map EntryRow.tag =
      (pageOf page (materialize t old)).map EntryRow.tag := by
    unfold pageOf
    rw [← lastPage_map, ← lastPage_map, tags_window_of_not_reaches hlimit h]
  refine eq_of_map_eq htags fun a ha b hb hab => ?_
  have hamem := mem_materialize_of_pageOf ha
  have hbmem := mem_materialize_of_pageOf hb
  have hkey : a.key = b.key := by rw [key_of_mem hamem, key_of_mem hbmem, hab]
  have hnone : (numbered t old.length new).filter (fun u => u.key = b.key) = [] := by
    refine List.filter_eq_nil_iff.mpr fun u hu hk => h u hu ?_
    simp only [reaches, decide_eq_true_eq] at hk ⊢
    exact ⟨hlimit, .inl (hk ▸ List.mem_map_of_mem hb)⟩
  have ha' := lookup_of_mem (materialize_distinct t _) hamem
  have hb' := lookup_of_mem (materialize_distinct t _) hbmem
  rw [hkey, lookup_materialize, numbered_append, Nat.zero_add, List.filter_append, hnone,
    List.append_nil, ← lookup_materialize, hb'] at ha'
  exact (Option.some.inj ha').symm

/-- A page survives a longer log exactly when no upsert of the rest reaches it. -/
theorem pageOf_eq_iff :
    pageOf page (materialize t (old ++ new)) = pageOf page (materialize t old) ↔
      ∀ u ∈ numbered t old.length new, ¬ reaches page (materialize t old) u := by
  constructor
  · intro heq u hu hreach
    exact pageOf_ne_of_reaches hu hreach heq
  · exact pageOf_eq_of_not_reaches

end Pages

/-! ### Views between batches -/

/-- The upserts committed on a thread between two stores. -/
def upsertsBetween (s₁ s₂ : EventStore) (t : String) : List Upsert :=
  numbered t (s₁.accepted t).length ((s₂.accepted t).drop (s₁.accepted t).length)

theorem entry_injOn {t : String} {events₁ events₂ : List NewEvent} {a b : EntryRow}
    (ha : a ∈ materialize t events₁) (hb : b ∈ materialize t events₂) (h : a.entry = b.entry) :
    a = b := by
  obtain ⟨j, hj⟩ := kind_of_mem_foldl ha
  obtain ⟨k, hk⟩ := kind_of_mem_foldl hb
  obtain ⟨thread, kind, id, first, last, turn, payload⟩ := a
  obtain ⟨thread', kind', id', first', last', turn', payload'⟩ := b
  obtain rfl : kind = j.asStr := hj
  obtain rfl : kind' = k.asStr := hk
  simpa [EntryRow.entry, Except.toOption] using h

/-- A view whose two statements run at `s₁` and `s₂` is a consistent cut, seen from any later
store, exactly when no upsert committed between them reaches its page. -/
theorem thread_view_cut_iff (calls₁ calls₂ calls₃ : List Call) (t : String) (page : EntryPage)
    (view : ThreadView) :
    let s₁ := EventStore.empty.after calls₁
    let s₂ := s₁.after calls₂
    let s₃ := s₂.after calls₃
    openThread s₁.db s₂.db t page = .ok view →
    (ConsistentCut s₃ t page view ↔
      ∀ u ∈ upsertsBetween s₁ s₂ t, ¬ reaches page (s₁.db.entriesOf t) u) := by
  intro s₁ s₂ s₃ hview
  have hs₁ : Sound s₁ := sound_after sound_empty calls₁
  have hs₂ : Sound s₂ := sound_after hs₁ calls₂
  have hs₃ : Sound s₃ := sound_after hs₂ calls₃
  obtain ⟨new, hnew⟩ := accepted_after s₁ calls₂ t
  obtain ⟨later, hlater⟩ := accepted_after s₂ calls₃ t
  obtain ⟨latest, hlatest, -⟩ := bind_eq_ok hview
  obtain rfl := Except.ok.inj ((hs₂.openThread_eq hlatest page.beforeFirstSeq page.limit).symm.trans
    hview)
  obtain ⟨row, hrow, rfl⟩ := latestSeq_of_select hlatest
  have hlen : row.latestSeq = (s₁.accepted t).length := by
    rw [← (hs₁.intact t).latest, Db.latestSeq, hrow]
    rfl
  have htake : (s₃.accepted t).take row.latestSeq = s₁.accepted t := by
    rw [hlater, hnew, List.append_assoc, hlen, List.take_left']
    rfl
  have hbetween : upsertsBetween s₁ s₂ t = numbered t (s₁.accepted t).length new := by
    rw [upsertsBetween, hnew, List.drop_left' rfl]
  have hpage : lastPage page.limit.toNat (s₂.db.window t page.beforeFirstSeq) =
      pageOf page (materialize t (s₁.accepted t ++ new)) := by
    rw [← hnew, Db.window, (hs₂.intact t).entries]
    rfl
  have hentries : s₁.db.entriesOf t = materialize t (s₁.accepted t) := (hs₁.intact t).entries
  rw [hbetween, hentries, ← pageOf_eq_iff]
  constructor
  · intro hcut
    have heq := hcut.entries
    dsimp only at heq
    rw [htake, hpage] at heq
    exact eq_of_map_eq heq fun a ha b hb =>
      entry_injOn (mem_materialize_of_pageOf ha) (mem_materialize_of_pageOf hb)
  · intro heq
    refine ⟨?_, fun limit => hs₃.readEventsSince_seqs t ?_ limit⟩
    · rw [htake, hpage, heq]
    · rw [hlen, ← (hs₁.intact t).latest]
      exact hs₁.latestSeq_le t

/-- A thread with one message, and a batch that continues the message. -/
def opened : List Call :=
  [.ensureWorkspace "w" "/tmp/w" "worktree", .ensureThread "t" "w",
    .appendBatch (fun _ => none) (fun _ => 0) "t"
      [⟨"message", "", some ⟨.message, "m", some 0, "Hel"⟩⟩]]

def continued : List Call :=
  [.appendBatch (fun _ => none) (fun _ => 0) "t"
    [⟨"message", "", some ⟨.message, "m", some 0, "Hello"⟩⟩]]

/-- The batch commits between the two statements: the view reports event 1 as the latest and
shows the message with event 2 folded in, which `events_since` then returns again. -/
theorem thread_view_skewed :
    let s₁ := EventStore.empty.after opened
    let s₂ := s₁.after continued
    let view : ThreadView := ⟨[⟨"t", .message, "m", 1, 2, some 0, "Hello"⟩], 1, false⟩
    openThread s₁.db s₂.db "t" ⟨none, 10⟩ = .ok view ∧
      (s₂.db.readEventsSince "t" 1 10).map StoredEvent.seq = [2] ∧
      ¬ ConsistentCut s₂ "t" ⟨none, 10⟩ view := by
  intro s₁ s₂ view
  have hs₂ : Sound s₂ := sound_after (sound_after sound_empty opened) continued
  refine ⟨?_, ?_, ?_⟩
  · have hseq : s₁.db.selectLatestSeq "t" = .ok 1 := rfl
    exact (hs₂.openThread_eq hseq none 10).trans (by decide)
  · exact (hs₂.readEventsSince_seqs "t" (n := 1) (by decide) 10).trans (by decide)
  · intro hcut
    exact absurd hcut.entries (by decide)

/-- A batch on another thread, which does not skew the view. -/
def elsewhere : List Call :=
  [.ensureThread "u" "w", .appendBatch (fun _ => none) (fun _ => 0) "u"
    [⟨"message", "", some ⟨.message, "m", some 0, "Hi"⟩⟩]]

theorem thread_view_cut_iff_elsewhere :
    let s₁ := EventStore.empty.after opened
    let view : ThreadView := ⟨[⟨"t", .message, "m", 1, 1, some 0, "Hel"⟩], 1, false⟩
    openThread s₁.db (s₁.after elsewhere).db "t" ⟨none, 10⟩ = .ok view ∧
      ConsistentCut ((s₁.after elsewhere).after continued) "t" ⟨none, 10⟩ view := by
  intro s₁ view
  have hs₂ : Sound (s₁.after elsewhere) := sound_after (sound_after sound_empty opened) elsewhere
  have hseq : s₁.db.selectLatestSeq "t" = .ok 1 := rfl
  have hview : openThread s₁.db (s₁.after elsewhere).db "t" ⟨none, 10⟩ = .ok view :=
    (hs₂.openThread_eq hseq none 10).trans (by decide)
  refine ⟨hview, ?_⟩
  exact (thread_view_cut_iff opened elsewhere continued "t" ⟨none, 10⟩ view hview).mpr (by decide)

end Tethys.Store
