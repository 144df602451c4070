import Tethys.Store.Entries

/-!
# Backward paging

A client walks a transcript from its tail, asking each time for the entries before the first
one it has, while batches are appended between the requests. Upserts never change the first
sequence number of an entry and new entries come after all old ones, so the walk sees exactly
the entries that existed at its first request.
-/

namespace Tethys.Store

open Lib Schema.Store

/-- Walk back from a cursor until `has_more` is false, for at most the given number of requests;
`gaps i` are the calls between requests `i` and `i + 1`. The oldest page comes first. -/
def walk (t : String) (limit : UInt32) :
    Nat → EventStore → (Nat → List Call) → Option UInt64 → Except StoreError (List ThreadView)
  | 0, _, _, _ => .ok []
  | fuel + 1, s, gaps, before => do
    let view ← openThread s.db s.db t ⟨before, limit⟩
    match view.hasMore, view.entries.head? with
    | true, some e =>
      let older ← walk t limit fuel (s.after (gaps 0)) (fun i => gaps (i + 1))
        (some (UInt64.ofNat e.firstSeq))
      .ok (older ++ [view])
    | _, _ => .ok [view]

/-! ### What later calls leave of the entries -/

section After
variable {s : EventStore} {t : String}

theorem accepted_call (s : EventStore) (c : Call) (t : String) :
    ∃ more, (s.call c).accepted t = s.accepted t ++ more := by
  have hc := s.called c
  generalize s.call c = s' at hc
  cases hc with
  | committed now thread seq events hseq hne hmax => exact ⟨_, accepted_commit⟩
  | _ => exact ⟨[], (List.append_nil _).symm⟩

theorem accepted_after (s : EventStore) (calls : List Call) (t : String) :
    ∃ more, (s.after calls).accepted t = s.accepted t ++ more := by
  induction calls generalizing s with
  | nil => exact ⟨[], (List.append_nil _).symm⟩
  | cons c calls ih =>
    obtain ⟨first, hfirst⟩ := accepted_call s c t
    obtain ⟨more, hmore⟩ := ih (s.call c)
    refine ⟨first ++ more, ?_⟩
    rw [← List.append_assoc, ← hfirst]
    exact hmore

theorem threads_call (s : EventStore) (c : Call) :
    s.db.threads.map ThreadRow.id ⊆ (s.call c).db.threads.map ThreadRow.id := by
  have hc := s.called c
  generalize s.call c = s' at hc
  cases hc with
  | same => exact List.Subset.refl _
  | workspace rows => exact List.Subset.refl _
  | thread id workspaceId hid => simp
  | committed now thread seq events hseq hne hmax =>
    intro id hid
    obtain ⟨row, hrow, rfl⟩ := List.mem_map.mp hid
    refine List.mem_map.mpr ⟨_, List.mem_map_of_mem hrow, ?_⟩
    split_ifs <;> rfl

theorem threads_after (s : EventStore) (calls : List Call) :
    s.db.threads.map ThreadRow.id ⊆ (s.after calls).db.threads.map ThreadRow.id := by
  induction calls generalizing s with
  | nil => exact List.Subset.refl _
  | cons c calls ih => exact List.Subset.trans (threads_call s c) (ih (s.call c))

/-- Later calls keep the tags of a thread's rows; the rows they add come after its log. -/
theorem Sound.tags_after (h : Sound s) (calls : List Call) (t : String) :
    ∃ new, ((s.after calls).db.entriesOf t).map EntryRow.tag =
        (s.db.entriesOf t).map EntryRow.tag ++ new ∧ ∀ g ∈ new, s.db.latestSeq t < g.1 := by
  obtain ⟨more, hmore⟩ := accepted_after s calls t
  obtain ⟨new, hnew, -, hseq⟩ :=
    tags_foldl_numbered (t := t) more (s.accepted t).length (s.db.entriesOf t)
  refine ⟨new, ?_, fun g hg => (h.intact t).latest ▸ (hseq g hg).1⟩
  rw [((sound_after h calls).intact t).entries, hmore, numbered_append, List.foldl_append,
    ← (h.intact t).entries, Nat.zero_add, hnew]

end After

/-! ### The walk -/

section Walk
variable {s : EventStore} {t : String} {limit : UInt32} {before : Option UInt64}

theorem asI64_ofNat {n : Nat} (hn : n ≤ maxRowId) : asI64 (UInt64.ofNat n) = n := by
  have hn : n < 2 ^ 63 := Nat.lt_of_le_of_lt hn (by decide)
  have hval : (UInt64.ofNat n).toNat = n := by
    rw [UInt64.toNat_ofNat']
    omega
  rw [asI64, hval, if_pos hn]

/-- A sequence number of the store is its own cursor. -/
theorem below_ofNat {n : Nat} (hn : n ≤ maxRowId) (m : Nat) :
    below (some (UInt64.ofNat n)) m ↔ m < n := by
  simp [below, asI64_ofNat hn]

theorem below_of_le {m n : Nat} (h : m ≤ n) (hn : below before n) : below before m := by
  cases before with
  | none => rfl
  | some b =>
    simp only [below, Option.all_some, decide_eq_true_eq] at hn ⊢
    omega

/-- The tags of a thread's rows. -/
def Db.tags (db : Db) (t : String) : List (Nat × String × String) :=
  (db.entriesOf t).map EntryRow.tag

theorem tags_window (db : Db) (t : String) (before : Option UInt64) :
    (db.window t before).map EntryRow.tag = (db.tags t).filter fun g => below before g.1 := by
  rw [Db.tags, List.filter_map]
  rfl

/-- Before a cursor into the log, later calls change no tag. -/
theorem Sound.tags_window_after (h : Sound s) {calls : List Call}
    (hnone : before = none → calls = []) (hsome : ∀ b ∈ before, asI64 b ≤ s.db.latestSeq t) :
    ((s.after calls).db.window t before).map EntryRow.tag =
      (s.db.tags t).filter fun g => below before g.1 := by
  rw [tags_window]
  cases before with
  | none =>
    rw [hnone rfl]
    rfl
  | some b =>
    obtain ⟨new, hnew, hseq⟩ := h.tags_after calls t
    have hnil : new.filter (fun g => below (some b) g.1) = [] := by
      refine List.filter_eq_nil_iff.mpr fun g hg => ?_
      have hlatest := hsome b rfl
      have hafter := hseq g hg
      simp only [below, Option.all_some, decide_eq_true_eq]
      omega
    rw [Db.tags, hnew, List.filter_append, hnil, List.append_nil]
    rfl

/-- What a finished walk returned: the pages hold `tags`, oldest first, and each page says
truthfully whether the list has an older entry. -/
structure Walked (all tags : List (Nat × String × String)) (views : List ThreadView) : Prop where
  ended : views.head?.map ThreadView.hasMore = some false
  tags : (views.flatMap ThreadView.entries).map Entry.tag = tags
  more : ∀ view ∈ views, view.hasMore = true ↔ ∃ g ∈ all, ∀ e ∈ view.entries, g.1 < e.firstSeq

theorem Sound.tags_sorted (h : Sound s) (t : String) :
    (s.db.tags t).Pairwise (fun a b => a.1 < b.1) ∧
      ∀ g ∈ s.db.tags t, 0 < g.1 ∧ g.1 ≤ s.db.latestSeq t :=
  h.sorted t

/-- One request of the walk: the last tags before the cursor, of those at the first request. -/
theorem Sound.page (h : Sound s) {calls : List Call} (ht : t ∈ s.db.threads.map ThreadRow.id)
    (hlimit : limit.toNat < 2 ^ 32 - 1) (hnone : before = none → calls = [])
    (hsome : ∀ b ∈ before, asI64 b ≤ s.db.latestSeq t) :
    let window := (s.db.tags t).filter fun g => below before g.1
    ∃ view, openThread (s.after calls).db (s.after calls).db t ⟨before, limit⟩ = .ok view ∧
      view.entries.map Entry.tag = lastPage limit.toNat window ∧
      view.hasMore = decide (limit.toNat < window.length) := by
  intro window
  have hsound := sound_after h calls
  have htags : ((s.after calls).db.window t before).map EntryRow.tag = window :=
    h.tags_window_after hnone hsome
  obtain ⟨row, hrow⟩ : ∃ row, lookup ThreadRow.id t (s.after calls).db.threads = some row :=
    Option.isSome_iff_exists.mp (lookup_isSome.mpr (threads_after s calls ht))
  have hseq : (s.after calls).db.selectLatestSeq t = .ok row.latestSeq := by
    rw [Db.selectLatestSeq, hrow]
  refine ⟨_, hsound.openThread_eq hseq before limit, ?_, ?_⟩
  · rw [← htags, lastPage_map, List.map_map]
    refine List.map_congr_left fun row hmem => ?_
    exact (hsound.rowToEntry_eq (mem_entriesOf_of_window (List.mem_of_mem_drop hmem))).2
  · simp only [hlimit, true_and, ← htags, List.length_map]

theorem walk_last {fuel : Nat} {gaps : Nat → List Call} {view : ThreadView}
    (hview : openThread s.db s.db t ⟨before, limit⟩ = .ok view) (hmore : view.hasMore = false) :
    walk t limit (fuel + 1) s gaps before = .ok [view] := by
  simp only [walk, hview, hmore, bind, Except.bind]

theorem walk_more {fuel : Nat} {gaps : Nat → List Call} {view : ThreadView} {e : Entry}
    {older : List ThreadView} (hview : openThread s.db s.db t ⟨before, limit⟩ = .ok view)
    (hmore : view.hasMore = true) (hhead : view.entries.head? = some e)
    (holder : walk t limit fuel (s.after (gaps 0)) (fun i => gaps (i + 1))
      (some (UInt64.ofNat e.firstSeq)) = .ok older) :
    walk t limit (fuel + 1) s gaps before = .ok (older ++ [view]) := by
  simp only [walk, hview, hmore, hhead, holder, bind, Except.bind]

/-- The first entry of a page as the next cursor: what lies before it is the rest. -/
theorem Sound.rest_of_page (h : Sound s) {n firstSeq : Nat} {name : String × String}
    (hpage : (lastPage n ((s.db.tags t).filter fun g => below before g.1)).head? =
      some (firstSeq, name)) :
    asI64 (UInt64.ofNat firstSeq) ≤ s.db.latestSeq t ∧
      (s.db.tags t).filter (fun g => below (some (UInt64.ofNat firstSeq)) g.1) =
        ((s.db.tags t).filter fun g => below before g.1).take
          (((s.db.tags t).filter fun g => below before g.1).length - n) := by
  obtain ⟨hsorted, hbounds⟩ := h.tags_sorted t
  obtain ⟨hall, hbefore⟩ := List.mem_filter.mp (List.mem_of_mem_drop (List.mem_of_head? hpage))
  have hle : firstSeq ≤ s.db.latestSeq t := (hbounds _ hall).2
  have hmax : firstSeq ≤ maxRowId := Nat.le_trans hle (h.latestSeq_le t)
  have hcursor := below_ofNat hmax
  constructor
  · rw [asI64_ofNat hmax]
    omega
  · rw [← filter_below_page Prod.fst (fun g _ => hcursor g.1) (hsorted.filter _) hpage,
      List.filter_filter]
    refine List.filter_congr fun g _ => ?_
    rw [Bool.eq_iff_iff, Bool.and_eq_true, iff_self_and]
    exact fun hg => below_of_le (Nat.le_of_lt ((hcursor g.1).mp hg)) hbefore

/-- A whole walk, by induction on the number of entries before the cursor. -/
theorem Sound.walked (h : Sound s) (ht : t ∈ s.db.threads.map ThreadRow.id)
    (hpos : 1 ≤ limit.toNat) (hlimit : limit.toNat < 2 ^ 32 - 1) (n : Nat) :
    ∀ (calls : List Call) (gaps : Nat → List Call) (before : Option UInt64)
      (window : List (Nat × String × String)),
      window = (s.db.tags t).filter (fun g => below before g.1) →
      (before = none → calls = []) → (∀ b ∈ before, asI64 b ≤ s.db.latestSeq t) →
      (window = [] → s.db.tags t = []) → window.length = n →
      ∃ views, (∀ fuel, n < fuel → walk t limit fuel (s.after calls) gaps before = .ok views) ∧
        Walked (s.db.tags t) window views := by
  induction n using Nat.strong_induction_on with
  | _ n ih =>
    intro calls gaps before window hwindow hnone hsome hnil hlen
    obtain ⟨view, hview, htags, hmore⟩ := h.page ht hlimit hnone hsome
    have holder : view.hasMore = true ↔ ∃ g ∈ s.db.tags t, ∀ e ∈ view.entries, g.1 < e.firstSeq := by
      rw [hmore, decide_eq_true_eq, longer_iff_older Prod.fst (h.tags_sorted t).1
        (fun a b hab => below_of_le (Nat.le_of_lt hab)) (hwindow ▸ hnil) hpos, ← htags]
      simp [Entry.tag]
    rw [← hwindow] at htags hmore
    by_cases hlong : limit.toNat < window.length
    · have hmore : view.hasMore = true := by simpa [hmore] using hlong
      have hne : lastPage limit.toNat window ≠ [] := by
        refine List.length_pos_iff.mp ?_
        rw [lastPage, List.length_drop]
        omega
      obtain ⟨e, hhead⟩ : ∃ e, view.entries.head? = some e := by
        refine Option.isSome_iff_exists.mp (List.isSome_head?.mpr fun hempty => hne ?_)
        rw [← htags, hempty, List.map_nil]
      have hpage : (lastPage limit.toNat window).head? = some (Entry.tag e) := by
        rw [← htags, List.head?_map, hhead, Option.map_some]
      obtain ⟨hcursor, hrest⟩ := h.rest_of_page (hwindow ▸ hpage)
      rw [← hwindow] at hrest
      have hrestLen : (window.take (window.length - limit.toNat)).length =
          window.length - limit.toNat := by
        rw [List.length_take]
        omega
      have hrestNe : window.take (window.length - limit.toNat) ≠ [] := by
        refine List.length_pos_iff.mp ?_
        omega
      obtain ⟨older, hwalk, hwalked⟩ := ih (window.length - limit.toNat) (by omega)
        (calls ++ gaps 0) (fun i => gaps (i + 1)) (some (UInt64.ofNat e.firstSeq)) _ hrest.symm
        (fun hnone => absurd hnone (Option.some_ne_none _)) (fun b hb => Option.some.inj hb ▸ hcursor)
        (fun hempty => absurd hempty hrestNe) hrestLen
      refine ⟨older ++ [view], ?_, ?_, ?_, ?_⟩
      · rintro (_ | fuel) hfuel
        · omega
        · refine walk_more hview hmore hhead ?_
          rw [← EventStore.after_append]
          exact hwalk fuel (by omega)
      · have hended := hwalked.ended
        cases hfirst : older.head? with
        | none => simp [hfirst] at hended
        | some first => simpa [List.head?_append, hfirst] using hended
      · rw [List.flatMap_append, List.map_append, hwalked.tags, List.flatMap_singleton, htags]
        exact List.take_append_drop _ _
      · intro v hv
        rcases List.mem_append.mp hv with hv | hv
        · exact hwalked.more v hv
        · obtain rfl := List.mem_singleton.mp hv
          exact holder
    · have hall : lastPage limit.toNat window = window := by
        rw [lastPage, Nat.sub_eq_zero_of_le (Nat.le_of_not_lt hlong), List.drop_zero]
      refine ⟨[view], ?_, ?_, ?_, ?_⟩
      · rintro (_ | fuel) hfuel
        · omega
        · exact walk_last hview (by simp [hmore, hlong])
      · simp [hmore, hlong]
      · simp [htags, hall]
      · simpa using holder

end Walk

/-- Starting at the tail and asking before the first entry of the last page, with any calls
between the requests, the pages together are the entries that existed at the first request,
each once and oldest first; the walk ends, and `has_more` says whether an older entry exists. -/
theorem backward_paging_exact (calls : List Call) (t : String) (limit : UInt32)
    (gaps : Nat → List Call)
    (ht : t ∈ (EventStore.empty.after calls).db.threads.map ThreadRow.id)
    (hpos : 1 ≤ limit.toNat) (hlimit : limit.toNat < 2 ^ 32 - 1) :
    let s := EventStore.empty.after calls
    ∃ views,
      (∀ fuel, (s.db.entriesOf t).length < fuel → walk t limit fuel s gaps none = .ok views) ∧
      views.head?.map ThreadView.hasMore = some false ∧
      (views.flatMap ThreadView.entries).map Entry.tag = (s.db.entriesOf t).map EntryRow.tag ∧
      (views.flatMap ThreadView.entries).Pairwise (fun a b => a.firstSeq < b.firstSeq) ∧
      ∀ view ∈ views, view.hasMore = true ↔
        ∃ row ∈ s.db.entriesOf t, ∀ e ∈ view.entries, row.firstSeq < e.firstSeq := by
  intro s
  have hs : Sound s := sound_after sound_empty calls
  have hall : s.db.tags t = (s.db.tags t).filter fun g => below none g.1 := by simp [below]
  have hlen : (s.db.tags t).length = (s.db.entriesOf t).length := List.length_map _
  obtain ⟨views, hwalk, hwalked⟩ := hs.walked ht hpos hlimit (s.db.entriesOf t).length [] gaps none
    (s.db.tags t) hall (fun _ => rfl) (fun _ h => nomatch h) id hlen
  refine ⟨views, hwalk, hwalked.ended, hwalked.tags, ?_, ?_⟩
  · have hsorted := (hs.tags_sorted t).1
    rw [← hwalked.tags] at hsorted
    exact (List.pairwise_map.mp hsorted).imp id
  · intro view hview
    rw [hwalked.more view hview]
    simp [Db.tags, EntryRow.tag]

/-- A thread with three entries; the second batch updates the first one again. -/
def threeEntries : List Call :=
  let upsert (id payload : String) : NewEvent := ⟨"message", "", some ⟨.message, id, none, payload⟩⟩
  [.ensureWorkspace "w" "/tmp/w" "worktree", .ensureThread "t" "w",
    .appendBatch (fun _ => none) (fun _ => 0) "t" [upsert "a" "1", upsert "b" "1"],
    .appendBatch (fun _ => none) (fun _ => 0) "t" [upsert "c" "1", upsert "a" "2"]]

theorem backward_paging_exact_threeEntries :
    ∃ views, walk "t" 2 4 (EventStore.empty.after threeEntries) (fun _ => threeEntries) none =
        .ok views ∧
      (views.flatMap ThreadView.entries).map Entry.tag =
        [(1, "message", "a"), (2, "message", "b"), (3, "message", "c")] := by
  obtain ⟨views, hwalk, -, htags, -⟩ := backward_paging_exact threeEntries "t" 2
    (fun _ => threeEntries) (by decide) (by decide) (by decide)
  exact ⟨views, hwalk 4 (by decide), htags⟩

end Tethys.Store
