import Mathlib.Data.Nat.Basic
import Tethys.Lib.Keyset
import Tethys.Store.Log
import Mathlib.Algebra.Group.Nat.Defs

/-!
# Thread views

`open_thread` of `tethys-store/src/entries.rs`. It runs two statements outside a transaction,
so they read two committed databases: `db₁` for `latest_seq`, `db₂` for the page. On a
reachable store the page is a segment of the thread's entries in the order of `first_seq`.
-/

namespace Tethys.Store

open Lib Schema.Store

/-- `first_seq < ?2`, when the page has a cursor. -/
def below (before : Option UInt64) (firstSeq : Nat) : Bool :=
  before.all fun b => (firstSeq : Int) < asI64 b

/-- The page query: newest rows first, at most `limit` of them. -/
def Db.selectEntries (db : Db) (thread : String) (before : Option UInt64) (limit : Nat) :
    List EntryRow :=
  ((db.entries.filter fun row => row.threadId = thread ∧ below before row.firstSeq).mergeSort
    fun a b => b.firstSeq ≤ a.firstSeq).take limit

def rowToEntry (row : EntryRow) : Except StoreError Entry :=
  match EntryKind.fromStr row.kind with
  | .ok kind => .ok ⟨row.threadId, kind, row.entryId, row.firstSeq, row.lastSeq, row.turnIndex,
      row.payload⟩
  | .error e => .error (.sqlite ("Conversion error from type Text at index: 1, " ++ e))

/-- The view of the rows of the page query, which may hold one more than the page. -/
def viewOf (limit latestSeq : Nat) (entriesDesc : List Entry) : ThreadView :=
  let hasMore : Bool := limit < entriesDesc.length
  let entriesDesc := if hasMore then entriesDesc.take limit else entriesDesc
  ⟨entriesDesc.reverse, latestSeq, hasMore⟩

/-- Read a page of materialized entries from the tail or before a sequence number. -/
def openThread (db₁ db₂ : Db) (thread : String) (page : EntryPage) :
    Except StoreError ThreadView := do
  let latestSeq ← db₁.selectLatestSeq thread
  let queryLimit := min (page.limit.toNat + 1) (2 ^ 32 - 1)
  let entriesDesc ← (db₂.selectEntries thread page.beforeFirstSeq queryLimit).mapM rowToEntry
  .ok (viewOf page.limit.toNat latestSeq entriesDesc)

/-! ### The rows of a thread -/

/-- What identifies an entry for as long as it exists. -/
def EntryRow.tag (row : EntryRow) : Nat × String × String := (row.firstSeq, row.kind, row.entryId)

def Entry.tag (e : Entry) : Nat × String × String := (e.firstSeq, e.kind.asStr, e.entryId)

section Rows
variable {t : String} {s : EventStore} {rows : List EntryRow}

/-- An upsert keeps the tag of every row and appends at most its own. -/
theorem tags_live (rows : List EntryRow) (u : Upsert) :
    (upserts.live rows u).map EntryRow.tag = rows.map EntryRow.tag ∨
      (upserts.live rows u).map EntryRow.tag = rows.map EntryRow.tag ++ [u.row.tag] := by
  have htag : (upserts.live rows u).map EntryRow.tag =
      rows.map EntryRow.tag ++ (upserts.added rows u).map EntryRow.tag := by
    refine Reducer.map_live (R := upserts) ?_ rows u
    rintro u row _ ⟨rfl⟩
    rfl
  rw [htag]
  by_cases hmem : u.key ∈ rows.map EntryRow.key
  · rw [Reducer.added_of_mem (R := upserts) rfl hmem]
    exact .inl (List.append_nil _)
  · rw [Reducer.added_of_not_mem (R := upserts) rfl hmem]
    exact .inr rfl

/-- Materializing the events after `seq` keeps the tags that are there and adds new ones, in
the order of the sequence numbers of those events. -/
theorem tags_foldl_numbered (events : List NewEvent) (seq : Nat) (rows : List EntryRow) :
    ∃ new, ((numbered t seq events).foldl upserts.live rows).map EntryRow.tag =
        rows.map EntryRow.tag ++ new ∧
      new.Pairwise (fun a b => a.1 < b.1) ∧ ∀ g ∈ new, seq < g.1 ∧ g.1 ≤ seq + events.length := by
  induction events generalizing seq rows with
  | nil => exact ⟨[], (List.append_nil _).symm, .nil, fun _ h => absurd h List.not_mem_nil⟩
  | cons event events ih =>
    dsimp only [numbered]
    rw [List.foldl_append, List.length_cons]
    cases event.entry with
    | none =>
      obtain ⟨new, hnew, hsorted, hseq⟩ := ih (seq + 1) rows
      exact ⟨new, hnew, hsorted, fun g hg => by have := hseq g hg; omega⟩
    | some entry =>
      obtain ⟨new, hnew, hsorted, hseq⟩ := ih (seq + 1) (upserts.live rows ⟨t, seq + 1, entry⟩)
      rcases tags_live rows ⟨t, seq + 1, entry⟩ with h | h
      · exact ⟨new, hnew.trans (by rw [h]), hsorted, fun g hg => by have := hseq g hg; omega⟩
      · refine ⟨(seq + 1, entry.kind.asStr, entry.entryId) :: new, ?_, ?_, ?_⟩
        · exact hnew.trans (by rw [h, List.append_assoc]; rfl)
        · exact List.pairwise_cons.mpr ⟨fun g hg => (hseq g hg).1, hsorted⟩
        · intro g hg
          rcases List.mem_cons.mp hg with rfl | hg
          · dsimp only
            omega
          · have := hseq g hg
            omega

/-- The tags of a thread's rows, in the order of the first sequence number. -/
theorem Sound.sorted (h : Sound s) (t : String) :
    ((s.db.entriesOf t).map EntryRow.tag).Pairwise (fun a b => a.1 < b.1) ∧
      ∀ g ∈ (s.db.entriesOf t).map EntryRow.tag, 0 < g.1 ∧ g.1 ≤ s.db.latestSeq t := by
  obtain ⟨new, hnew, hsorted, hseq⟩ := tags_foldl_numbered (t := t) (s.accepted t) 0 []
  rw [(h.intact t).entries, hnew, (h.intact t).latest]
  exact ⟨hsorted, by simpa using hseq⟩

theorem Sound.latestSeq_le (h : Sound s) (t : String) : s.db.latestSeq t ≤ maxRowId := by
  have hlen : (s.db.eventsOf t).length = s.db.latestSeq t := by
    rw [(h.intact t).latest, ← List.length_map StoredEvent.seq, (h.intact t).seqs,
      List.length_range']
  calc s.db.latestSeq t = (s.db.eventsOf t).length := hlen.symm
    _ ≤ s.db.events.length := List.length_filter_le _ _
    _ = s.db.lastEventId := h.counted
    _ ≤ maxRowId := h.bounded

/-- The kinds of the rows are the texts of entry kinds. -/
theorem kind_of_mem_foldl {us : List Upsert} {row : EntryRow}
    (h : row ∈ us.foldl upserts.live []) : ∃ kind : EntryKind, row.kind = kind.asStr := by
  have hkeys : ((us.foldl upserts.live []).map EntryRow.key).Nodup :=
    nodup_foldl_upserts us List.nodup_nil
  have hrow := lookup_of_mem hkeys h
  rw [lookup_foldl_upserts] at hrow
  cases hus : us.filter fun u => u.key = row.key with
  | nil => simp [hus, entryOf] at hrow
  | cons u us =>
    rw [hus] at hrow
    obtain rfl := Option.some.inj hrow
    exact ⟨u.entry.kind, rfl⟩

end Rows

/-! ### The page of a view -/

/-- The rows of a thread before a cursor, oldest first. -/
def Db.window (db : Db) (t : String) (before : Option UInt64) : List EntryRow :=
  (db.entriesOf t).filter fun row => below before row.firstSeq

/-- The entry of a row whose kind is a known text. -/
def EntryRow.entry (row : EntryRow) : Entry :=
  ⟨row.threadId, (EntryKind.fromStr row.kind).toOption.getD .message, row.entryId, row.firstSeq,
    row.lastSeq, row.turnIndex, row.payload⟩

section Page
variable {t : String} {s : EventStore} {db : Db} {before : Option UInt64}

theorem Sound.rowToEntry_eq (h : Sound s) {row : EntryRow} (hrow : row ∈ s.db.entriesOf t) :
    rowToEntry row = .ok row.entry ∧ Entry.tag row.entry = row.tag := by
  rw [(h.intact t).entries] at hrow
  obtain ⟨kind, hkind⟩ := kind_of_mem_foldl hrow
  simp [rowToEntry, EntryRow.entry, Entry.tag, EntryRow.tag, hkind, Except.toOption]

theorem mem_entriesOf_of_window {row : EntryRow} (h : row ∈ db.window t before) :
    row ∈ db.entriesOf t :=
  (List.mem_filter.mp h).1

theorem Sound.window_sorted (h : Sound s) (t : String) (before : Option UInt64) :
    (s.db.window t before).Pairwise fun a b => a.firstSeq < b.firstSeq :=
  (List.pairwise_map.mp (h.sorted t).1).filter _

/-- The page query returns the window from its end. -/
theorem Sound.selectEntries_eq (h : Sound s) (n : Nat) :
    s.db.selectEntries t before n = (s.db.window t before).reverse.take n := by
  have hfilter : s.db.entries.filter (fun row => row.threadId = t ∧ below before row.firstSeq) =
      s.db.window t before := by
    rw [Db.window, Db.entriesOf, List.filter_filter]
    refine List.filter_congr fun row _ => ?_
    simp [Bool.and_comm]
  have hsort : (s.db.window t before).mergeSort (fun a b => decide (b.firstSeq ≤ a.firstSeq)) =
      (s.db.window t before).reverse :=
    mergeSort_desc EntryRow.firstSeq (fun _ _ => decide_eq_true_iff) (h.window_sorted t before)
  rw [Db.selectEntries, hfilter, hsort]

/-- The probe of the page query tells whether there is more, except for the largest limit,
where `saturating_add` leaves no room for it. -/
theorem viewOf_probe (limit : UInt32) (latestSeq : Nat) (l : List Entry) :
    viewOf limit.toNat latestSeq (l.reverse.take (min (limit.toNat + 1) (2 ^ 32 - 1))) =
      ⟨lastPage limit.toNat l, latestSeq,
        limit.toNat < 2 ^ 32 - 1 ∧ limit.toNat < l.length⟩ := by
  by_cases hlimit : limit.toNat < 2 ^ 32 - 1
  · have hmin : min (limit.toNat + 1) (2 ^ 32 - 1) = limit.toNat + 1 := by omega
    have hmore : limit.toNat < (l.reverse.take (limit.toNat + 1)).length ↔
        limit.toNat < l.length := by
      rw [List.length_take, List.length_reverse]
      omega
    have hpage := page_of_probe limit.toNat l
    rw [if_congr hmore rfl rfl] at hpage
    simp only [viewOf, hmin, decide_eq_true_eq, hmore, hpage, hlimit, true_and]
  · have hmin : min (limit.toNat + 1) (2 ^ 32 - 1) = limit.toNat := by
      have := limit.toNat_lt
      omega
    have hmore : ¬ limit.toNat < (l.reverse.take limit.toNat).length := by
      rw [List.length_take]
      omega
    have hpage : (l.reverse.take limit.toNat).reverse = lastPage limit.toNat l := by
      rw [List.take_reverse, List.reverse_reverse, lastPage]
    simp only [viewOf, hmin, hmore, hlimit, decide_false, Bool.false_eq_true, if_false, false_and,
      hpage]

/-- A view on a reachable store: the last rows of the window, and whether there are more. -/
theorem Sound.openThread_eq (h : Sound s) {n : Nat} (hseq : db.selectLatestSeq t = .ok n)
    (before : Option UInt64) (limit : UInt32) :
    openThread db s.db t ⟨before, limit⟩ =
      .ok ⟨(lastPage limit.toNat (s.db.window t before)).map EntryRow.entry, n,
        limit.toNat < 2 ^ 32 - 1 ∧ limit.toNat < (s.db.window t before).length⟩ := by
  have hrows : ∀ n, (s.db.selectEntries t before n).mapM rowToEntry =
      .ok (((s.db.window t before).map EntryRow.entry).reverse.take n) := by
    intro n
    rw [h.selectEntries_eq, ← List.map_reverse, ← List.map_take]
    refine mapM_eq_ok fun row hrow => (h.rowToEntry_eq (t := t) ?_).1
    exact mem_entriesOf_of_window (List.mem_reverse.mp (List.mem_of_mem_take hrow))
  simp only [openThread, hseq, hrows, bind, Except.bind, viewOf_probe, lastPage_map,
    List.length_map]

end Page

end Tethys.Store
