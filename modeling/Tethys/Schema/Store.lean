import Mathlib.Data.List.Basic
import Mathlib.Tactic.Common

/-!
# Store and event log wire types

The types of `tethys-schema/src/store.rs` that cross the persistence boundary. A thread id
is its string.
-/

namespace Tethys.Schema.Store

/-- Sequence range assigned to a batch of events. -/
structure SeqRange where
  first : Nat
  last : Nat
  deriving DecidableEq

/-- The sequence numbers of the range, in order. -/
def SeqRange.seqs (r : SeqRange) : List Nat := List.range' r.first (r.last + 1 - r.first)

/-- Category of a materialized entry in a thread transcript. -/
inductive EntryKind where
  | message | toolCall | plan | terminal
  deriving DecidableEq

namespace EntryKind

def asStr : EntryKind → String
  | message => "message"
  | toolCall => "tool_call"
  | plan => "plan"
  | terminal => "terminal"

def fromStr (s : String) : Except String EntryKind :=
  if s = "message" then .ok message
  else if s = "tool_call" then .ok toolCall
  else if s = "plan" then .ok plan
  else if s = "terminal" then .ok terminal
  else .error ("unknown entry kind: " ++ s)

@[simp] theorem fromStr_asStr (k : EntryKind) : fromStr k.asStr = .ok k := by
  cases k <;> decide

@[simp] theorem asStr_inj (j k : EntryKind) : j.asStr = k.asStr ↔ j = k := by
  constructor
  · intro h
    have hj := fromStr_asStr j
    rw [h, fromStr_asStr] at hj
    exact (Except.ok.inj hj).symm
  · rintro rfl
    rfl

end EntryKind

structure EntryUpsert where
  kind : EntryKind
  entryId : String
  turnIndex : Option Nat
  payload : String
  deriving DecidableEq

structure NewEvent where
  kind : String
  payload : String
  entry : Option EntryUpsert
  deriving DecidableEq

structure Entry where
  threadId : String
  kind : EntryKind
  entryId : String
  firstSeq : Nat
  lastSeq : Nat
  turnIndex : Option Nat
  payload : String
  deriving DecidableEq

/-- Request for a page of entries; the cursor is a `u64`, the limit a `u32`. -/
structure EntryPage where
  beforeFirstSeq : Option UInt64
  limit : UInt32
  deriving DecidableEq

structure ThreadView where
  entries : List Entry
  latestSeq : Nat
  hasMore : Bool
  deriving DecidableEq

structure StoredEvent where
  id : Nat
  threadId : String
  seq : Nat
  eventType : String
  payload : String
  createdAt : Int
  deriving DecidableEq

end Tethys.Schema.Store
