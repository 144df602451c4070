import Tethys.Lib.Paths
import Tethys.Lib.Text
import Tethys.Git.Snapshots

/-!
# The refs of a thread

Turn checkpoints and restore captures of a thread lie in one directory of refs and are told
apart by their names. The names that are written are read back as what they were, so that the
list of a thread is exactly the turn refs that exist.
-/

namespace Tethys.Git

open Lib

def archivedRoot : String := "refs/tethys/archived"

/-- Ref a turn edge moves to on archive. -/
def archivedRef (thread : String) (turn : Nat) (phase : CheckpointPhase) : String :=
  archivedRoot ++ "/" ++ thread ++ "/" ++ toString turn ++ "/" ++ phase.edge

/-- The directory of the refs of a thread. -/
def threadDir (thread : String) : String := checkpointsRoot ++ "/" ++ thread ++ "/"

def restoreDir (thread : String) : String := threadDir thread ++ restoreSegment ++ "/"

def archivedDir (thread : String) : String := archivedRoot ++ "/" ++ thread ++ "/"

/-- The last two parts of a turn ref. -/
def edgeChars (turn : Nat) (phase : CheckpointPhase) : List Char :=
  (toString turn).toList ++ '/' :: phase.edge.toList

/-- The ref lies in the directory. -/
def inDir (dir : String) (refname : String) : Bool := dir.toList.isPrefixOf refname.toList

/-! ## Numbers -/

theorem head_toDigits (n : Nat) : ∃ c rest, Nat.toDigits 10 n = c :: rest ∧ c.isDigit = true := by
  obtain ⟨c, rest, hdigits⟩ := List.exists_cons_of_ne_nil (Nat.toDigits_ne_nil (n := n) (b := 10))
  refine ⟨c, rest, hdigits, ?_⟩
  exact Nat.isDigit_of_mem_toDigits (b := 10) (by decide) (by decide)
    (hdigits ▸ List.mem_cons_self)

/-- A number that was printed is read back if it is in the range. -/
theorem parseU32_toDigits (n : Nat) :
    parseU32 (Nat.toDigits 10 n) = if n < 2 ^ 32 then some n else none := by
  obtain ⟨c, rest, hdigits, hc⟩ := head_toDigits n
  have hplus : (Nat.toDigits 10 n).head? ≠ some '+' := by
    rw [hdigits]
    rintro heq
    obtain rfl := Option.some.inj heq
    cases hc
  have hall : (Nat.toDigits 10 n).all Char.isDigit = true := by
    rw [List.all_eq_true]
    exact fun c hc => Nat.isDigit_of_mem_toDigits (by decide) (by decide) hc
  have hvalue : (Nat.toDigits 10 n).foldl (fun n c => 10 * n + (c.toNat - '0'.toNat)) 0 = n :=
    Nat.ofDigitChars_ten_toDigits
  rw [parseU32, if_neg hplus]
  simp only [hall, and_true, hvalue, ne_eq, Nat.toDigits_ne_nil, not_false_eq_true, if_true]

theorem parseU32_toString {n : Nat} (h : n < 2 ^ 32) : parseU32 (toString n).toList = some n := by
  rw [toList_toString, parseU32_toDigits, if_pos h]

theorem slash_notMem_toString (n : Nat) : '/' ∉ (toString n).toList := notMem_toString (by decide) n

theorem takeWhile_append_slash {front : List Char} (h : '/' ∉ front) (rest : List Char) :
    (front ++ '/' :: rest).takeWhile (· ≠ '/') = front := by
  have hfront : ∀ c ∈ front, decide (c ≠ '/') = true :=
    fun c hc => decide_eq_true fun heq => h (heq ▸ hc)
  rw [List.takeWhile_append_of_pos hfront]
  simp

theorem edge_injective {p q : CheckpointPhase} (h : p.edge = q.edge) : p = q := by
  cases p <;> cases q <;> first | rfl | exact absurd h (by decide)

theorem edgeChars_injective {turn turn' : Nat} {phase phase' : CheckpointPhase}
    (h : edgeChars turn phase = edgeChars turn' phase') : turn = turn' ∧ phase = phase' := by
  have hturn := congrArg (fun chars => chars.takeWhile (· ≠ '/')) h
  simp only [edgeChars, takeWhile_append_slash (slash_notMem_toString _)] at hturn
  obtain rfl := toString_injective hturn
  have hedge := List.append_cancel_left h
  exact ⟨rfl, edge_injective (String.toList_inj.mp (List.cons.inj hedge).2)⟩

/-! ## Names -/

section Names
variable {thread : String} {turn index : Nat} {phase : CheckpointPhase} {kind : String}

theorem turnRef_toList :
    (turnRef thread turn phase).toList = (threadDir thread).toList ++ edgeChars turn phase := by
  simp [turnRef, threadDir, edgeChars]

theorem archivedRef_toList :
    (archivedRef thread turn phase).toList = (archivedDir thread).toList ++ edgeChars turn phase := by
  simp [archivedRef, archivedDir, edgeChars]

theorem restoreRef_toList :
    (restoreRef thread index kind).toList =
      (restoreDir thread).toList ++ ((toString index).toList ++ '/' :: kind.toList) := by
  simp [restoreRef, restoreDir, threadDir]

theorem restoreDir_toList :
    (restoreDir thread).toList = (threadDir thread).toList ++ (restoreSegment.toList ++ ['/']) := by
  simp [restoreDir]

theorem inDir_of_toList {dir name : String} {rest : List Char}
    (h : name.toList = dir.toList ++ rest) : inDir dir name = true := by
  rw [inDir, h, List.isPrefixOf_iff_prefix]
  exact List.prefix_append ..

theorem inDir_turnRef : inDir (threadDir thread) (turnRef thread turn phase) = true :=
  inDir_of_toList turnRef_toList

theorem inDir_archivedRef : inDir (archivedDir thread) (archivedRef thread turn phase) = true :=
  inDir_of_toList archivedRef_toList

theorem inDir_restoreRef : inDir (restoreDir thread) (restoreRef thread index kind) = true :=
  inDir_of_toList restoreRef_toList

/-- The directory of the captures lies in the directory of the thread. -/
theorem inDir_of_restoreDir {name : String} (h : inDir (restoreDir thread) name = true) :
    inDir (threadDir thread) name = true := by
  rw [inDir, List.isPrefixOf_iff_prefix] at h ⊢
  rw [restoreDir_toList] at h
  exact (List.prefix_append ..).trans h

/-- The two directories of a thread share no ref. -/
theorem inDir_threadDir_of_archivedDir {other name : String}
    (h : inDir (archivedDir other) name = true) : inDir (threadDir thread) name = false := by
  rw [Bool.eq_false_iff]
  intro hdir
  rw [inDir, List.isPrefixOf_iff_prefix] at h hdir
  obtain ⟨rest, hrest⟩ := h
  obtain ⟨rest', hrest'⟩ := hdir
  have hchars := congrArg (fun chars => chars[12]?) (hrest.trans hrest'.symm)
  simp only [archivedDir, threadDir, String.toList_append, List.append_assoc] at hchars
  rw [List.getElem?_append_left (by decide +kernel), List.getElem?_append_left (by decide +kernel)]
    at hchars
  exact absurd hchars (by decide +kernel)

/-- A number stands where the captures have their own directory. -/
theorem inDir_restoreDir_turnRef :
    inDir (restoreDir thread) (turnRef thread turn phase) = false := by
  rw [Bool.eq_false_iff]
  intro hdir
  rw [inDir, List.isPrefixOf_iff_prefix, restoreDir_toList, turnRef_toList] at hdir
  have hedge := (List.prefix_append_right_inj _).mp hdir
  obtain ⟨c, rest, hdigits, hc⟩ := head_toDigits turn
  rw [edgeChars, toList_toString, hdigits, List.cons_append] at hedge
  obtain ⟨tail, htail⟩ := hedge
  obtain rfl : 'r' = c := (List.cons.inj htail).1
  cases hc

theorem turnRef_injective {turn' : Nat} {phase' : CheckpointPhase}
    (h : turnRef thread turn phase = turnRef thread turn' phase') : turn = turn' ∧ phase = phase' := by
  have hchars := congrArg String.toList h
  rw [turnRef_toList, turnRef_toList] at hchars
  exact edgeChars_injective (List.append_cancel_left hchars)

theorem archivedRef_injective {turn' : Nat} {phase' : CheckpointPhase}
    (h : archivedRef thread turn phase = archivedRef thread turn' phase') :
    turn = turn' ∧ phase = phase' := by
  have hchars := congrArg String.toList h
  rw [archivedRef_toList, archivedRef_toList] at hchars
  exact edgeChars_injective (List.append_cancel_left hchars)

theorem restoreRef_injective {index' : Nat} {kind' : String}
    (h : restoreRef thread index kind = restoreRef thread index' kind') :
    index = index' ∧ kind = kind' := by
  have hchars := congrArg String.toList h
  rw [restoreRef_toList, restoreRef_toList] at hchars
  have hrest := List.append_cancel_left hchars
  have hindex := congrArg (fun chars => chars.takeWhile (· ≠ '/')) hrest
  simp only [takeWhile_append_slash (slash_notMem_toString _)] at hindex
  obtain rfl := toString_injective hindex
  exact ⟨rfl, String.toList_inj.mp (List.cons.inj (List.append_cancel_left hrest)).2⟩

theorem turnRef_ne_archivedRef {turn' : Nat} {phase' : CheckpointPhase} :
    turnRef thread turn phase ≠ archivedRef thread turn' phase' := by
  intro h
  have hdir : inDir (threadDir thread) (archivedRef thread turn' phase') = true := h ▸ inDir_turnRef
  rw [inDir_threadDir_of_archivedDir inDir_archivedRef] at hdir
  cases hdir

end Names

/-! ## Reading names back -/

section Parse
variable {g : Rules} {thread : String} {turn index : Nat} {phase : CheckpointPhase} {kind : String}

theorem validThread_chars (h : validThread g thread = true) :
    thread.toList ≠ [] ∧ '/' ∉ thread.toList := by
  simp only [validThread, Bool.and_eq_true, Bool.not_eq_true', Bool.or_eq_false_iff,
    List.any_eq_false] at h
  obtain ⟨⟨⟨hempty, -⟩, hchars⟩, -⟩ := h
  constructor
  · intro hnil
    rw [String.toList_eq_nil_iff.mp hnil] at hempty
    cases hempty
  · intro hslash
    exact absurd (by simp) (hchars '/' hslash)

/-- What stands after the directory of the thread decides. -/
theorem parseCheckpointRef_of_dir {name : String} {rest : List Char}
    (hthread : thread.toList ≠ [] ∧ '/' ∉ thread.toList)
    (hname : name.toList = (threadDir thread).toList ++ rest) :
    parseCheckpointRef name =
      match rest.splitOn '/' with
      | turn :: phase :: _ =>
        (parseU32 turn).bind fun turn =>
          if phase = "start".toList then some (turn, .start)
          else if phase = "end".toList then some (turn, .final)
          else none
      | _ => none := by
  obtain ⟨hne, hslash⟩ := hthread
  obtain ⟨c, chars, hchars⟩ := List.exists_cons_of_ne_nil hne
  have hc : c ≠ '/' := fun heq => hslash (hchars ▸ heq ▸ List.mem_cons_self)
  have hroot : name.toList = checkpointsRoot.toList ++ ('/' :: (thread.toList ++ '/' :: rest)) := by
    simp [hname, threadDir]
  have hdir : checkpointsRoot.toList.isPrefixOf name.toList = true := by
    rw [hroot, List.isPrefixOf_iff_prefix]
    exact List.prefix_append ..
  have hdrop : (name.toList.drop checkpointsRoot.length).dropWhile (· = '/') =
      thread.toList ++ '/' :: rest := by
    rw [hroot, ← String.length_toList, List.drop_left, hchars]
    simp [hc]
  rw [parseCheckpointRef, if_pos hdir, hdrop]
  dsimp only
  rw [List.splitOn_append_cons_self_of_not_mem hslash]
  cases rest.splitOn '/' with
  | nil => rfl
  | cons turn parts => cases parts <;> rfl

theorem slash_notMem_edge (phase : CheckpointPhase) : '/' ∉ phase.edge.toList := by
  cases phase <;> decide +kernel

theorem parseCheckpointRef_turnRef (hvalid : validThread g thread = true) (hturn : turn < 2 ^ 32) :
    parseCheckpointRef (turnRef thread turn phase) = some (turn, phase) := by
  rw [parseCheckpointRef_of_dir (validThread_chars hvalid) turnRef_toList, edgeChars,
    List.splitOn_append_cons_self_of_not_mem (slash_notMem_toString turn),
    List.splitOn_eq_singleton (slash_notMem_edge phase)]
  simp only [parseU32_toString hturn, Option.bind_some]
  cases phase
  · rfl
  · rfl

/-- The directory of the captures is no turn. -/
theorem parseCheckpointRef_restoreRef (hvalid : validThread g thread = true) :
    parseCheckpointRef (restoreRef thread index kind) = none := by
  have hname : (restoreRef thread index kind).toList = (threadDir thread).toList ++
      (restoreSegment.toList ++ '/' :: ((toString index).toList ++ '/' :: kind.toList)) := by
    rw [restoreRef_toList, restoreDir_toList]
    simp
  have hsegment : parseU32 restoreSegment.toList = none := by decide +kernel
  rw [parseCheckpointRef_of_dir (validThread_chars hvalid) hname,
    List.splitOn_append_cons_self_of_not_mem (by decide +kernel),
    List.splitOn_append_cons_self_of_not_mem (slash_notMem_toString index)]
  cases kind.toList.splitOn '/' with
  | nil => simp only [hsegment, Option.bind_none]
  | cons part parts => simp only [hsegment, Option.bind_none]

/-- The directory is cut off once: a number stands after it. -/
theorem trimStartMatches_of_not_prefix {pat text : List Char} {fuel : Nat}
    (h : pat.isPrefixOf text = false) : trimStartMatches pat (fuel + 1) (pat ++ text) = text := by
  have hpat : pat.isPrefixOf (pat ++ text) = true :=
    List.isPrefixOf_iff_prefix.mpr (List.prefix_append ..)
  rw [trimStartMatches, if_pos hpat, List.drop_left]
  cases fuel with
  | zero => rfl
  | succ fuel => rw [trimStartMatches, h, if_neg Bool.false_ne_true]

theorem restoreIndexOf_restoreRef (hindex : index < 2 ^ 32) :
    restoreIndexOf (restoreDir thread) (restoreRef thread index kind) = some index := by
  have hdir : (restoreDir thread).toList.isPrefixOf
      ((toString index).toList ++ '/' :: kind.toList) = false := by
    rw [Bool.eq_false_iff, ne_eq, List.isPrefixOf_iff_prefix]
    rintro ⟨rest, hrest⟩
    obtain ⟨c, digits, hdigits, hc⟩ := head_toDigits index
    rw [toList_toString, hdigits] at hrest
    simp only [restoreDir, threadDir, checkpointsRoot, String.toList_append] at hrest
    obtain rfl : 'r' = c := (List.cons.inj hrest).1
    cases hc
  have hlength : ∃ fuel, (restoreRef thread index kind).length = fuel + 1 := by
    refine Nat.exists_eq_succ_of_ne_zero fun h => ?_
    rw [← String.length_toList, restoreRef_toList, List.length_append, List.length_append,
      List.length_cons] at h
    omega
  obtain ⟨fuel, hfuel⟩ := hlength
  rw [restoreIndexOf, hfuel, restoreRef_toList, trimStartMatches_of_not_prefix hdir,
    takeWhile_append_slash (slash_notMem_toString index), parseU32_toString hindex]
  simp

end Parse

/-! ## The list of a thread -/

/-- The entry of the list for a turn ref. -/
def infoOf (thread : String) (turn : Nat) (phase : CheckpointPhase) (oid : Oid) : CheckpointInfo where
  threadId := thread
  turn := turn
  phase := phase
  commitOid := oid
  treeOid := .tree oid.peel
  createdAt := (refEntry (turnRef thread turn phase) oid).createdAtUnix * 1000

/-- By turn, and the start of a turn before its end. -/
def CheckpointInfo.Before (a b : CheckpointInfo) : Prop :=
  a.turn < b.turn ∨ a.turn = b.turn ∧ a.phase.rank < b.phase.rank

def CheckpointInfo.le (a b : CheckpointInfo) : Bool :=
  decide (a.turn < b.turn) || (a.turn = b.turn && decide (a.phase.rank ≤ b.phase.rank))

namespace Repo

/-- The checkpoint of a turn edge that is not archived. -/
def unarchived (s : Repo) (thread : String) (turn : Nat) (phase : CheckpointPhase) : Option Oid :=
  s.refs.get (turnRef thread turn phase)

def archived (s : Repo) (thread : String) (turn : Nat) (phase : CheckpointPhase) : Option Oid :=
  s.refs.get (archivedRef thread turn phase)

/-- Every ref in the directory of the thread is named as a turn edge or as a capture. -/
def Named (thread : String) (s : Repo) : Prop :=
  ∀ name oid, s.refs.get name = some oid → inDir (threadDir thread) name = true →
    (∃ turn < 2 ^ 32, ∃ phase, name = turnRef thread turn phase) ∨
      ∃ index < 2 ^ 32, ∃ kind, name = restoreRef thread index kind

/-- The entries of a list before they are sorted. -/
def infos (s : Repo) (thread : String) : List CheckpointInfo :=
  ((s.refs.entries.filter fun e => inDir (threadDir thread) e.1).map fun e => refEntry e.1 e.2).filterMap
    (checkpointInfo thread)

end Repo

section List
variable {g : Rules} {thread : String} {s : Repo}

theorem list_run (hvalid : validThread g thread = true) :
    (list g thread).run s = (.ok ((s.infos thread).mergeSort CheckpointInfo.le), s) := by
  unfold list validateThread
  rw [if_pos hvalid]
  rfl

theorem validateThread_run_invalid (hvalid : validThread g thread = false) :
    (validateThread g thread).run s = (.error (.invalidThread thread), s) := by
  rw [validateThread, hvalid, if_neg Bool.false_ne_true]
  rfl

@[simp] theorem refname_refEntry (name : String) (oid : Oid) : (refEntry name oid).refname = name := by
  cases oid <;> rfl

@[simp] theorem oid_refEntry (name : String) (oid : Oid) : (refEntry name oid).oid = some oid := by
  cases oid <;> rfl

theorem checkpointInfo_refEntry {name : String} {turn : Nat} {phase : CheckpointPhase} (oid : Oid)
    (h : parseCheckpointRef name = some (turn, phase)) :
    checkpointInfo thread (refEntry name oid) = some (infoOf thread turn phase oid) := by
  cases oid <;> simp [checkpointInfo, refEntry, h, infoOf, Oid.peel]

/-- The ref that an entry of the list was read from. -/
theorem checkpointInfo_eq_some (hvalid : validThread g thread = true) (hnamed : s.Named thread)
    {name : String} {oid : Oid} {info : CheckpointInfo} (hget : s.refs.get name = some oid)
    (hdir : inDir (threadDir thread) name = true)
    (h : checkpointInfo thread (refEntry name oid) = some info) :
    ∃ turn phase, name = turnRef thread turn phase ∧ info = infoOf thread turn phase oid := by
  obtain ⟨turn, hturn, phase, rfl⟩ | ⟨index, hindex, kind, rfl⟩ := hnamed name oid hget hdir
  · rw [checkpointInfo_refEntry oid (parseCheckpointRef_turnRef hvalid hturn)] at h
    exact ⟨turn, phase, rfl, (Option.some.inj h).symm⟩
  · rw [checkpointInfo, refname_refEntry, parseCheckpointRef_restoreRef hvalid] at h
    cases h

theorem mem_infos (hvalid : validThread g thread = true) (hnamed : s.Named thread)
    {info : CheckpointInfo} :
    info ∈ s.infos thread ↔
      ∃ turn phase oid, s.unarchived thread turn phase = some oid ∧
        info = infoOf thread turn phase oid := by
  simp only [Repo.infos, List.mem_filterMap, List.mem_map, List.mem_filter, Prod.exists]
  constructor
  · rintro ⟨entry, ⟨name, oid, ⟨hmem, hdir⟩, rfl⟩, hinfo⟩
    have hget : s.refs.get name = some oid := OrdMap.get_eq_some.mpr hmem
    obtain ⟨turn, phase, rfl, rfl⟩ := checkpointInfo_eq_some hvalid hnamed hget hdir hinfo
    exact ⟨turn, phase, oid, hget, rfl⟩
  · rintro ⟨turn, phase, oid, hget, rfl⟩
    refine ⟨_, ⟨_, oid, ⟨OrdMap.get_eq_some.mp hget, inDir_turnRef⟩, rfl⟩, ?_⟩
    obtain ⟨turn', hturn, phase', heq⟩ | ⟨index, hindex, kind, heq⟩ :=
      hnamed _ oid hget inDir_turnRef
    · obtain ⟨rfl, rfl⟩ := turnRef_injective heq
      exact checkpointInfo_refEntry oid (parseCheckpointRef_turnRef hvalid hturn)
    · have hdir : inDir (restoreDir thread) (turnRef thread turn phase) = true :=
        heq ▸ inDir_restoreRef
      rw [inDir_restoreDir_turnRef] at hdir
      cases hdir

/-- No turn edge is listed twice. -/
theorem pairwise_infos (hvalid : validThread g thread = true) (hnamed : s.Named thread) :
    (s.infos thread).Pairwise fun a b => ¬(a.turn = b.turn ∧ a.phase = b.phase) := by
  rw [Repo.infos, List.filterMap_map, List.pairwise_filterMap]
  refine (s.refs.sorted.filter _).imp_of_mem fun {e e'} he he' hlt info hinfo info' hinfo' => ?_
  obtain ⟨hmem, hdir⟩ := List.mem_filter.mp he
  obtain ⟨hmem', hdir'⟩ := List.mem_filter.mp he'
  obtain ⟨turn, phase, hname, rfl⟩ :=
    checkpointInfo_eq_some hvalid hnamed (OrdMap.get_eq_some.mpr hmem) hdir hinfo
  obtain ⟨turn', phase', hname', rfl⟩ :=
    checkpointInfo_eq_some hvalid hnamed (OrdMap.get_eq_some.mpr hmem') hdir' hinfo'
  rintro ⟨hturn, hphase⟩
  obtain rfl : turn = turn' := hturn
  obtain rfl : phase = phase' := hphase
  exact absurd (hname.trans hname'.symm) (ne_of_lt hlt)

theorem CheckpointPhase.rank_injective {p q : CheckpointPhase} (h : p.rank = q.rank) : p = q := by
  cases p <;> cases q <;> first | rfl | cases h

theorem CheckpointInfo.le_total (a b : CheckpointInfo) : (a.le b || b.le a) = true := by
  simp only [CheckpointInfo.le, Bool.or_eq_true, Bool.and_eq_true, decide_eq_true_eq]
  omega

theorem CheckpointInfo.le_trans (a b c : CheckpointInfo) (hab : a.le b = true) (hbc : b.le c = true) :
    a.le c = true := by
  simp only [CheckpointInfo.le, Bool.or_eq_true, Bool.and_eq_true, decide_eq_true_eq] at *
  omega

theorem CheckpointInfo.before_of_le {a b : CheckpointInfo} (h : a.le b = true)
    (hne : ¬(a.turn = b.turn ∧ a.phase = b.phase)) : a.Before b := by
  simp only [CheckpointInfo.le, Bool.or_eq_true, Bool.and_eq_true, decide_eq_true_eq] at h
  rcases h with h | ⟨hturn, hrank⟩
  · exact .inl h
  · refine .inr ⟨hturn, lt_of_le_of_ne hrank fun heq =>
      hne ⟨hturn, CheckpointPhase.rank_injective heq⟩⟩

/-- The turn edges that are not archived, each once and in order. -/
theorem pairwise_listed (hvalid : validThread g thread = true) (hnamed : s.Named thread) :
    ((s.infos thread).mergeSort CheckpointInfo.le).Pairwise CheckpointInfo.Before := by
  have hperm := List.mergeSort_perm (s.infos thread) CheckpointInfo.le
  have hle := List.pairwise_mergeSort CheckpointInfo.le_trans CheckpointInfo.le_total
    (s.infos thread)
  have hdistinct : ((s.infos thread).mergeSort CheckpointInfo.le).Pairwise
      fun a b => ¬(a.turn = b.turn ∧ a.phase = b.phase) :=
    (hperm.pairwise_iff fun hne h => hne ⟨h.1.symm, h.2.symm⟩).mpr (pairwise_infos hvalid hnamed)
  exact hle.imp₂ (fun a b => CheckpointInfo.before_of_le) hdistinct

theorem mem_listed (hvalid : validThread g thread = true) (hnamed : s.Named thread)
    {info : CheckpointInfo} :
    info ∈ (s.infos thread).mergeSort CheckpointInfo.le ↔
      ∃ turn phase oid, s.unarchived thread turn phase = some oid ∧
        info = infoOf thread turn phase oid := by
  rw [(List.mergeSort_perm _ _).mem_iff, mem_infos hvalid hnamed]

end List

/-! ## The next restore index -/

section NextIndex
variable {thread : String} {s : Repo}

/-- The indexes of the captures that exist. -/
def Repo.captureIndexes (s : Repo) (thread : String) : List Nat :=
  ((s.refs.entries.filter fun e => inDir (restoreDir thread) e.1).map fun e =>
    refEntry e.1 e.2).filterMap fun entry => restoreIndexOf (restoreDir thread) entry.refname

theorem mem_captureIndexes (hnamed : s.Named thread) {index : Nat} :
    index ∈ s.captureIndexes thread ↔
      index < 2 ^ 32 ∧ ∃ kind, s.refs.get (restoreRef thread index kind) ≠ none := by
  simp only [Repo.captureIndexes, List.mem_filterMap, List.mem_map, List.mem_filter, Prod.exists]
  constructor
  · rintro ⟨entry, ⟨name, oid, ⟨hmem, hdir⟩, rfl⟩, hindex⟩
    have hget : s.refs.get name = some oid := OrdMap.get_eq_some.mpr hmem
    obtain ⟨turn, -, phase, rfl⟩ | ⟨index', hlt, kind, rfl⟩ :=
      hnamed name oid hget (inDir_of_restoreDir hdir)
    · rw [inDir_restoreDir_turnRef] at hdir
      cases hdir
    · rw [refname_refEntry, restoreIndexOf_restoreRef hlt] at hindex
      obtain rfl := Option.some.inj hindex
      exact ⟨hlt, kind, by rw [hget]; exact Option.some_ne_none oid⟩
  · rintro ⟨hlt, kind, hget⟩
    obtain ⟨oid, hget⟩ := Option.ne_none_iff_exists'.mp hget
    refine ⟨_, ⟨_, oid, ⟨OrdMap.get_eq_some.mp hget, inDir_restoreRef⟩, rfl⟩, ?_⟩
    rw [refname_refEntry, restoreIndexOf_restoreRef hlt]

/-- The index of the next capture of the thread. -/
def Repo.nextIndex (s : Repo) (thread : String) : Nat :=
  (s.captureIndexes thread).max?.elim 0 fun current => (current + 1) % 2 ^ 32

theorem nextRestoreIndex_run :
    (nextRestoreIndex thread).run s =
      (.ok (s.nextIndex thread), s) := rfl

theorem nextIndex_lt (s : Repo) (thread : String) : s.nextIndex thread < 2 ^ 32 := by
  unfold Repo.nextIndex
  cases (s.captureIndexes thread).max? with
  | none => exact Nat.two_pow_pos 32
  | some current => exact Nat.mod_lt _ (Nat.two_pow_pos 32)

/-- A capture has the index. -/
def Repo.Captured (s : Repo) (thread : String) (index : Nat) : Prop :=
  ∃ kind, s.refs.get (restoreRef thread index kind) ≠ none

/-- The next index is free unless it starts again at zero. -/
theorem nextIndex_free (hnamed : s.Named thread)
    (h : ¬(s.Captured thread (2 ^ 32 - 1) ∧ s.Captured thread 0)) :
    ¬s.Captured thread (s.nextIndex thread) := by
  intro hused
  have hmem := (mem_captureIndexes hnamed).mpr ⟨nextIndex_lt s thread, hused⟩
  unfold Repo.nextIndex at hmem hused
  cases hmax : (s.captureIndexes thread).max? with
  | none =>
    rw [List.max?_eq_none_iff] at hmax
    rw [hmax] at hmem
    cases hmem
  | some current =>
    rw [hmax, Option.elim_some] at hmem hused
    obtain ⟨hcurrent, hle⟩ := List.max?_eq_some_iff.mp hmax
    obtain ⟨hlt, hcaptured⟩ := (mem_captureIndexes hnamed).mp hcurrent
    have hnext := hle _ hmem
    -- the sum is not above the largest index: it has wrapped
    obtain rfl : current = 2 ^ 32 - 1 := by omega
    exact h ⟨hcaptured, hused⟩

/-- Indexes are given out one after the other, and after the last one they start again. -/
theorem nextIndex_eq (hnamed : s.Named thread) {n : Nat} (hn : n ≤ 2 ^ 32)
    (h : ∀ index, s.Captured thread index ↔ index < n) : s.nextIndex thread = n % 2 ^ 32 := by
  have hmem : ∀ index, index ∈ s.captureIndexes thread ↔ index < n := fun index => by
    rw [mem_captureIndexes hnamed, ← Repo.Captured, h]
    omega
  unfold Repo.nextIndex
  cases hmax : (s.captureIndexes thread).max? with
  | none =>
    rw [List.max?_eq_none_iff] at hmax
    have hzero : ¬0 < n := by rw [← hmem, hmax]; exact List.not_mem_nil
    obtain rfl : n = 0 := by omega
    rfl
  | some current =>
    obtain ⟨hcurrent, hle⟩ := List.max?_eq_some_iff.mp hmax
    have hlt := (hmem current).mp hcurrent
    have hge := hle (n - 1) ((hmem (n - 1)).mpr (by omega))
    obtain rfl : n = current + 1 := by omega
    rfl

end NextIndex

end Tethys.Git
