import Mathlib.Data.List.Basic
import Mathlib.Data.List.Nodup
import Mathlib.Tactic.Common

/-!
# Materializing a keyed event stream

A transcript is a list of entries, each with a key. An event aims at one key: it changes
the first entry with that key (`touch`), or appends an entry when there is none (`fresh`).
`live` applies an event that way; `replay` only creates missing entries. The results say
what a replay of a stream leaves, and how it compares with the live transcript.
-/

namespace Tethys.Lib

section Keyed
variable {ε κ : Type*} [DecidableEq κ] (key : ε → κ)

/-- The first entry with key `x`. -/
def lookup (x : κ) (l : List ε) : Option ε := l.find? fun e => key e = x

/-- Replace the first entry with key `x` by `v`. -/
def put (x : κ) (v : ε) : List ε → List ε
  | [] => []
  | e :: l => if key e = x then v :: l else e :: put x v l

variable {key} {x y : κ} {v e : ε} {l : List ε}

@[simp] theorem lookup_nil : lookup key x [] = none := rfl

theorem lookup_cons : lookup key x (e :: l) = if key e = x then some e else lookup key x l := by
  by_cases h : key e = x <;> simp [lookup, h]

theorem put_cons : put key x v (e :: l) = if key e = x then v :: l else e :: put key x v l := rfl

theorem lookup_append (l' : List ε) :
    lookup key x (l ++ l') = (lookup key x l).or (lookup key x l') := by
  simp [lookup, List.find?_append]

theorem lookup_map {f : ε → ε} (hf : ∀ e, key (f e) = key e) (l : List ε) :
    lookup key x (l.map f) = (lookup key x l).map f := by
  induction l with
  | nil => rfl
  | cons e l ih =>
    rw [List.map_cons, lookup_cons, lookup_cons, hf, ih]
    split_ifs <;> rfl

theorem lookup_eq_none : lookup key x l = none ↔ x ∉ l.map key := by
  simp [lookup]

theorem lookup_isSome : (lookup key x l).isSome ↔ x ∈ l.map key := by
  rw [← not_iff_not, Option.not_isSome_iff_eq_none, lookup_eq_none]

theorem key_of_lookup (h : lookup key x l = some e) : key e = x := by
  simpa using List.find?_some h

theorem mem_of_lookup (h : lookup key x l = some e) : e ∈ l :=
  List.mem_of_find?_eq_some h

theorem put_eq_self_of_lookup (h : lookup key x l = some v) : put key x v l = l := by
  induction l with
  | nil => rfl
  | cons e l ih =>
    rw [lookup_cons] at h
    unfold put
    split_ifs at h ⊢ with hk
    · cases h; rfl
    · rw [ih h]

theorem lookup_put_self (h : x ∈ l.map key) (hv : key v = x) :
    lookup key x (put key x v l) = some v := by
  induction l with
  | nil => simp at h
  | cons e l ih =>
    unfold put
    split_ifs with hk
    · simp [lookup_cons, hv]
    · rw [lookup_cons, if_neg hk]
      exact ih (by simpa [Ne.symm hk] using h)

theorem lookup_put_of_ne (hxy : y ≠ x) (hv : key v = x) :
    lookup key y (put key x v l) = lookup key y l := by
  induction l with
  | nil => rfl
  | cons e l ih =>
    unfold put
    split_ifs with hk
    · simp [lookup_cons, hv, hk, hxy.symm]
    · simp [lookup_cons, ih]

/-- Replacing an entry by one with the same tag keeps the list of tags. -/
theorem map_put {τ : Type*} (tag : ε → τ) (h : ∀ e, lookup key x l = some e → tag v = tag e) :
    (put key x v l).map tag = l.map tag := by
  induction l with
  | nil => rfl
  | cons e l ih =>
    unfold put
    split_ifs with hk
    · simp [h e (by simp [lookup_cons, hk])]
    · simp [ih fun e' he => h e' (by simp [lookup_cons, hk, he])]

/-- With distinct keys, replacing an entry is a map over the list. -/
theorem put_eq_map (hd : (l.map key).Nodup) :
    put key x v l = l.map fun e => if key e = x then v else e := by
  induction l with
  | nil => rfl
  | cons e l ih =>
    rw [List.map_cons, List.nodup_cons] at hd
    unfold put
    split_ifs with hk
    · have hid : l.map (fun e => if key e = x then v else e) = l := by
        refine (List.map_congr_left fun e' he' => ?_).trans (List.map_id l)
        have hne : key e' ≠ x := fun h => hd.1 (hk ▸ h ▸ List.mem_map_of_mem he')
        simp [hne]
      simp [hk, hid]
    · simp [hk, ih hd.2]

/-- With distinct keys, an entry of the list is the one its key finds. -/
theorem lookup_of_mem (hd : (l.map key).Nodup) (he : e ∈ l) : lookup key (key e) l = some e := by
  induction l with
  | nil => simp at he
  | cons e' l ih =>
    rw [List.map_cons, List.nodup_cons] at hd
    rw [lookup_cons]
    rcases List.mem_cons.mp he with rfl | he
    · simp
    · have hne : key e' ≠ key e := fun h => hd.1 (h ▸ List.mem_map_of_mem he)
      rw [if_neg hne, ih hd.2 he]

theorem lookup_filter {p : κ → Bool} (hp : p x) :
    lookup key x (l.filter fun e => p (key e)) = lookup key x l := by
  induction l with
  | nil => rfl
  | cons e l ih =>
    rw [List.filter_cons, lookup_cons]
    split_ifs with he hk hk
    · rw [lookup_cons, if_pos hk]
    · rw [lookup_cons, if_neg hk, ih]
    · exact absurd (hk ▸ hp) he
    · exact ih

theorem filter_put {p : κ → Bool} (hp : p x) (hv : key v = x) :
    (put key x v l).filter (fun e => p (key e)) = put key x v (l.filter fun e => p (key e)) := by
  induction l with
  | nil => rfl
  | cons e l ih =>
    rw [put_cons]
    split_ifs with hk
    · simp [hv, hk, hp, put_cons]
    · by_cases he : p (key e)
      · simp [he, ih, put_cons, hk]
      · simp [he, ih]

/-- Replacing an entry outside the part of the keys that is looked at. -/
theorem filter_put_of_not {p : κ → Bool} (hp : ¬ p x) (hv : key v = x) :
    (put key x v l).filter (fun e => p (key e)) = l.filter fun e => p (key e) := by
  induction l with
  | nil => rfl
  | cons e l ih =>
    unfold put
    split_ifs with hk
    · simp [hv, hk, hp]
    · simp [List.filter_cons, ih]

/-- Replacing an entry by one that a filter treats alike. -/
theorem filter_put_of_eq {q : ε → Bool} (hl : lookup key x l = some e) (hq : q v = q e) :
    (put key x v l).filter q = if q e then put key x v (l.filter q) else l.filter q := by
  induction l with
  | nil => cases hl
  | cons e' l ih =>
    rw [lookup_cons] at hl
    rw [put_cons]
    split_ifs at hl ⊢ with hk he he
    · obtain rfl := Option.some.inj hl
      simp [hq, he, put_cons, hk]
    · obtain rfl := Option.some.inj hl
      simp [hq, he]
    · have ih := ih hl
      rw [if_pos he] at ih
      by_cases he' : q e' <;> simp [he', ih, put_cons, hk]
    · have ih := ih hl
      rw [if_neg he] at ih
      by_cases he' : q e' <;> simp [he', ih]

end Keyed

/-- How one kind of event acts on keyed entries. -/
structure Reducer (ε κ α : Type*) where
  key : ε → κ
  target : α → Option κ
  touch : α → ε → Option ε
  fresh : α → Option ε
  key_touch : ∀ {a e e'}, touch a e = some e' → key e' = key e
  target_fresh : ∀ {a e}, fresh a = some e → target a = some (key e)

namespace Reducer

variable {ε κ α : Type*} [DecidableEq κ] (R : Reducer ε κ α)

/-- Change the entry the event aims at, or create it. -/
def live (l : List ε) (a : α) : List ε :=
  match R.target a with
  | none => l
  | some x =>
    match lookup R.key x l with
    | some e => match R.touch a e with
      | some e' => put R.key x e' l
      | none => l
    | none => l ++ (R.fresh a).toList

/-- The entry that the event creates, when its key is missing. -/
def added (l : List ε) (a : α) : List ε :=
  (R.fresh a).toList.filter fun e => R.key e ∉ l.map R.key

/-- Create the entry the event aims at when it is missing; change nothing else. -/
def replay (l : List ε) (a : α) : List ε := l ++ R.added l a

/-- The entries that a replay of `as` adds to a transcript with keys `ks`: for each
missing key, the entry of the first event that creates it. -/
def firsts : List κ → List α → List ε
  | _, [] => []
  | ks, a :: as =>
    match R.fresh a with
    | some e => if R.key e ∈ ks then firsts ks as else e :: firsts (ks ++ [R.key e]) as
    | none => firsts ks as

variable {R} {l m : List ε} {a : α}

theorem added_of_mem {x : κ} (ht : R.target a = some x) (hx : x ∈ l.map R.key) :
    R.added l a = [] := by
  unfold added
  cases hf : R.fresh a with
  | none => rfl
  | some e =>
    obtain rfl : x = R.key e := by simpa [ht] using R.target_fresh hf
    simpa [List.filter_cons] using hx

theorem added_of_not_mem {x : κ} (ht : R.target a = some x) (hx : x ∉ l.map R.key) :
    R.added l a = (R.fresh a).toList := by
  unfold added
  cases hf : R.fresh a with
  | none => rfl
  | some e =>
    obtain rfl : x = R.key e := by simpa [ht] using R.target_fresh hf
    simpa [List.filter_cons] using hx

theorem added_of_no_target (ht : R.target a = none) : R.added l a = [] := by
  unfold added
  cases hf : R.fresh a with
  | none => rfl
  | some e => simp [R.target_fresh hf] at ht

theorem added_congr (hk : l.map R.key = m.map R.key) : R.added l a = R.added m a := by
  rw [added, added, hk]

theorem live_of_touch {x : κ} {e e' : ε} (ht : R.target a = some x)
    (hl : lookup R.key x l = some e) (htouch : R.touch a e = some e') :
    R.live l a = put R.key x e' l := by
  simp [live, ht, hl, htouch]

theorem live_of_untouched {x : κ} {e : ε} (ht : R.target a = some x)
    (hl : lookup R.key x l = some e) (htouch : R.touch a e = none) : R.live l a = l := by
  simp [live, ht, hl, htouch]

theorem live_of_not_mem {x : κ} (ht : R.target a = some x) (hl : x ∉ l.map R.key) :
    R.live l a = l ++ (R.fresh a).toList := by
  simp [live, ht, lookup_eq_none.mpr hl]

theorem live_of_no_target (ht : R.target a = none) : R.live l a = l := by
  simp [live, ht]

/-- One live event keeps every tag that `touch` keeps, and adds that of a new entry. -/
theorem map_live {τ : Type*} {tag : ε → τ}
    (htag : ∀ {a e e'}, R.touch a e = some e' → tag e' = tag e) (l : List ε) (a : α) :
    (R.live l a).map tag = l.map tag ++ (R.added l a).map tag := by
  cases hta : R.target a with
  | none => simp [live_of_no_target hta, added_of_no_target hta]
  | some x =>
    by_cases hx : x ∈ l.map R.key
    · obtain ⟨e, he⟩ := Option.isSome_iff_exists.mp (lookup_isSome.mpr hx)
      rw [added_of_mem hta hx, List.map_nil, List.append_nil]
      cases htouch : R.touch a e with
      | none => rw [live_of_untouched hta he htouch]
      | some e' =>
        rw [live_of_touch hta he htouch]
        refine map_put tag fun e₂ he₂ => ?_
        rw [he] at he₂
        cases he₂
        exact htag htouch
    · rw [live_of_not_mem hta hx, added_of_not_mem hta hx, List.map_append]

/-- Keys and kept tags of a live transcript and of a replay agree, event by event. -/
theorem map_foldl_live_eq {τ : Type*} {tag : ε → τ}
    (htag : ∀ {a e e'}, R.touch a e = some e' → tag e' = tag e) (as : List α)
    (hk : l.map R.key = m.map R.key) (ht : l.map tag = m.map tag) :
    (as.foldl R.live l).map R.key = (as.foldl R.replay m).map R.key ∧
      (as.foldl R.live l).map tag = (as.foldl R.replay m).map tag := by
  induction as generalizing l m with
  | nil => exact ⟨hk, ht⟩
  | cons a as ih =>
    refine ih ?_ ?_
    · rw [map_live R.key_touch, replay, List.map_append, hk, added_congr hk]
    · rw [map_live htag, replay, List.map_append, ht, added_congr hk]

/-- A whole replay keeps the transcript and adds the first entry of every missing key. -/
theorem foldl_replay_eq (as : List α) (l : List ε) :
    as.foldl R.replay l = l ++ R.firsts (l.map R.key) as := by
  induction as generalizing l with
  | nil => simp [firsts]
  | cons a as ih =>
    rw [List.foldl_cons, ih, replay, firsts]
    cases hf : R.fresh a with
    | none => simp [added, hf]
    | some e =>
      by_cases hmem : R.key e ∈ l.map R.key
      · simp only [added_of_mem (R.target_fresh hf) hmem, List.append_nil, if_pos hmem]
      · simp only [added_of_not_mem (R.target_fresh hf) hmem, hf, if_neg hmem, Option.toList_some,
          List.map_append, List.map_cons, List.map_nil, List.append_assoc, List.cons_append,
          List.nil_append]

/-- Tags never leave a transcript. -/
theorem map_live_grows {τ : Type*} {tag : ε → τ}
    (htag : ∀ {a e e'}, R.touch a e = some e' → tag e' = tag e) (l : List ε) (a : α) :
    l.map tag <+: (R.live l a).map tag := by
  rw [map_live htag]
  exact List.prefix_append _ _

theorem map_foldl_live_grows {τ : Type*} {tag : ε → τ}
    (htag : ∀ {a e e'}, R.touch a e = some e' → tag e' = tag e) (as : List α) (l : List ε) :
    l.map tag <+: (as.foldl R.live l).map tag := by
  induction as generalizing l with
  | nil => exact List.prefix_rfl
  | cons a as ih => exact (map_live_grows htag l a).trans (ih _)

theorem nodup_live (h : (l.map R.key).Nodup) : ((R.live l a).map R.key).Nodup := by
  rw [map_live R.key_touch]
  cases hf : R.fresh a with
  | none => simpa [added, hf] using h
  | some e =>
    by_cases hmem : R.key e ∈ l.map R.key
    · simpa [added_of_mem (R.target_fresh hf) hmem] using h
    · rw [added_of_not_mem (R.target_fresh hf) hmem, hf]
      exact h.append (List.nodup_singleton _) (by simpa using hmem)

/-- An event aimed elsewhere does not change the entry at `x`. -/
theorem lookup_live_of_ne {x : κ} (ht : R.target a ≠ some x) :
    lookup R.key x (R.live l a) = lookup R.key x l := by
  cases hta : R.target a with
  | none => rw [live_of_no_target hta]
  | some y =>
    have hxy : x ≠ y := fun h => ht (h ▸ hta)
    by_cases hy : y ∈ l.map R.key
    · obtain ⟨e, he⟩ := Option.isSome_iff_exists.mp (lookup_isSome.mpr hy)
      cases htouch : R.touch a e with
      | none => rw [live_of_untouched hta he htouch]
      | some e' =>
        rw [live_of_touch hta he htouch]
        exact lookup_put_of_ne hxy ((R.key_touch htouch).trans (key_of_lookup he))
    · rw [live_of_not_mem hta hy, lookup_append]
      cases hf : R.fresh a with
      | none => simp
      | some e =>
        have hke : R.key e = y := by simpa [hta] using (R.target_fresh hf).symm
        simp [lookup_cons, hke, hxy.symm]

/-- One live event on the entry it aims at. -/
theorem lookup_live_of_some {x : κ} {e : ε} (ht : R.target a = some x)
    (hl : lookup R.key x l = some e) :
    lookup R.key x (R.live l a) = some ((R.touch a e).getD e) := by
  cases htouch : R.touch a e with
  | none => rw [live_of_untouched ht hl htouch, hl]; rfl
  | some e' =>
    rw [live_of_touch ht hl htouch]
    exact lookup_put_self (lookup_isSome.mp (by simp [hl]))
      ((R.key_touch htouch).trans (key_of_lookup hl))

theorem lookup_live_of_none {x : κ} (ht : R.target a = some x) (hl : lookup R.key x l = none) :
    lookup R.key x (R.live l a) = R.fresh a := by
  rw [live_of_not_mem ht (lookup_eq_none.mp hl), lookup_append, hl]
  cases hf : R.fresh a with
  | none => rfl
  | some e =>
    have hke : R.key e = x := by simpa [ht] using (R.target_fresh hf).symm
    simp [lookup_cons, hke]

/-- Looking at part of the keys commutes with the events aimed at that part. -/
theorem filter_live {p : κ → Bool} {x : κ} (ht : R.target a = some x) (hp : p x) (l : List ε) :
    (R.live l a).filter (fun e => p (R.key e)) = R.live (l.filter fun e => p (R.key e)) a := by
  have hfind : lookup R.key x (l.filter fun e => p (R.key e)) = lookup R.key x l :=
    lookup_filter hp
  cases hl : lookup R.key x l with
  | none =>
    rw [live_of_not_mem ht (lookup_eq_none.mp hl),
      live_of_not_mem ht (lookup_eq_none.mp (hfind.trans hl)), List.filter_append]
    cases hf : R.fresh a with
    | none => rfl
    | some e =>
      obtain rfl : x = R.key e := by simpa [ht] using R.target_fresh hf
      simp [hp]
  | some e =>
    cases htouch : R.touch a e with
    | none =>
      rw [live_of_untouched ht hl htouch, live_of_untouched ht (hfind.trans hl) htouch]
    | some e' =>
      rw [live_of_touch ht hl htouch, live_of_touch ht (hfind.trans hl) htouch]
      exact filter_put hp ((R.key_touch htouch).trans (key_of_lookup hl))

theorem filter_live_of_not {p : κ → Bool} {x : κ} (ht : R.target a = some x) (hp : ¬ p x)
    (l : List ε) :
    (R.live l a).filter (fun e => p (R.key e)) = l.filter fun e => p (R.key e) := by
  cases hl : lookup R.key x l with
  | none =>
    rw [live_of_not_mem ht (lookup_eq_none.mp hl), List.filter_append]
    cases hf : R.fresh a with
    | none => simp
    | some e =>
      obtain rfl : x = R.key e := by simpa [ht] using R.target_fresh hf
      simp [hp]
  | some e =>
    cases htouch : R.touch a e with
    | none => rw [live_of_untouched ht hl htouch]
    | some e' =>
      rw [live_of_touch ht hl htouch]
      exact filter_put_of_not hp ((R.key_touch htouch).trans (key_of_lookup hl))

/-- An entry that no later event changes is still there at the end. -/
theorem lookup_foldl_live_of_kept {x : κ} {e : ε} (as : List α)
    (hl : lookup R.key x l = some e)
    (hkept : ∀ a ∈ as, R.target a = some x → (R.touch a e).getD e = e) :
    lookup R.key x (as.foldl R.live l) = some e := by
  induction as generalizing l with
  | nil => exact hl
  | cons a as ih =>
    refine ih ?_ fun b hb => hkept b (List.mem_cons_of_mem _ hb)
    by_cases ht : R.target a = some x
    · rw [lookup_live_of_some ht hl, hkept a List.mem_cons_self ht]
    · rw [lookup_live_of_ne ht, hl]

/-- The key of every event that can create an entry is in the transcript afterwards. -/
theorem key_fresh_mem_foldl_live {as : List α} {b : α} {e : ε} (l : List ε) (hb : b ∈ as)
    (hf : R.fresh b = some e) : R.key e ∈ (as.foldl R.live l).map R.key := by
  induction as generalizing l with
  | nil => simp at hb
  | cons a as ih =>
    rcases List.mem_cons.mp hb with rfl | hb
    · refine (map_foldl_live_grows R.key_touch as _).subset ?_
      rw [← lookup_isSome]
      cases hl : lookup R.key (R.key e) l with
      | none => simp [lookup_live_of_none (R.target_fresh hf) hl, hf]
      | some e' => simp [lookup_live_of_some (R.target_fresh hf) hl]
    · exact ih _ hb

/-- Replaying events whose entries are all there changes nothing. -/
theorem foldl_replay_of_known {as : List α} {l : List ε}
    (h : ∀ a ∈ as, ∀ e, R.fresh a = some e → R.key e ∈ l.map R.key) :
    as.foldl R.replay l = l := by
  induction as with
  | nil => rfl
  | cons a as ih =>
    rw [List.forall_mem_cons] at h
    have hstep : R.replay l a = l := by
      unfold replay
      cases hf : R.fresh a with
      | none => simp [added, hf]
      | some e => rw [added_of_mem (R.target_fresh hf) (h.1 e hf), List.append_nil]
    rw [List.foldl_cons, hstep, ih h.2]

/-- Replaying a stream over the live transcript of one of its prefixes replays the rest. -/
theorem foldl_replay_after_live (as bs : List α) (l : List ε) :
    (as ++ bs).foldl R.replay (as.foldl R.live l) = bs.foldl R.replay (as.foldl R.live l) := by
  have hknown : as.foldl R.replay (as.foldl R.live l) = as.foldl R.live l :=
    foldl_replay_of_known fun a ha e hf => key_fresh_mem_foldl_live l ha hf
  rw [List.foldl_append, hknown]

/-- A replay keeps every entry it finds. -/
theorem lookup_foldl_replay {x : κ} {e : ε} (as : List α) (hl : lookup R.key x l = some e) :
    lookup R.key x (as.foldl R.replay l) = some e := by
  rw [foldl_replay_eq, lookup_append, hl]
  rfl

/-- The keys of the events that create are there after a replay. -/
theorem key_fresh_mem_foldl_replay {as : List α} {b : α} {e : ε} (l : List ε) (hb : b ∈ as)
    (hf : R.fresh b = some e) : R.key e ∈ (as.foldl R.replay l).map R.key := by
  have hkeys := (map_foldl_live_eq (R := R) R.key_touch as (l := l) rfl rfl).1
  rw [← hkeys]
  exact key_fresh_mem_foldl_live l hb hf

/-! ## Live and replayed events in one stream -/

/-- Apply an event, as a replayed one if the flag is set. -/
def step (R : Reducer ε κ α) (l : List ε) (a : α × Bool) : List ε :=
  if a.2 then R.replay l a.1 else R.live l a.1

/-- What an event makes of the entry with its key, or of its absence. -/
def act (R : Reducer ε κ α) : Option ε → α × Bool → Option ε
  | some e, (a, replayed) => some (if replayed then e else (R.touch a e).getD e)
  | none, (a, _) => R.fresh a

theorem lookup_replay {x : κ} (l : List ε) (a : α) :
    lookup R.key x (R.replay l a) =
      if R.target a = some x then R.act (lookup R.key x l) (a, true) else lookup R.key x l := by
  rw [replay, lookup_append]
  cases hl : lookup R.key x l with
  | some e =>
    rw [Option.some_or]
    split_ifs <;> rfl
  | none =>
    have hmem : x ∉ l.map R.key := lookup_eq_none.mp hl
    rw [Option.none_or]
    split_ifs with ht
    · rw [added_of_not_mem ht hmem, act]
      cases hf : R.fresh a with
      | none => rfl
      | some e =>
        obtain rfl : x = R.key e := by simpa [ht] using R.target_fresh hf
        simp [lookup_cons]
    · rw [lookup_eq_none]
      intro hx
      obtain ⟨e, he, rfl⟩ := List.mem_map.mp hx
      have hf : R.fresh a = some e := by simpa using (List.mem_filter.mp he).1
      exact ht (R.target_fresh hf)

/-- An event acts on the entry with its key only. -/
theorem lookup_step {x : κ} (l : List ε) (a : α × Bool) :
    lookup R.key x (R.step l a) =
      if R.target a.1 = some x then R.act (lookup R.key x l) a else lookup R.key x l := by
  obtain ⟨a, replayed⟩ := a
  cases replayed with
  | true => exact lookup_replay l a
  | false =>
    change lookup R.key x (R.live l a) = _
    split_ifs with ht
    · cases hl : lookup R.key x l with
      | none => exact lookup_live_of_none ht hl
      | some e => exact lookup_live_of_some ht hl
    · exact lookup_live_of_ne ht

/-- The entry at a key after a whole stream: a fold over the events for that key. -/
theorem lookup_foldl_step {x : κ} (as : List (α × Bool)) (l : List ε) :
    lookup R.key x (as.foldl R.step l) =
      (as.filter fun a => R.target a.1 = some x).foldl R.act (lookup R.key x l) := by
  induction as generalizing l with
  | nil => rfl
  | cons a as ih =>
    rw [List.foldl_cons, ih, lookup_step, List.filter_cons]
    by_cases ht : R.target a.1 = some x <;> simp [ht]

/-- Every event keeps the tags that `touch` keeps. -/
theorem map_step_grows {τ : Type*} {tag : ε → τ}
    (htag : ∀ {a e e'}, R.touch a e = some e' → tag e' = tag e) (l : List ε) (a : α × Bool) :
    l.map tag <+: (R.step l a).map tag := by
  unfold step
  split_ifs
  · rw [replay, List.map_append]
    exact List.prefix_append _ _
  · exact map_live_grows htag l a.1

theorem map_foldl_step_grows {τ : Type*} {tag : ε → τ}
    (htag : ∀ {a e e'}, R.touch a e = some e' → tag e' = tag e) (as : List (α × Bool))
    (l : List ε) : l.map tag <+: (as.foldl R.step l).map tag := by
  induction as generalizing l with
  | nil => exact List.prefix_rfl
  | cons a as ih => exact (map_step_grows htag l a).trans (ih _)

theorem nodup_step {a : α × Bool} (h : (l.map R.key).Nodup) : ((R.step l a).map R.key).Nodup := by
  unfold step
  split_ifs
  · rw [replay, List.map_append, ← map_live R.key_touch]
    exact nodup_live h
  · exact nodup_live h

theorem nodup_foldl_step {as : List (α × Bool)} (h : (l.map R.key).Nodup) :
    ((as.foldl R.step l).map R.key).Nodup := by
  induction as generalizing l with
  | nil => exact h
  | cons a as ih => exact ih (nodup_step h)

end Reducer

/-- Lists with distinct keys and the same entry at every key are permutations of each other. -/
theorem perm_of_lookup_eq {ε κ : Type*} [DecidableEq κ] {key : ε → κ} {l m : List ε}
    (hl : (l.map key).Nodup) (hm : (m.map key).Nodup)
    (h : ∀ x, lookup key x l = lookup key x m) : l.Perm m := by
  refine (List.perm_ext_iff_of_nodup hl.of_map hm.of_map).mpr fun e => ?_
  constructor
  · intro he
    have hlookup := lookup_of_mem hl he
    rw [h] at hlookup
    exact mem_of_lookup hlookup
  · intro he
    have hlookup := lookup_of_mem hm he
    rw [← h] at hlookup
    exact mem_of_lookup hlookup

end Tethys.Lib
