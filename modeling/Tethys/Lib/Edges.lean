import Mathlib.Data.List.Basic
import Mathlib.Tactic.Common

/-!
# Edges that are retried

A detector that remembers on which side of an edge it was last, and has something to do when a
report comes from the other side. It remembers the new side only when that was done, so that it
tries again with the next report.
-/

namespace Tethys.Lib

variable {ρ : Type*} (inside done : ρ → Bool)

/-- The report is from the other side. -/
def crosses (last : Bool) (r : ρ) : Bool := inside r != last

/-- The side that is remembered after a report. -/
def sideAfter (last : Bool) (r : ρ) : Bool :=
  if crosses inside last r && !done r then last else inside r

/-- The reports, each with whether something was tried. -/
def crossings : Bool → List ρ → List (ρ × Bool)
  | _, [] => []
  | last, r :: rs => (r, crosses inside last r) :: crossings (sideAfter inside done last r) rs

def sideAfterAll (last : Bool) (rs : List ρ) : Bool := rs.foldl (sideAfter inside done) last

variable {inside done} {last side : Bool} {r : ρ} {rs rs' : List ρ}

@[simp] theorem crossings_nil : crossings inside done last [] = [] := rfl

theorem crossings_append : crossings inside done last (rs ++ rs') =
    crossings inside done last rs ++ crossings inside done (sideAfterAll inside done last rs) rs' := by
  induction rs generalizing last with
  | nil => rfl
  | cons r rs ih => exact congrArg _ ih

theorem map_fst_crossings : (crossings inside done last rs).map Prod.fst = rs := by
  induction rs generalizing last with
  | nil => rfl
  | cons r rs ih => exact congrArg _ ih

/-- What stands at a place of the crossings. -/
theorem crossings_place {before after : List (ρ × Bool)} {crossed : Bool}
    (h : crossings inside done last rs = before ++ (r, crossed) :: after) :
    ∃ front back, rs = front ++ r :: back ∧ before = crossings inside done last front ∧
      crossed = crosses inside (sideAfterAll inside done last front) r := by
  induction before generalizing last rs with
  | nil =>
    cases rs with
    | nil => cases h
    | cons r' rs =>
      obtain ⟨hr, -⟩ := List.cons.inj h
      obtain ⟨rfl, rfl⟩ := Prod.mk.inj hr
      exact ⟨[], rs, rfl, rfl, rfl⟩
  | cons e before ih =>
    cases rs with
    | nil => cases h
    | cons r' rs =>
      obtain ⟨rfl, hrest⟩ := List.cons.inj h
      obtain ⟨front, back, rfl, rfl, hcrossed⟩ := ih hrest
      exact ⟨r' :: front, back, rfl, rfl, hcrossed⟩

theorem sideAfterAll_append : sideAfterAll inside done last (rs ++ rs') =
    sideAfterAll inside done (sideAfterAll inside done last rs) rs' := List.foldl_append

theorem sideAfter_self (h : inside r = last) : sideAfter inside done last r = last := by
  simp [sideAfter, crosses, h]

theorem sideAfter_of_done (hdone : done r = true) : sideAfter inside done last r = inside r := by
  simp [sideAfter, hdone]

theorem sideAfter_of_not_done (hdone : done r = false) : sideAfter inside done last r = last := by
  by_cases h : inside r = last
  · exact sideAfter_self h
  · simp [sideAfter, crosses, h, hdone]

/-- Reports from the side that is remembered change nothing. -/
theorem sideAfterAll_self (h : ∀ r ∈ rs, inside r = side) : sideAfterAll inside done side rs = side := by
  induction rs with
  | nil => rfl
  | cons r rs ih =>
    rw [List.forall_mem_cons] at h
    rw [sideAfterAll, List.foldl_cons, sideAfter_self h.1]
    exact ih h.2

/-- The side is remembered as soon as one of the tries is done, -/
theorem sideAfterAll_of_done (h : ∀ r ∈ rs, inside r = side) (hdone : ∃ r ∈ rs, done r = true) :
    sideAfterAll inside done last rs = side := by
  induction rs generalizing last with
  | nil => simp at hdone
  | cons r rs ih =>
    rw [List.forall_mem_cons] at h
    rw [sideAfterAll, List.foldl_cons]
    by_cases hr : done r = true
    · rw [sideAfter_of_done hr, h.1]
      exact sideAfterAll_self h.2
    · refine ih h.2 ?_
      obtain ⟨r', hr', hdone'⟩ := hdone
      rcases List.mem_cons.mp hr' with rfl | hr'
      · exact absurd hdone' hr
      · exact ⟨r', hr', hdone'⟩

/-- and not before. -/
theorem sideAfterAll_of_not_done (hdone : ∀ r ∈ rs, done r = false) :
    sideAfterAll inside done last rs = last := by
  induction rs generalizing last with
  | nil => rfl
  | cons r rs ih =>
    rw [List.forall_mem_cons] at hdone
    rw [sideAfterAll, List.foldl_cons, sideAfter_of_not_done hdone.1]
    exact ih hdone.2

/-! ## Periods -/

variable (inside done) in
/-- Each period is entered and left with a try. -/
def Detected : Bool → List (List ρ × List ρ) → Prop
  | _, [] => True
  | last, (ins, outs) :: periods =>
    (∀ r ∈ ins.head?, crosses inside last r = true) ∧
      (∀ r ∈ outs.head?, crosses inside (sideAfterAll inside done last ins) r = true) ∧
      Detected (sideAfterAll inside done last (ins ++ outs)) periods

/-- The same, for each period with those before it. -/
theorem detected_iff_forall {periods : List (List ρ × List ρ)} :
    Detected inside done last periods ↔ ∀ front p back, periods = front ++ p :: back →
      (∀ r ∈ p.1.head?,
        crosses inside (sideAfterAll inside done last (front.flatMap fun p => p.1 ++ p.2)) r = true) ∧
      ∀ r ∈ p.2.head?, crosses inside
        (sideAfterAll inside done last ((front.flatMap fun p => p.1 ++ p.2) ++ p.1)) r = true := by
  induction periods generalizing last with
  | nil => simp [Detected]
  | cons p periods ih =>
    constructor
    · rintro ⟨hin, hout, hrest⟩ front q back heq
      cases front with
      | nil =>
        obtain ⟨rfl, -⟩ := List.cons.inj heq
        exact ⟨hin, hout⟩
      | cons p' front =>
        obtain ⟨rfl, hperiods⟩ := List.cons.inj heq
        have hlater := ih.mp hrest front q back hperiods
        simpa only [List.flatMap_cons, List.append_assoc, sideAfterAll_append] using hlater
    · intro hall
      obtain ⟨hin, hout⟩ := hall [] p periods rfl
      refine ⟨hin, hout, ih.mpr fun front q back heq => ?_⟩
      have hlater := hall (p :: front) q back (by rw [heq, List.cons_append])
      simpa only [List.flatMap_cons, List.append_assoc, sideAfterAll_append] using hlater

variable (inside) in
/-- Reports from inside, and then from outside, some of each. -/
structure IsPeriod (period : List ρ × List ρ) : Prop where
  ins_ne_nil : period.1 ≠ []
  outs_ne_nil : period.2 ≠ []
  ins : ∀ r ∈ period.1, inside r = true
  outs : ∀ r ∈ period.2, inside r = false

theorem exists_of_not_done (h : ¬ ∃ r ∈ rs, done r = true) : ∀ r ∈ rs, done r = false :=
  fun r hr => Bool.eq_false_iff.mpr fun hdone => h ⟨r, hr, hdone⟩

/-- A period that is not entered is not left, and where one is not left, the next is not entered. -/
theorem detected_cons_iff {p : List ρ × List ρ} {periods : List (List ρ × List ρ)}
    (h : ∀ q ∈ p :: periods, IsPeriod inside q) :
    Detected inside done false (p :: periods) ↔
      (∃ r ∈ p.1, done r = true) ∧
        (periods = [] ∨ (∃ r ∈ p.2, done r = true) ∧ Detected inside done false periods) := by
  rw [List.forall_mem_cons] at h
  obtain ⟨⟨hins, houts, hin, hout⟩, hrest⟩ := h
  obtain ⟨ins, outs⟩ := p
  have hentered : ∀ r, ins.head? = some r → crosses inside false r = true := fun r hr => by
    simp [crosses, hin r (List.mem_of_head? hr)]
  obtain ⟨b, hb⟩ : ∃ b, outs.head? = some b := by
    cases outs with
    | nil => exact absurd rfl houts
    | cons b outs => exact ⟨b, rfl⟩
  have hoff : inside b = false := hout b (List.mem_of_head? hb)
  by_cases hdone : ∃ r ∈ ins, done r = true
  · have hinside : sideAfterAll inside done false ins = true := sideAfterAll_of_done hin hdone
    have hleft : crosses inside true b = true := by simp [crosses, hoff]
    have hfirst : Detected inside done false ((ins, outs) :: periods) ↔
        Detected inside done (sideAfterAll inside done true outs) periods := by
      simpa [Detected, hinside, hb, hleft, sideAfterAll_append] using fun _ => hentered
    rw [hfirst]
    by_cases hdone' : ∃ r ∈ outs, done r = true
    · rw [sideAfterAll_of_done hout hdone']
      cases periods with
      | nil => simp [Detected, hdone]
      | cons next periods => simp [hdone, hdone']
    · rw [sideAfterAll_of_not_done (exists_of_not_done hdone')]
      cases periods with
      | nil => simp [Detected, hdone]
      | cons next periods =>
        obtain ⟨hnext, -, hnextIn, -⟩ := hrest next List.mem_cons_self
        obtain ⟨ins', outs'⟩ := next
        obtain ⟨c, hc⟩ : ∃ c, ins'.head? = some c := by
          cases ins' with
          | nil => exact absurd rfl hnext
          | cons c ins' => exact ⟨c, rfl⟩
        have hsame : crosses inside true c = false := by
          simp [crosses, hnextIn c (List.mem_of_head? hc)]
        simp [Detected, hc, hsame, hdone']
  · have houtside : sideAfterAll inside done false ins = false :=
      sideAfterAll_of_not_done (exists_of_not_done hdone)
    have hsame : crosses inside false b = false := by simp [crosses, hoff]
    simp [Detected, houtside, hb, hsame, hdone]

/-- From outside, every period is entered and left with a try if and only if in every period one of
the tries to enter it is done, and, unless the period is the last one, one of the tries to leave
it. -/
theorem detected_iff {periods : List (List ρ × List ρ)} (h : ∀ p ∈ periods, IsPeriod inside p) :
    Detected inside done false periods ↔
      (∀ p ∈ periods, ∃ r ∈ p.1, done r = true) ∧ ∀ p ∈ periods.dropLast, ∃ r ∈ p.2, done r = true := by
  induction periods with
  | nil => simp [Detected]
  | cons p periods ih =>
    rw [detected_cons_iff h, ih (List.forall_mem_cons.mp h).2]
    cases periods with
    | nil => simp
    | cons next periods =>
      have hdrop : (p :: next :: periods).dropLast = p :: (next :: periods).dropLast := rfl
      rw [hdrop]
      constructor
      · rintro ⟨hin, hnil | ⟨hout, hins, houts⟩⟩
        · cases hnil
        · exact ⟨List.forall_mem_cons.mpr ⟨hin, hins⟩, List.forall_mem_cons.mpr ⟨hout, houts⟩⟩
      · rintro ⟨hins, houts⟩
        obtain ⟨hin, hins⟩ := List.forall_mem_cons.mp hins
        obtain ⟨hout, houts⟩ := List.forall_mem_cons.mp houts
        exact ⟨hin, .inr ⟨hout, hins, houts⟩⟩

end Tethys.Lib
