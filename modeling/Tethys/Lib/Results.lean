import Mathlib.Tactic.Common

/-!
# Results of fallible computations

Rules that peel apart an `Except` or `Option` computation that returned a value.
-/

namespace Tethys.Lib

variable {ε α β : Type}

theorem bind_eq_ok {x : Except ε α} {f : α → Except ε β} {b : β}
    (h : x >>= f = .ok b) : ∃ a, x = .ok a ∧ f a = .ok b := by
  cases x with
  | error e => exact nomatch h
  | ok a => exact ⟨a, rfl, h⟩

theorem map_eq_ok {x : Except ε α} {f : α → β} {b : β}
    (h : x.map f = .ok b) : ∃ a, x = .ok a ∧ f a = b := by
  cases x with
  | error e => exact nomatch h
  | ok a => exact ⟨a, rfl, Except.ok.inj h⟩

theorem mapError_eq_ok {ε' : Type} {x : Except ε α} {f : ε → ε'} {a : α}
    (h : x.mapError f = .ok a) : x = .ok a := by
  cases x with
  | error e => exact nomatch h
  | ok a' => exact congrArg Except.ok (Except.ok.inj h)

/-- A traversal that succeeds on every element maps the list. -/
theorem mapM_eq_ok {f : α → Except ε β} {g : α → β} {l : List α}
    (h : ∀ a ∈ l, f a = .ok (g a)) : l.mapM f = .ok (l.map g) := by
  induction l with
  | nil => rfl
  | cons a l ih =>
    rw [List.forall_mem_cons] at h
    rw [List.mapM_cons, h.1, ih h.2]
    rfl

/-- Every result of a traversal comes from an element of the list, and every element has one. -/
theorem mem_of_mapM_eq_ok {f : α → Except ε β} {l : List α} {bs : List β}
    (h : l.mapM f = .ok bs) :
    (∀ b ∈ bs, ∃ a ∈ l, f a = .ok b) ∧ ∀ a ∈ l, ∃ b ∈ bs, f a = .ok b := by
  induction l generalizing bs with
  | nil =>
    obtain rfl := Except.ok.inj h
    exact ⟨nofun, nofun⟩
  | cons a l ih =>
    rw [List.mapM_cons] at h
    obtain ⟨b, hb, h⟩ := bind_eq_ok h
    obtain ⟨bs', hbs', h⟩ := bind_eq_ok h
    obtain rfl := Except.ok.inj h
    obtain ⟨hback, hforth⟩ := ih hbs'
    constructor
    · intro c hc
      rcases List.mem_cons.mp hc with rfl | hc
      · exact ⟨a, List.mem_cons_self, hb⟩
      · obtain ⟨a', ha', hf⟩ := hback c hc
        exact ⟨a', List.mem_cons_of_mem _ ha', hf⟩
    · intro a' ha'
      rcases List.mem_cons.mp ha' with rfl | ha'
      · exact ⟨b, List.mem_cons_self, hb⟩
      · obtain ⟨c, hc, hf⟩ := hforth a' ha'
        exact ⟨c, List.mem_cons_of_mem _ hc, hf⟩

/-- Decoding element by element what was encoded element by element. -/
theorem mapM_map_eq_some {γ : Type} {decode : β → Option γ} {encode : α → β} {g : α → γ}
    (h : ∀ a, decode (encode a) = some (g a)) (l : List α) :
    (l.map encode).mapM decode = some (l.map g) := by
  induction l with
  | nil => rfl
  | cons a l ih =>
    rw [List.map_cons, List.mapM_cons, h, ih]
    rfl

/-- Every result of a traversal comes from an element of the list. -/
theorem mem_of_mapM_eq_some {f : α → Option β} {l : List α} {bs : List β}
    (h : l.mapM f = some bs) {b : β} (hb : b ∈ bs) : ∃ a ∈ l, f a = some b := by
  induction l generalizing bs with
  | nil =>
    cases h
    cases hb
  | cons a l ih =>
    rw [List.mapM_cons] at h
    obtain ⟨c, hc, h⟩ := Option.bind_eq_some_iff.mp h
    obtain ⟨cs, hcs, h⟩ := Option.bind_eq_some_iff.mp h
    cases h
    rcases List.mem_cons.mp hb with rfl | hb
    · exact ⟨a, List.mem_cons_self, hc⟩
    · obtain ⟨a', ha', hf⟩ := ih hcs hb
      exact ⟨a', List.mem_cons_of_mem _ ha', hf⟩

/-- What a partial map makes of a list, in the order of the list, is related to its sources if
and only if each image is. -/
theorem forall₂_filter_filterMap {R : α → β → Prop} {p : α → Bool} {f : α → Option β}
    {l : List α} (hp : ∀ a ∈ l, p a = (f a).isSome) :
    List.Forall₂ R (l.filter p) (l.filterMap f) ↔ ∀ a ∈ l, ∀ b, f a = some b → R a b := by
  induction l with
  | nil => simp
  | cons a l ih =>
    rw [List.forall_mem_cons] at hp ⊢
    cases hf : f a with
    | none => simp [hp.1, hf, ih hp.2]
    | some b => simp [hp.1, hf, ih hp.2]

/-! ## Failures that keep the state -/

section Stateful
variable {σ : Type} {x : ExceptT ε (StateM σ) α} {f : α → ExceptT ε (StateM σ) β} {s s' : σ}

theorem run_bind_ok {a : α} (h : x.run s = (.ok a, s')) :
    (x >>= f).run s = (f a).run s' := by
  change ExceptT.bindCont f (x.run s).1 (x.run s).2 = _
  rw [h]
  rfl

theorem run_bind_error {e : ε} (h : x.run s = (.error e, s')) :
    (x >>= f).run s = (.error e, s') := by
  change ExceptT.bindCont f (x.run s).1 (x.run s).2 = _
  rw [h]
  rfl

theorem run_get_bind {f : σ → ExceptT ε (StateM σ) β} :
    ((get : ExceptT ε (StateM σ) σ) >>= f).run s = (f s).run s := rfl

theorem run_set : (set s' : ExceptT ε (StateM σ) PUnit).run s = (.ok ⟨⟩, s') := rfl

theorem run_throw (e : ε) : (throw e : ExceptT ε (StateM σ) α).run s = (.error e, s) := rfl

theorem run_bind_eq_ok {b : β} (h : (x >>= f).run s = (.ok b, s')) :
    ∃ a t, x.run s = (.ok a, t) ∧ (f a).run t = (.ok b, s') := by
  rcases hx : x.run s with ⟨r, t⟩
  cases r with
  | error e =>
    rw [run_bind_error hx] at h
    cases h
  | ok a =>
    rw [run_bind_ok hx] at h
    exact ⟨a, t, rfl, h⟩

/-- The computation leaves what `f` reads alone, whether it fails or not. -/
def Keeps {γ : Type} (f : σ → γ) (x : ExceptT ε (StateM σ) α) : Prop := ∀ s, f (x.run s).2 = f s

theorem Keeps.bind {γ : Type} {p : σ → γ} (hx : Keeps p x) (hf : ∀ a, Keeps p (f a)) :
    Keeps p (x >>= f) := by
  intro s
  rcases hrun : x.run s with ⟨r, t⟩
  have hfirst : p t = p s := by simpa [hrun] using hx s
  cases r with
  | error e => rw [run_bind_error hrun, hfirst]
  | ok a => rw [run_bind_ok hrun, hf a t, hfirst]

theorem Keeps.of_run {γ : Type} {p : σ → γ} (hx : Keeps p x) {r : Except ε α}
    (hrun : x.run s = (r, s')) : p s' = p s := by
  simpa [hrun] using hx s

theorem keeps_pure {γ : Type} (p : σ → γ) (a : α) :
    Keeps p (pure a : ExceptT ε (StateM σ) α) := fun _ => rfl

theorem keeps_throw {γ : Type} (p : σ → γ) (e : ε) :
    Keeps p (throw e : ExceptT ε (StateM σ) α) := fun _ => rfl

end Stateful

end Tethys.Lib
