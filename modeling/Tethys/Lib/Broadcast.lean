import Mathlib.Data.List.Basic
import Mathlib.Logic.Function.Iterate
import Mathlib.Tactic.Common

/-!
# Bounded broadcast channels

A channel that keeps its last `cap` messages for any number of receivers. `sent` is every
message the channel ever took, so that a position is an index; a receiver is the position
it reads next. A receiver that is more than `cap` messages behind has lost the older ones:
it is told how many, and goes on with the oldest message that is kept. A stream that is polled
yields what it has left one by one; `yielded_iterate` and `yielded_append_of_iterate` relate the
polls to what is left.
-/

namespace Tethys.Lib

universe u v
variable {α : Type u} {cap next : Nat} {sent : List α}

/-- What a receiver is told. -/
inductive Recv (α : Type u) where
  | empty
  | lagged (missed : Nat)
  | value (message : α)

/-- Read once: the answer and the next position. -/
def recv (cap : Nat) (sent : List α) (next : Nat) : Recv α × Nat :=
  if next + cap < sent.length then (.lagged (sent.length - cap - next), sent.length - cap)
  else match sent[next]? with
    | some message => (.value message, next + 1)
    | none => (.empty, next)

/-- The messages a receiver can still read. -/
def retained (cap : Nat) (sent : List α) (next : Nat) : List α :=
  sent.drop (max next (sent.length - cap))

theorem retained_length (cap : Nat) (sent : List α) : retained cap sent sent.length = [] := by
  simp [retained]

theorem retained_eq_drop (h : sent.length ≤ next + cap) :
    retained cap sent next = sent.drop next := by
  rw [retained, Nat.max_eq_left (by omega)]

/-- A receiver that is not full keeps what it had and gets the new message. -/
theorem retained_send (hn : next ≤ sent.length) (h : sent.length < next + cap) (message : α) :
    retained cap (sent ++ [message]) next = retained cap sent next ++ [message] := by
  rw [retained_eq_drop (by simp; omega), retained_eq_drop (by omega),
    List.drop_append_of_le_length hn]

theorem length_retained_of_full (h : next + cap ≤ sent.length) :
    (retained cap sent next).length = cap := by
  rw [retained, List.length_drop]
  omega

/-- A receiver that is full has as many messages after a send as before. -/
theorem length_retained_send_of_full (h : next + cap ≤ sent.length) (message : α) :
    (retained cap (sent ++ [message]) next).length = cap :=
  length_retained_of_full (by simp; omega)

/-- The three answers, and what the receiver can read after each. -/
theorem recv_cases (cap : Nat) (sent : List α) (next : Nat) :
    (recv cap sent next = (.empty, next) ∧ retained cap sent next = []) ∨
    (∃ missed next', recv cap sent next = (.lagged missed, next') ∧ next' ≤ sent.length ∧
      retained cap sent next' = retained cap sent next) ∨
    ∃ message, recv cap sent next = (.value message, next + 1) ∧ next + 1 ≤ sent.length ∧
      retained cap sent next = message :: retained cap sent (next + 1) := by
  by_cases hlag : next + cap < sent.length
  · refine .inr (.inl ⟨_, _, if_pos hlag, by omega, ?_⟩)
    rw [retained, retained, Nat.max_self, Nat.max_eq_right (by omega)]
  · cases hget : sent[next]? with
    | none =>
      refine .inl ⟨by simp [recv, hlag, hget], ?_⟩
      rw [retained_eq_drop (by omega)]
      exact List.drop_eq_nil_of_le (List.getElem?_eq_none_iff.mp hget)
    | some message =>
      obtain ⟨hlt, rfl⟩ := List.getElem?_eq_some_iff.mp hget
      refine .inr (.inr ⟨sent[next], by simp [recv, hlag, hget], hlt, ?_⟩)
      rw [retained_eq_drop (by omega), retained_eq_drop (by omega)]
      exact List.drop_eq_getElem_cons hlt

/-- A receiver that has lost nothing reads the next message, if there is one. -/
theorem recv_of_close (hclose : sent.length ≤ next + cap) :
    (recv cap sent next = (.empty, next) ∧ retained cap sent next = []) ∨
    ∃ message, recv cap sent next = (.value message, next + 1) ∧ next + 1 ≤ sent.length ∧
      retained cap sent next = message :: retained cap sent (next + 1) := by
  rcases recv_cases cap sent next with h | ⟨missed, next', h, -⟩ | h
  · exact .inl h
  · rw [recv, if_neg (by omega)] at h
    split at h <;> cases h
  · exact .inr h

/-! ## Polling a stream -/

section Streams
variable {σ : Type v} (poll : σ → σ) (yielded left : σ → List α) {P : σ → Prop} {s : σ}

/-- If every poll yields the next of what is left, so do any number of polls. -/
theorem yielded_iterate
    (step : ∀ s, P s → P (poll s) ∧ (left s = [] ∧ poll s = s ∨
      ∃ a, left s = a :: left (poll s) ∧ yielded (poll s) = yielded s ++ [a]))
    (hs : P s) (n : Nat) : yielded (poll^[n] s) = yielded s ++ (left s).take n := by
  induction n generalizing s with
  | zero => simp
  | succ n ih =>
    obtain ⟨hnext, ⟨hnone, hsame⟩ | ⟨a, hleft, hyield⟩⟩ := step s hs
    · rw [Function.iterate_succ_apply, hsame, ih hs, hnone]
      simp
    · rw [Function.iterate_succ_apply, ih hnext, hyield, hleft, List.take_succ_cons]
      simp

/-- A stream whose polls yield a list has that list left: enough polls leave nothing. -/
theorem yielded_append_of_iterate (size : σ → Nat)
    (step : ∀ s, P s → P (poll s) ∧ yielded (poll s) ++ left (poll s) = yielded s ++ left s ∧
      (left s = [] ∧ poll s = s ∨ size (poll s) < size s))
    (hs : P s) {l : List α}
    (hyield : ∀ n, yielded (poll^[n] s) = l.take ((yielded s).length + n)) :
    yielded s ++ left s = l := by
  have hrest : ∀ n, yielded (poll^[n] s) ++ left (poll^[n] s) = yielded s ++ left s ∧
      (size s ≤ n → left (poll^[n] s) = []) := by
    intro n
    clear hyield
    induction n generalizing s with
    | zero =>
      obtain ⟨-, -, ⟨hnone, -⟩ | hlt⟩ := step s hs
      · exact ⟨rfl, fun _ => hnone⟩
      · exact ⟨rfl, fun hzero => absurd hlt (by omega)⟩
    | succ n ih =>
      obtain ⟨hnext, hkeeps, hprogress⟩ := step s hs
      obtain ⟨hsame, hnone⟩ := ih hnext
      rw [Function.iterate_succ_apply]
      refine ⟨hsame.trans hkeeps, fun hle => ?_⟩
      rcases hprogress with ⟨hempty, hstays⟩ | hlt
      · have hfix : poll^[n] s = s := Function.iterate_fixed hstays n
        rw [hstays, hfix]
        exact hempty
      · exact hnone (by omega)
  obtain ⟨hsame, hnone⟩ := hrest (max (size s) l.length)
  rw [← hsame, hnone (Nat.le_max_left _ _), List.append_nil, hyield, List.take_of_length_le]
  omega

end Streams

end Tethys.Lib
