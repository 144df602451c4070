import Tethys.Lib.Lasts

/-!
# Captured error output

`StderrRingBuffer` of `tethys-supervisor/src/lib.rs`, and the task that fills it from a child's pipe.
The lock makes each write atomic, so a history is a list of chunks. Lengths are natural numbers: the
sum of two lengths of allocated bytes fits a `usize`.
-/

namespace Tethys.Supervisor

open Lib

/-- A buffer never holds more than its capacity. -/
structure StderrRingBuffer where
  capacity : Nat
  buffer : List UInt8
  bounded : buffer.length ≤ capacity

/-- The bytes in a buffer after a write. -/
def written (capacity : Nat) (buffer bytes : List UInt8) : List UInt8 :=
  if buffer.length + bytes.length ≤ capacity then buffer ++ bytes
  else
    let overflow := buffer.length + bytes.length - capacity
    if overflow ≥ buffer.length then
      let start := bytes.length - capacity
      bytes.drop start
    else buffer.drop overflow ++ bytes

/-- Every branch keeps the last bytes. -/
theorem written_eq (capacity : Nat) (buffer bytes : List UInt8) :
    written capacity buffer bytes = (buffer ++ bytes).rtake capacity := by
  unfold written
  dsimp only
  split_ifs with hfits hreplaced
  · rw [rtake_of_length_le (by rwa [List.length_append])]
  · rw [rtake_append_of_le_length (by omega), List.rtake]
  · have hdropped : buffer.length - (capacity - bytes.length) =
        buffer.length + bytes.length - capacity := by omega
    rw [rtake_append_of_length_le (by omega), List.rtake, hdropped]

namespace StderrRingBuffer

def new (capacity : Nat) : StderrRingBuffer := ⟨capacity, [], Nat.zero_le _⟩

def writeBytes (ring : StderrRingBuffer) (bytes : List UInt8) : StderrRingBuffer where
  capacity := ring.capacity
  buffer := written ring.capacity ring.buffer bytes
  bounded := by
    rw [written_eq, length_rtake]
    exact Nat.min_le_left _ _

theorem buffer_writeBytes (ring : StderrRingBuffer) (bytes : List UInt8) :
    (ring.writeBytes bytes).buffer = (ring.buffer ++ bytes).rtake ring.capacity :=
  written_eq _ _ _

/-- A history of writes keeps the last bytes of what was there and what was written. -/
theorem foldl_writeBytes (ring : StderrRingBuffer) (chunks : List (List UInt8)) :
    (chunks.foldl writeBytes ring).capacity = ring.capacity ∧
      (chunks.foldl writeBytes ring).buffer = (ring.buffer ++ chunks.flatten).rtake ring.capacity := by
  induction chunks generalizing ring with
  | nil =>
    refine ⟨rfl, ?_⟩
    rw [List.flatten_nil, List.append_nil, rtake_of_length_le ring.bounded]
    rfl
  | cons bytes chunks ih =>
    obtain ⟨hcapacity, hbuffer⟩ := ih (ring.writeBytes bytes)
    refine ⟨hcapacity, hbuffer.trans ?_⟩
    have hsame : (ring.writeBytes bytes).capacity = ring.capacity := rfl
    rw [hsame, buffer_writeBytes, rtake_rtake_append, List.flatten_cons, List.append_assoc]

/-- The buffer is the tail of all that was written. -/
theorem buffer_tail (capacity : Nat) (chunks : List (List UInt8)) :
    (chunks.foldl writeBytes (new capacity)).buffer =
      chunks.flatten.rtake (min capacity chunks.flatten.length) := by
  rw [rtake_min_length, (foldl_writeBytes (new capacity) chunks).2]
  rfl

end StderrRingBuffer

/-! ## The task that fills the buffer -/

/-- What a read of the pipe gives: an error, or bytes, of which there are none at the end. -/
abbrev PipeRead := Option (List UInt8)

/-- The loop of the task that `spawn` starts. -/
def capture : StderrRingBuffer → List PipeRead → StderrRingBuffer
  | ring, some (b :: bytes) :: reads => capture (ring.writeBytes (b :: bytes)) reads
  | ring, _ => ring

/-- The chunks before the pipe ends or fails. -/
def chunksOf : List PipeRead → List (List UInt8)
  | some (b :: bytes) :: reads => (b :: bytes) :: chunksOf reads
  | _ => []

theorem capture_eq (ring : StderrRingBuffer) (reads : List PipeRead) :
    capture ring reads = (chunksOf reads).foldl StderrRingBuffer.writeBytes ring := by
  induction reads generalizing ring with
  | nil => rfl
  | cons read reads ih =>
    match read with
    | none | some [] => rfl
    | some (b :: bytes) => exact ih _

/-- The captured output of a child is the tail of what its pipe gave. -/
theorem buffer_capture (capacity : Nat) (reads : List PipeRead) :
    (capture (.new capacity) reads).buffer = (chunksOf reads).flatten.rtake capacity := by
  rw [capture_eq, (StderrRingBuffer.foldl_writeBytes _ _).2]
  rfl

end Tethys.Supervisor
