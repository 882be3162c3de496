import SphereMultithreading.Model.Scanf

/-! # Streams and conversions of the C++ library

A stream remembers that a reader met its end. From then on a read fails and leaves the string of its
caller as it was.
-/

namespace SphereMultithreading.Model.Iostream

open Scanf

/-- An input stream: what is left to read, until a reader has met the end. -/
inductive Stream where
  | reading (rest : Text)
  | ended
deriving DecidableEq, Repr

def Stream.eof : Stream → Bool
  | .reading _ => false
  | .ended => true

/-- `std::getline`: the stream and the string after the call. The delimiter is taken out of the
stream and not stored. -/
def getline (delim : Char) : Stream → Text → Stream × Text
  | .ended, str => (.ended, str)
  | .reading text, _ =>
      match text.span (· ≠ delim) with
      | (taken, []) => (.ended, taken)
      | (taken, _ :: rest) => (.reading rest, taken)

/-- How many reads a stream can serve. -/
def Stream.size : Stream → ℕ
  | .reading rest => rest.length + 1
  | .ended => 0

/-- Each read of a stream that has not ended shortens it. -/
theorem size_getline_lt (delim : Char) {stream : Stream} (more : stream.eof = false) (str : Text) :
    (getline delim stream str).1.size < stream.size := by
  cases stream with
  | ended => cases more
  | reading text =>
    have whole := congrArg List.length (text.takeWhile_append_dropWhile (p := (· ≠ delim)))
    rw [getline, List.span_eq_takeWhile_dropWhile]
    rw [List.length_append] at whole
    split
    · exact Nat.succ_pos _
    · next taken c rest cut =>
      obtain ⟨-, dropped⟩ := Prod.mk.inj cut
      rw [dropped, List.length_cons] at whole
      simp only [Stream.size]
      omega

theorem size_getline_le (delim : Char) (stream : Stream) (str : Text) :
    (getline delim stream str).1.size ≤ stream.size := by
  cases stream with
  | ended => exact le_rfl
  | reading text => exact (size_getline_lt delim rfl str).le

/-- The exceptions of a conversion. -/
inductive Thrown where
  | invalidArgument
  | outOfRange
deriving DecidableEq, Repr

/-- `std::stoi`, which reads the beginning of its string. -/
def stoi (str : Text) : Except Thrown ℤ :=
  match scanInt str with
  | none => .error .invalidArgument
  | some (k, _) => if -2 ^ 31 ≤ k ∧ k < 2 ^ 31 then .ok k else .error .outOfRange

end SphereMultithreading.Model.Iostream
