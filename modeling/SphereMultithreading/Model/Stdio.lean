import SphereMultithreading.Model.Scanf

/-! # Strings and lines of the C library

A string ends before the first zero byte. `fgets` takes a line from a stream, or as much of it as its
array holds.
-/

namespace SphereMultithreading.Model.Stdio

open Scanf

/-- What stands before the first zero byte. -/
def cString (text : Text) : Text := text.takeWhile (· ≠ '\x00')

def strlen (text : Text) : ℕ := (cString text).length

/-- At most `n` characters, up to and with the first newline, and what is left of the stream. -/
def takeLine : ℕ → Text → Text × Text
  | 0, stream => ([], stream)
  | _ + 1, [] => ([], [])
  | n + 1, c :: rest =>
      if c = '\n' then ([c], rest)
      else
        let (piece, left) := takeLine n rest
        (c :: piece, left)

/-- `fgets` with an array of `size` bytes, the last of which is for the terminator. At the end of the
stream it returns the null pointer. -/
def fgets (size : ℕ) (stream : Text) : Option (Text × Text) :=
  if stream = [] then none else some (takeLine (size - 1) stream)

/-- Taking a line loses nothing. -/
theorem takeLine_append (n : ℕ) (stream : Text) :
    (takeLine n stream).1 ++ (takeLine n stream).2 = stream := by
  fun_induction takeLine n stream with
  | case1 => rfl
  | case2 => rfl
  | case3 n rest => rfl
  | case4 n c rest other piece left taken ih =>
    rw [taken] at ih
    exact congrArg (c :: ·) ih

/-- Something is taken. -/
theorem length_takeLine_lt {n : ℕ} (room : 0 < n) {stream : Text} (more : stream ≠ []) :
    (takeLine n stream).2.length < stream.length := by
  have whole := congrArg List.length (takeLine_append n stream)
  rw [List.length_append] at whole
  have some : 0 < (takeLine n stream).1.length := by
    obtain ⟨n, rfl⟩ := Nat.exists_eq_succ_of_ne_zero room.ne'
    obtain ⟨c, rest, rfl⟩ := List.exists_cons_of_ne_nil more
    rw [takeLine]
    split <;> simp
  omega

theorem length_fgets_lt {size : ℕ} (room : 1 < size) {stream piece left : Text}
    (taken : fgets size stream = some (piece, left)) : left.length < stream.length := by
  rw [fgets] at taken
  split at taken
  · cases taken
  · next more =>
    have shorter := length_takeLine_lt (Nat.sub_pos_of_lt room) more
    rwa [Option.some.inj taken] at shorter

end SphereMultithreading.Model.Stdio
