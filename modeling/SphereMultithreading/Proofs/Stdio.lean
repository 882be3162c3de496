import SphereMultithreading.Model.Stdio

/-! # What `fgets` takes from a stream

A line that fits is taken with its newline. Of a longer one as much is taken as fits, and the rest
stays in the stream.
-/

namespace SphereMultithreading.Model.Stdio

open Scanf

theorem zero_notMem_cString (text : Text) : '\x00' ∉ cString text := by
  intro member
  simpa using List.mem_takeWhile_imp member

theorem take_strlen (text : Text) : text.take (strlen text) = cString text :=
  (List.prefix_iff_eq_take.mp (List.takeWhile_prefix _)).symm

/-- A text without a zero byte is a string as a whole. -/
theorem cString_eq_self {text : Text} (clean : '\x00' ∉ text) : cString text = text := by
  rw [cString, List.takeWhile_eq_self_iff]
  intro c member
  have other : c ≠ '\x00' := fun zero => clean (zero ▸ member)
  simpa using other

/-- `sscanf` reads such a text to its end. -/
theorem scanCommand_of_clean {text : Text} (clean : '\x00' ∉ text) (n : ℕ) : scanCommand n text =
    (scanWord text).map fun (cmd, rest) => (cmd, scanInts n rest) := by
  rw [scanCommand, ← cString, cString_eq_self clean]

/-! ## Lines -/

/-- Lines with a newline behind each of them. -/
def unlines (lines : List Text) : Text := lines.flatMap (· ++ ['\n'])

theorem unlines_cons (line : Text) (lines : List Text) :
    unlines (line :: lines) = line ++ '\n' :: unlines lines := by
  simp [unlines]

theorem unlines_singleton (line : Text) : unlines [line] = line ++ ['\n'] := List.append_nil _

theorem unlines_append (lines others : List Text) :
    unlines (lines ++ others) = unlines lines ++ unlines others := List.flatMap_append

theorem fgets_eq_none {size : ℕ} {stream : Text} (ended : fgets size stream = none) :
    stream = [] := by
  by_contra more
  rw [fgets, if_neg more] at ended
  cases ended

theorem fgets_eq_some {size : ℕ} {stream piece left : Text}
    (taken : fgets size stream = some (piece, left)) :
    stream ≠ [] ∧ takeLine (size - 1) stream = (piece, left) := by
  rw [fgets] at taken
  split at taken
  · cases taken
  · next more => exact ⟨more, Option.some.inj taken⟩

theorem length_takeLine_le (n : ℕ) (stream : Text) : (takeLine n stream).1.length ≤ n := by
  fun_induction takeLine n stream with
  | case1 => exact le_rfl
  | case2 => exact Nat.zero_le _
  | case3 n rest => exact Nat.succ_le_succ (Nat.zero_le n)
  | case4 n c rest other piece left taken ih =>
    rw [taken] at ih
    exact Nat.succ_le_succ ih

/-- Nothing is taken behind a newline. -/
theorem newline_notMem_takeLine (n : ℕ) (stream : Text) :
    '\n' ∉ (takeLine n stream).1.dropLast := by
  fun_induction takeLine n stream with
  | case1 => exact List.not_mem_nil
  | case2 => exact List.not_mem_nil
  | case3 n rest => exact List.not_mem_nil
  | case4 n c rest other piece left taken ih =>
    rw [taken] at ih
    cases piece with
    | nil => exact List.not_mem_nil
    | cons d piece =>
      rw [List.dropLast_cons_of_ne_nil (List.cons_ne_nil d piece), List.mem_cons, not_or]
      exact ⟨Ne.symm other, ih⟩

/-- What is taken is a part of a line, or the end of one with its newline. A part fills the array, or
there is no more. -/
theorem takeLine_cases (n : ℕ) (stream : Text) :
    (∃ front, '\n' ∉ front ∧ (takeLine n stream).1 = front ++ ['\n']) ∨
      ('\n' ∉ (takeLine n stream).1 ∧
        ((takeLine n stream).2 = [] ∨ (takeLine n stream).1.length = n)) := by
  fun_induction takeLine n stream with
  | case1 => exact .inr ⟨List.not_mem_nil, .inr rfl⟩
  | case2 => exact .inr ⟨List.not_mem_nil, .inl rfl⟩
  | case3 n rest => exact .inl ⟨[], List.not_mem_nil, rfl⟩
  | case4 n c rest other piece left taken ih =>
    rw [taken] at ih
    rcases ih with ⟨front, inside, rfl⟩ | ⟨inside, all⟩
    · refine .inl ⟨c :: front, ?_, rfl⟩
      rw [List.mem_cons, not_or]
      exact ⟨Ne.symm other, inside⟩
    · refine .inr ⟨?_, all.imp_right (congrArg Nat.succ)⟩
      rw [List.mem_cons, not_or]
      exact ⟨Ne.symm other, inside⟩

/-- A line that fits. -/
theorem takeLine_newline {n : ℕ} {line : Text} (inside : '\n' ∉ line) (fits : line.length < n)
    (rest : Text) : takeLine n (line ++ '\n' :: rest) = (line ++ ['\n'], rest) := by
  obtain ⟨n, rfl⟩ : ∃ m, n = m + 1 := ⟨n - 1, by omega⟩
  induction line generalizing n with
  | nil => rfl
  | cons c line ih =>
    obtain ⟨n, rfl⟩ : ∃ m, n = m + 1 := ⟨n - 1, by rw [List.length_cons] at fits; omega⟩
    rw [List.mem_cons, not_or] at inside
    rw [List.cons_append, takeLine, if_neg (Ne.symm inside.1),
      ih inside.2 n (Nat.lt_of_succ_lt_succ fits)]
    rfl

theorem append_newline_inj {line line' rest rest' : Text} (inside : '\n' ∉ line)
    (inside' : '\n' ∉ line') (same : line ++ '\n' :: rest = line' ++ '\n' :: rest') :
    line = line' ∧ rest = rest' := by
  -- both are read with an array that holds either line
  have taken := takeLine_newline (n := line.length + line'.length + 1) inside (by omega) rest
  rw [same, takeLine_newline inside' (by omega), Prod.mk.injEq] at taken
  exact ⟨(List.append_cancel_right taken.1).symm, taken.2.symm⟩

/-- A stream is divided into its lines, and what has begun of the last one, in one way. -/
theorem unlines_append_inj {lines lines' : List Text} {begun begun' : Text}
    (newlines : ∀ line ∈ lines, '\n' ∉ line) (newlines' : ∀ line ∈ lines', '\n' ∉ line)
    (clean : '\n' ∉ begun) (clean' : '\n' ∉ begun')
    (same : unlines lines ++ begun = unlines lines' ++ begun') : lines = lines' ∧ begun = begun' := by
  induction lines generalizing lines' with
  | nil =>
    cases lines' with
    | nil => exact ⟨rfl, same⟩
    | cons line' lines' =>
      refine absurd ?_ clean
      rw [show begun = unlines (line' :: lines') ++ begun' from same, unlines_cons]
      simp
  | cons line lines ih =>
    cases lines' with
    | nil =>
      refine absurd ?_ clean'
      rw [show begun' = unlines (line :: lines) ++ begun from same.symm, unlines_cons]
      simp
    | cons line' lines' =>
      rw [List.forall_mem_cons] at newlines newlines'
      rw [unlines_cons, unlines_cons, List.append_assoc, List.append_assoc, List.cons_append,
        List.cons_append] at same
      obtain ⟨rfl, rest⟩ := append_newline_inj newlines.1 newlines'.1 same
      obtain ⟨rfl, ends⟩ := ih newlines.2 newlines'.2 rest
      exact ⟨rfl, ends⟩

/-- The end of a stream without a newline. -/
theorem takeLine_end {n : ℕ} {line : Text} (inside : '\n' ∉ line) :
    takeLine n line = (line.take n, line.drop n) := by
  induction line generalizing n with
  | nil => cases n <;> rfl
  | cons c line ih =>
    cases n with
    | zero => rfl
    | succ n =>
      rw [List.mem_cons, not_or] at inside
      rw [takeLine, if_neg (Ne.symm inside.1), ih inside.2]
      rfl

end SphereMultithreading.Model.Stdio
