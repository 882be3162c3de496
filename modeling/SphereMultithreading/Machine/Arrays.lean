import Mathlib.Data.List.Basic

/-! # Arrays with checked writes

A write behind the last cell has no result. A list is written element by element, into consecutive cells;
what it does not reach keeps its contents.
-/

namespace SphereMultithreading.Machine.Arrays

variable {α : Type*} {n i : ℕ} {xs : List α}

def write (a : Vector α n) (i : ℕ) (x : α) : Option (Vector α n) :=
  if inside : i < n then some (a.set i x) else none

/-- One write for each element, the first of them at `i`. -/
def writes (a : Vector α n) (i : ℕ) : List α → Option (Vector α n)
  | [] => some a
  | x :: xs => (write a i x).bind fun a => writes a (i + 1) xs

theorem writes_append (a : Vector α n) (i : ℕ) (xs ys : List α) :
    writes a i (xs ++ ys) = (writes a i xs).bind fun a => writes a (i + xs.length) ys := by
  induction xs generalizing a i with
  | nil => rfl
  | cons x xs ih =>
    simp only [List.cons_append, writes, Option.bind_assoc, ih, List.length_cons, Nat.add_assoc,
      Nat.add_comm 1]

theorem writes_of_fits (a : Vector α n) (fits : i + xs.length ≤ n) : ∃ b, writes a i xs = some b ∧
    b.toList = a.toList.take i ++ xs ++ a.toList.drop (i + xs.length) := by
  induction xs generalizing a i with
  | nil => exact ⟨a, rfl, by simp⟩
  | cons x xs ih =>
    have inside : i < n := by
      rw [List.length_cons] at fits
      omega
    obtain ⟨b, written, whole⟩ := ih (i := i + 1) (a.set i x) (by
      rw [List.length_cons] at fits
      omega)
    refine ⟨b, ?_, ?_⟩
    · rw [writes, write, dif_pos inside]
      exact written
    · have room : i < a.toList.length := by simpa using inside
      rw [whole, Vector.toList_set, List.take_add_one, List.getElem?_set_self room,
        List.take_set_of_le (Nat.le_refl i), List.drop_set_of_lt (by omega), List.length_cons,
        show i + 1 + xs.length = i + (xs.length + 1) by omega]
      simp

theorem getElem?_writes {a b : Vector α n} (fits : i + xs.length ≤ n) (written : writes a i xs = some b)
    (k : ℕ) : b[k]? = if i ≤ k ∧ k < i + xs.length then xs[k - i]? else a[k]? := by
  obtain ⟨c, written', whole⟩ := writes_of_fits a fits
  rw [written, Option.some_inj] at written'
  subst written'
  have size : (a.toList.take i).length = i := by
    rw [List.length_take, Vector.length_toList]
    omega
  rw [← Vector.getElem?_toList, whole, ← Vector.getElem?_toList, List.append_assoc]
  rcases Nat.lt_or_ge k i with before | above
  · rw [List.getElem?_append_left (by omega), List.getElem?_take, if_pos before, if_neg (by omega)]
  · rw [List.getElem?_append_right (by omega), size]
    split
    · rw [List.getElem?_append_left (by omega)]
    · rw [List.getElem?_append_right (by omega), List.getElem?_drop]
      congr 1
      omega

/-- A list that reaches behind the last cell is not written. -/
theorem writes_of_overflow (a : Vector α n) (some : xs ≠ []) (overflow : n < i + xs.length) :
    writes a i xs = none := by
  induction xs generalizing a i with
  | nil => exact absurd rfl some
  | cons x xs ih =>
    rw [writes, write]
    split
    · next inside =>
      rw [List.length_cons] at overflow
      apply ih (i := i + 1) (a.set i x)
      · rintro rfl
        simp only [List.length_nil] at overflow
        omega
      · omega
    · rfl

example : writes (α := Char) (n := 3) ⟨#['a', 'b', 'c'], rfl⟩ 1 ['x', 'y', 'z'] = none := by decide

theorem isSome_writes_iff (a : Vector α n) (some : xs ≠ []) :
    (writes a i xs).isSome ↔ i + xs.length ≤ n := by
  rcases Nat.lt_or_ge n (i + xs.length) with overflow | fits
  · rw [writes_of_overflow a some overflow]
    exact iff_of_false Bool.false_ne_true (by omega)
  · obtain ⟨b, written, -⟩ := writes_of_fits a fits
    rw [written]
    exact iff_of_true rfl fits

end SphereMultithreading.Machine.Arrays
