import SphereMultithreading.Soundness.P9.Sorting
import SphereMultithreading.Soundness.P9.Stability

/-! # The array and the memory of the tasks

The checked program works on an array of a length, the tasks on a memory without an end. Where the
checked program comes to a result, no access was outside of the array and no sum too large, and every
order of the tasks leaves the memory as the program leaves the array.
-/

namespace SphereMultithreading.Soundness.P9

open Machine Machine.Task Model.P9

variable {T : Type} {n l m r : ℕ} {a b : Vector T n} {f : ℕ → T}

/-- The memory holds the array. -/
def Holds (f : ℕ → T) (a : Vector T n) : Prop := ∀ i, i < n → a[i]? = some (f i)

theorem Holds.getElem (holds : Holds f a) {i : ℕ} {x : T} (some : a[i]? = some x) : x = f i := by
  have inside : i < n := by
    by_contra outside
    rw [Vector.getElem?_eq_none (by omega)] at some
    cases some
  exact Option.some.inj (some.symm.trans (holds i inside))

theorem Holds.write (holds : Holds f a) {i : ℕ} {v : T} (written : Arrays.write a i v = some b) :
    Holds (Function.update f i v) b := by
  rw [Arrays.write] at written
  split at written
  · next inside =>
    rw [← Option.some.inj written]
    intro k room
    rcases eq_or_ne k i with rfl | other
    · rw [Function.update_self, Vector.getElem?_set_self]
    · rw [Function.update_of_ne other, Vector.getElem?_set_ne _ other.symm]
      exact holds k room
  · cases written

theorem Holds.writes (holds : Holds f a) {i : ℕ} {tmp : List T}
    (written : Arrays.writes a i tmp = some b) : Holds (NMergeSort.copyBack f i tmp) b := by
  induction tmp generalizing a f i with
  | nil =>
    cases written
    exact holds
  | cons v tmp ih =>
    obtain ⟨a', first, rest⟩ := Option.bind_eq_some_iff.mp written
    exact ih (holds.write first) rest

theorem Holds.read (holds : Holds f a) {i : ℕ} {x : T} (success : Checked.read a l r i = some x) :
    x = f i := by
  rw [Checked.read] at success
  split at success
  · exact holds.getElem success
  · cases success

theorem push_some {size : ℕ} {tmp tmp' : List T} {v : T}
    (success : Checked.push size tmp v = some tmp') : tmp' = tmp ++ [v] := by
  rw [Checked.push] at success
  split at success
  · exact (Option.some.inj success).symm
  · cases success

/-- The elements of the array that are copied. -/
theorem Holds.take_drop (holds : Holds f a) {i count : ℕ} (fits : i + count ≤ n) :
    (a.toList.drop i).take count = listed f i (i + count) := by
  refine List.ext_getElem? fun k => ?_
  rw [List.getElem?_take, List.getElem?_drop, Vector.getElem?_toList, listed, List.getElem?_map,
    Nat.add_sub_cancel_left]
  split
  · next inside => rw [holds (i + k) (by omega), List.getElem?_range' inside, Nat.one_mul]; rfl
  · next outside => rw [List.getElem?_eq_none (by simpa using outside)]; rfl

theorem Holds.copyRest (holds : Holds f a) {i count size : ℕ} {tmp tmp' : List T}
    (success : Checked.copyRest a l r i count size tmp = some tmp') :
    NMergeSort.copyRest f i count tmp = tmp' := by
  rw [Checked.copyRest] at success
  rw [NMergeSort.copyRest]
  split at success
  · next some =>
    rw [Checked.copyOut] at success
    split at success
    · next fits =>
      rw [if_pos some, copyOut_eq, ← holds.take_drop fits.2.2.1]
      exact Option.some.inj success
    · cases success
  · next none =>
    rw [if_neg none]
    exact Option.some.inj success

section Sorting

variable [LT T] [DecidableLT T]

theorem Holds.mergeLoop (holds : Holds f a) {size i j : ℕ} {tmp : List T} {res : ℕ × ℕ × List T}
    (success : Checked.mergeLoop a l m r size i j tmp = some res) :
    NMergeSort.mergeLoop f m r i j tmp = res := by
  fun_induction Checked.mergeLoop a l m r size i j tmp with
  | case1 i j tmp both x y readj readi less value tmp' pushed _ ih =>
    rw [NMergeSort.mergeLoop, if_pos both, ← holds.read readi, ← holds.read readj, if_pos less,
      ← push_some pushed]
    exact ih success
  | case3 i j tmp both x y readj readi less value tmp' pushed _ ih =>
    rw [NMergeSort.mergeLoop, if_pos both, ← holds.read readi, ← holds.read readj, if_neg less,
      ← push_some pushed]
    exact ih success
  | case6 i j tmp ended =>
    rw [NMergeSort.mergeLoop, if_neg ended]
    exact Option.some.inj success
  | case2 | case4 | case5 => cases success

theorem Holds.merge (holds : Holds f a) (success : Checked.merge a l m r = some b) :
    Holds (NMergeSort.merge f l m r) b := by
  simp only [Checked.merge, Option.bind_eq_bind, Option.bind_eq_some_iff] at success
  obtain ⟨size, -, ⟨i, j, tmp⟩, looped, tmp₁, copied₁, tmp₂, copied₂, back⟩ := success
  rw [NMergeSort.merge, holds.mergeLoop looped]
  dsimp only
  rw [holds.copyRest copied₁, holds.copyRest copied₂]
  rw [Checked.copyBack] at back
  split at back
  · exact holds.writes back
  · cases back

theorem Holds.mergesort (holds : Holds f a) (success : Checked.mergesort a l r = some b) :
    Holds (NMergeSort.mergesort f l r) b := by
  fun_induction Checked.mergesort a l r generalizing f b with
  | case1 | case2 | case3 => cases success
  | case4 a l r several _ _ middle a₁ left a₂ right ihl =>
    rename_i ihr
    rw [NMergeSort.mergesort, if_pos several]
    exact (ihr (ihl holds left) right).merge success
  | case5 a l r alone =>
    rw [NMergeSort.mergesort, if_neg alone]
    exact Option.some.inj success ▸ holds

/-- The checked program and every order of the steps of the tasks come to the same array. -/
theorem tasks_refine_checked (holds : Holds f a) (success : Checked.mergesort a l r = some b)
    {schedule : List (List Bool)} {g : ℕ → T}
    (finished : run step (PMergeSort.mergesort l r, f) schedule = some (.done, g)) : Holds g b := by
  obtain ⟨-, evals, -⟩ := (confined_mergesort l r).eval_run finished
  rw [eval_mergesort] at evals
  rw [show g = NMergeSort.mergesort f l r from evals]
  exact holds.mergesort success

end Sorting

/-- Three elements out of order. -/
theorem tasks_refine_checked_three : ∃ (b : Vector ℕ 3) (schedule : _) (g : ℕ → ℕ),
    Checked.mergesort #v[3, 2, 1] 0 2 = some b ∧
      run step (PMergeSort.mergesort 0 2, fun i => 3 - i) schedule = some (.done, g) ∧
      Holds g b := by
  have holds : Holds (fun i => 3 - i) #v[3, 2, 1] := by
    unfold Holds
    decide
  obtain ⟨b, success, -⟩ :=
    Sorting.mergesort_spec (a := #v[3, 2, 1]) (l := 0) (r := 2) (by decide) (by decide)
  obtain ⟨schedule, finished⟩ := (confined_mergesort 0 2).complete fun i => 3 - i
  exact ⟨b, schedule, _, success, finished, tasks_refine_checked holds success finished⟩

end SphereMultithreading.Soundness.P9
