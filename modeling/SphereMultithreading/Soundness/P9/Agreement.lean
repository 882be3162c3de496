import Mathlib.Order.Interval.Set.Basic
import SphereMultithreading.Model.P9.NMergeSort
import SphereMultithreading.Model.P9.PMergeSort

/-! # Parallel and sequential merge sort

A task touches the range it sorts and nothing else, and the two tasks of a call have ranges of their
own. So they may run in any order, and the array becomes what the sequential program makes of it.
-/

namespace SphereMultithreading.Soundness.P9

open Machine Machine.Task Model.P9

variable {T : Type} {R : Set ℕ}

/-! ## One after the other -/

theorem eval_copyOut (a : ℕ → T) (i count : ℕ) (tmp : List T) (next : List T → Task ℕ T) :
    (PMergeSort.copyOut i count tmp next).eval a =
      (next (NMergeSort.copyOut a i count tmp)).eval a := by
  induction count generalizing i tmp with
  | zero => rfl
  | succ count ih => exact ih (i + 1) (tmp ++ [a i])

theorem eval_copyRest (a : ℕ → T) (i count : ℕ) (tmp : List T) (next : List T → Task ℕ T) :
    (PMergeSort.copyRest i count tmp next).eval a =
      (next (NMergeSort.copyRest a i count tmp)).eval a := by
  rw [PMergeSort.copyRest, NMergeSort.copyRest]
  split_ifs
  · exact eval_copyOut a i count tmp next
  · rfl

theorem eval_copyBack (a : ℕ → T) (l : ℕ) (tmp : List T) :
    (PMergeSort.copyBack l tmp).eval a = NMergeSort.copyBack a l tmp := by
  induction tmp generalizing a l with
  | nil => rfl
  | cons v tmp ih => exact ih (Function.update a l v) (l + 1)

section Sorting

variable [LT T] [DecidableLT T]

theorem eval_mergeLoop (a : ℕ → T) (mBorder rBorder i j : ℕ) (tmp : List T)
    (next : ℕ → ℕ → List T → Task ℕ T) :
    (PMergeSort.mergeLoop mBorder rBorder i j tmp next).eval a =
      let (i, j, tmp) := NMergeSort.mergeLoop a mBorder rBorder i j tmp
      (next i j tmp).eval a := by
  fun_induction NMergeSort.mergeLoop a mBorder rBorder i j tmp with
  | case1 i j tmp both smaller ih =>
    rw [PMergeSort.mergeLoop, if_pos both]
    simp only [eval, if_pos smaller, ih]
  | case2 i j tmp both larger ih =>
    rw [PMergeSort.mergeLoop, if_pos both]
    simp only [eval, if_neg larger, ih]
  | case3 i j tmp ended => rw [PMergeSort.mergeLoop, if_neg ended]

theorem eval_merge (a : ℕ → T) (lBorder mBorder rBorder : ℕ) :
    (PMergeSort.merge lBorder mBorder rBorder).eval a =
      NMergeSort.merge a lBorder mBorder rBorder := by
  rw [PMergeSort.merge, eval_mergeLoop]
  simp only [eval_copyRest, eval_copyBack]
  rfl

theorem eval_mergesort (a : ℕ → T) (lBorder rBorder : ℕ) :
    (PMergeSort.mergesort lBorder rBorder).eval a = NMergeSort.mergesort a lBorder rBorder := by
  fun_induction NMergeSort.mergesort a lBorder rBorder with
  | case1 a lBorder rBorder several mBorder left left' right =>
    rw [PMergeSort.mergesort, if_pos several]
    simp only [eval, left', eval_merge]
    exact congrArg (fun b => NMergeSort.merge b lBorder mBorder rBorder) right
  | case2 a lBorder rBorder atMostOne =>
    rw [PMergeSort.mergesort, if_neg atMostOne]
    rfl

end Sorting

/-! ## Ranges -/

theorem confined_copyOut {i count : ℕ} {tmp : List T} {next : List T → Task ℕ T}
    (range : Set.Ico i (i + count) ⊆ R)
    (rest : ∀ tmp', tmp'.length = tmp.length + count → Confined R (next tmp')) :
    Confined R (PMergeSort.copyOut i count tmp next) := by
  induction count generalizing i tmp with
  | zero => exact rest tmp rfl
  | succ count ih =>
    refine .read (range ⟨Nat.le_refl i, by omega⟩) fun v => ih ?_ ?_
    · exact Set.Subset.trans (Set.Ico_subset_Ico (by omega) (by omega)) range
    · intro tmp' length
      apply rest
      rw [length, List.length_append, List.length_singleton]
      omega

theorem confined_copyRest {i count : ℕ} {tmp : List T} {next : List T → Task ℕ T}
    (range : Set.Ico i (i + count) ⊆ R)
    (rest : ∀ tmp', tmp'.length = tmp.length + count → Confined R (next tmp')) :
    Confined R (PMergeSort.copyRest i count tmp next) := by
  rw [PMergeSort.copyRest]
  split_ifs with left
  · exact confined_copyOut range rest
  · exact rest tmp (by omega)

theorem confined_copyBack {l : ℕ} {tmp : List T} (range : Set.Ico l (l + tmp.length) ⊆ R) :
    Confined R (PMergeSort.copyBack l tmp) := by
  induction tmp generalizing l with
  | nil => exact .done
  | cons v tmp ih =>
    rw [List.length_cons] at range
    refine .write (range ⟨Nat.le_refl l, by omega⟩) (ih ?_)
    exact Set.Subset.trans (Set.Ico_subset_Ico (by omega) (by omega)) range

variable [LT T] [DecidableLT T]

/-- The loop reads both runs, and moves as many elements as it advances. -/
theorem confined_mergeLoop {mBorder rBorder i j : ℕ} {tmp : List T}
    {next : ℕ → ℕ → List T → Task ℕ T} (left : Set.Icc i mBorder ⊆ R)
    (right : Set.Icc j rBorder ⊆ R)
    (rest : ∀ i' j' tmp', i ≤ i' → j ≤ j' → i' ≤ max i (mBorder + 1) → j' ≤ max j (rBorder + 1) →
      i' + j' + tmp.length = i + j + tmp'.length → Confined R (next i' j' tmp')) :
    Confined R (PMergeSort.mergeLoop mBorder rBorder i j tmp next) := by
  fun_induction PMergeSort.mergeLoop mBorder rBorder i j tmp next with
  | case1 i j tmp both smaller larger =>
    have inLeft : i ∈ R := left ⟨Nat.le_refl i, both.1⟩
    have inRight : j ∈ R := right ⟨Nat.le_refl j, both.2⟩
    refine .read inLeft fun x => .read inRight fun y => ?_
    split_ifs
    · refine .read inLeft fun v => smaller v ?_ right ?_
      · exact Set.Subset.trans (Set.Icc_subset_Icc_left (by omega)) left
      · intro i' j' tmp' le₁ le₂ le₃ le₄ moved
        rw [List.length_append, List.length_singleton] at moved
        exact rest i' j' tmp' (by omega) le₂ (by omega) le₄ (by omega)
    · refine .read inRight fun v => larger v left ?_ ?_
      · exact Set.Subset.trans (Set.Icc_subset_Icc_left (by omega)) right
      · intro i' j' tmp' le₁ le₂ le₃ le₄ moved
        rw [List.length_append, List.length_singleton] at moved
        exact rest i' j' tmp' le₁ (by omega) le₃ (by omega) (by omega)
  | case2 i j tmp ended =>
    exact rest i j tmp (Nat.le_refl i) (Nat.le_refl j) (by omega) (by omega) rfl

theorem confined_merge {lBorder mBorder rBorder : ℕ} (le : lBorder ≤ mBorder)
    (lt : mBorder < rBorder) :
    Confined (Set.Icc lBorder rBorder) (PMergeSort.merge (T := T) lBorder mBorder rBorder) := by
  refine confined_mergeLoop ?_ ?_ ?_
  · exact Set.Icc_subset_Icc_right (by omega)
  · exact Set.Icc_subset_Icc_left (by omega)
  · intro i j tmp le₁ le₂ le₃ le₄ moved
    rw [List.length_nil] at moved
    refine confined_copyRest (fun k inside => ?_) fun tmp' length => ?_
    · exact ⟨by have := inside.1; omega, by have := inside.2; omega⟩
    refine confined_copyRest (fun k inside => ?_) fun tmp'' length' => ?_
    · exact ⟨by have := inside.1; omega, by have := inside.2; omega⟩
    refine confined_copyBack fun k inside => ?_
    exact ⟨inside.1, by have := inside.2; omega⟩

/-- A call touches its range, and its two tasks the two halves. -/
theorem confined_mergesort (lBorder rBorder : ℕ) :
    Confined (Set.Icc lBorder rBorder) (PMergeSort.mergesort (T := T) lBorder rBorder) := by
  fun_induction PMergeSort.mergesort (T := T) lBorder rBorder with
  | case1 lBorder rBorder several mBorder left right =>
    have le : lBorder ≤ mBorder := by simp only [mBorder]; omega
    have lt : mBorder < rBorder := by simp only [mBorder]; omega
    refine .fork left right ?_ ?_ ?_ (confined_merge le lt)
    · rw [Set.disjoint_left]
      intro k inLeft inRight
      have := inLeft.2
      have := inRight.1
      omega
    · exact Set.Icc_subset_Icc_right (by omega)
    · exact Set.Icc_subset_Icc_left (by omega)
  | case2 lBorder rBorder atMostOne => exact .done

/-! ## Any order -/

/-- In any order of the steps of all tasks: when they are done, the array is what the sequential
program makes of it; at any time they can still get there, and only so many steps are taken. -/
theorem mergesort_agrees (a : ℕ → T) (lBorder rBorder : ℕ) {schedule : List (List Bool)}
    {t : Task ℕ T} {b : ℕ → T}
    (success : run step (PMergeSort.mergesort lBorder rBorder, a) schedule = some (t, b)) :
    (t = .done → b = NMergeSort.mergesort a lBorder rBorder) ∧
      (∃ rest, run step (t, b) rest = some (.done, NMergeSort.mergesort a lBorder rBorder)) ∧
      schedule.length ≤ (PMergeSort.mergesort lBorder rBorder).steps a := by
  obtain ⟨confined, evals, counts⟩ := (confined_mergesort lBorder rBorder).eval_run success
  rw [eval_mergesort] at evals
  refine ⟨?_, ?_, by omega⟩
  · rintro rfl
    exact evals
  · obtain ⟨rest, finishes⟩ := confined.complete b
    exact ⟨rest, evals ▸ finishes⟩

/-- The second half of four elements is ahead of the first. -/
theorem mergesort_agrees_four : ∃ t b,
    run step (PMergeSort.mergesort 0 3, fun i => 4 - i) [[true], [true], [false]] = some (t, b) ∧
      ∃ rest, run step (t, b) rest = some (.done, NMergeSort.mergesort (fun i => 4 - i) 0 3) := by
  have tree : PMergeSort.mergesort (T := ℕ) 0 3 =
      .fork (.fork .done .done (PMergeSort.merge 0 0 1)) (.fork .done .done (PMergeSort.merge 2 2 3))
        (PMergeSort.merge 0 1 3) := by
    simp [PMergeSort.mergesort]
  obtain ⟨next, right⟩ : ∃ next, PMergeSort.merge (T := ℕ) 2 2 3 = .read 2 next := by
    rw [PMergeSort.merge, PMergeSort.mergeLoop, if_pos (by decide)]
    exact ⟨_, rfl⟩
  obtain ⟨⟨t, b⟩, success⟩ : ∃ s,
      run step (PMergeSort.mergesort 0 3, fun i => 4 - i) [[true], [true], [false]] = some s := by
    rw [tree, right]
    exact ⟨_, rfl⟩
  exact ⟨t, b, success, (mergesort_agrees _ 0 3 success).2.1⟩

/-! ## No races -/

/-- In any order of the steps, every task is about to touch a cell of the range, and no two tasks are
about to touch the same. -/
theorem tasks_apart (a : ℕ → T) (lBorder rBorder : ℕ) {schedule : List (List Bool)} {t : Task ℕ T}
    {b : ℕ → T} (success : run step (PMergeSort.mergesort lBorder rBorder, a) schedule = some (t, b))
    {path : List Bool} {i : ℕ} (next : t.cell path = some i) :
    (lBorder ≤ i ∧ i ≤ rBorder) ∧ ∀ path', path ≠ path' → t.cell path' ≠ some i := by
  obtain ⟨confined, -, -⟩ := (confined_mergesort lBorder rBorder).eval_run success
  exact ⟨confined.cell_mem next, fun path' differ => confined.cell_ne differ next⟩

/-- Both halves of four elements are to be merged. -/
theorem tasks_apart_four : ∃ (t : Task ℕ ℕ) (b : ℕ → ℕ),
    run step (PMergeSort.mergesort 0 3, id) [[true], [false]] = some (t, b) ∧
      t.cell [false] = some 0 ∧ t.cell [true] ≠ some 0 := by
  have tree : PMergeSort.mergesort (T := ℕ) 0 3 =
      .fork (.fork .done .done (PMergeSort.merge 0 0 1)) (.fork .done .done (PMergeSort.merge 2 2 3))
        (PMergeSort.merge 0 1 3) := by
    simp [PMergeSort.mergesort]
  obtain ⟨left, first⟩ : ∃ left, PMergeSort.merge (T := ℕ) 0 0 1 = .read 0 left := by
    rw [PMergeSort.merge, PMergeSort.mergeLoop, if_pos (by decide)]
    exact ⟨_, rfl⟩
  have success : run step (PMergeSort.mergesort 0 3, id) [[true], [false]] =
      some (.fork (.read 0 left) (PMergeSort.merge 2 2 3) (PMergeSort.merge 0 1 3), id) := by
    rw [tree, ← first]
    rfl
  have next : (Task.fork (.read 0 left) (PMergeSort.merge 2 2 3) (PMergeSort.merge 0 1 3)).cell
      [false] = some 0 := rfl
  exact ⟨_, _, success, next, (tasks_apart id 0 3 success next).2 [true] (by decide)⟩

end SphereMultithreading.Soundness.P9
