import SphereMultithreading.Machine.StableMerge
import SphereMultithreading.Soundness.P9.Agreement

/-! # The order of equal elements

Of two elements that are equal in the order the merge takes the one of the right half. So the merge sort
is not stable: it puts equal elements in the reverse of the order they had. What it leaves is the stable
sort of the reversed range, whatever the order in which the tasks take their steps.
-/

namespace SphereMultithreading.Soundness.P9

open Machine Machine.Task Model.P9

variable {T : Type}

/-- The elements from `start` up to `stop`. -/
def listed (a : ℕ → T) (start stop : ℕ) : List T := (List.range' start (stop - start)).map a

theorem listed_eq_nil (a : ℕ → T) {start stop : ℕ} (none : stop ≤ start) : listed a start stop = [] := by
  rw [listed, Nat.sub_eq_zero_of_le none]
  rfl

theorem listed_cons (a : ℕ → T) {start stop : ℕ} (more : start < stop) :
    listed a start stop = a start :: listed a (start + 1) stop := by
  rw [listed, listed, show stop - start = stop - (start + 1) + 1 by omega]
  rfl

theorem listed_append (a : ℕ → T) {start middle stop : ℕ} (below : start ≤ middle)
    (above : middle ≤ stop) :
    listed a start stop = listed a start middle ++ listed a middle stop := by
  have joined : List.range' start (middle - start) ++ List.range' (start + (middle - start))
      (stop - middle) = List.range' start (middle - start + (stop - middle)) := List.range'_append_1
  rw [show start + (middle - start) = middle by omega,
    show middle - start + (stop - middle) = stop - start by omega] at joined
  rw [listed, listed, listed, ← List.map_append, joined]

theorem listed_congr {a b : ℕ → T} {start stop : ℕ}
    (same : ∀ i, start ≤ i → i < stop → b i = a i) : listed b start stop = listed a start stop := by
  refine List.map_congr_left fun i member => ?_
  rw [List.mem_range'_1] at member
  exact same i member.1 (by omega)

theorem copyOut_eq (a : ℕ → T) (i count : ℕ) (tmp : List T) :
    NMergeSort.copyOut a i count tmp = tmp ++ listed a i (i + count) := by
  induction count generalizing i tmp with
  | zero => rw [listed_eq_nil a (by omega), List.append_nil, NMergeSort.copyOut]
  | succ count ih =>
    rw [NMergeSort.copyOut, ih, listed_cons a (show i < i + (count + 1) by omega), List.append_assoc,
      show i + 1 + count = i + (count + 1) by omega]
    rfl

theorem copyRest_eq (a : ℕ → T) {i stop : ℕ} (le : i ≤ stop) (tmp : List T) :
    NMergeSort.copyRest a i (stop - i) tmp = tmp ++ listed a i stop := by
  rw [NMergeSort.copyRest]
  split
  · rw [copyOut_eq, Nat.add_sub_cancel' le]
  · rw [listed_eq_nil a (by omega), List.append_nil]

theorem copyBack_outside (a : ℕ → T) (l : ℕ) (tmp : List T) {i : ℕ}
    (outside : i < l ∨ l + tmp.length ≤ i) : NMergeSort.copyBack a l tmp i = a i := by
  induction tmp generalizing a l with
  | nil => rfl
  | cons v tmp ih =>
    rw [List.length_cons] at outside
    rw [NMergeSort.copyBack, ih _ _ (by omega), Function.update_of_ne (by omega)]

theorem listed_copyBack (a : ℕ → T) (l : ℕ) (tmp : List T) :
    listed (NMergeSort.copyBack a l tmp) l (l + tmp.length) = tmp := by
  induction tmp generalizing a l with
  | nil => exact listed_eq_nil _ le_rfl
  | cons v tmp ih =>
    have first : NMergeSort.copyBack (Function.update a l v) (l + 1) tmp l = v := by
      rw [copyBack_outside _ _ _ (by omega), Function.update_self]
    have rest := ih (Function.update a l v) (l + 1)
    rw [List.length_cons, listed_cons _ (by omega), NMergeSort.copyBack, first,
      show l + (tmp.length + 1) = l + 1 + tmp.length by omega, rest]

section Merging

variable [Preorder T] [Std.Total fun x y : T => x ≤ y]

theorem lt_iff_of_total {x y : T} : x < y ↔ ¬y ≤ x :=
  lt_iff_le_not_ge.trans
    ⟨And.right, fun other => ⟨(total_of (fun x y : T => x ≤ y) x y).resolve_right other, other⟩⟩

variable [DecidableLT T] [DecidableLE T]

/-- What is left of the runs is merged behind what is in `tmp`, the right run first. -/
theorem mergeLoop_listed (a : ℕ → T) {m r i j : ℕ} (tmp : List T) (left : i ≤ m + 1)
    (right : j ≤ r + 1) :
    let (i', j', tmp') := NMergeSort.mergeLoop a m r i j tmp
    (i' ≤ m + 1 ∧ j' ≤ r + 1) ∧
      tmp' ++ (listed a i' (m + 1) ++ listed a j' (r + 1)) =
        tmp ++ (listed a j (r + 1)).merge (listed a i (m + 1)) (· ≤ ·) := by
  fun_induction NMergeSort.mergeLoop a m r i j tmp with
  | case1 i j tmp both less ih =>
    obtain ⟨borders, merged⟩ := ih (by omega) right
    refine ⟨borders, merged.trans ?_⟩
    rw [listed_cons a (show i < m + 1 by omega), listed_cons a (show j < r + 1 by omega),
      List.cons_merge_cons_neg _ _ _ (by simpa using lt_iff_of_total.mp less), List.append_assoc]
    rfl
  | case2 i j tmp both other ih =>
    obtain ⟨borders, merged⟩ := ih left (by omega)
    refine ⟨borders, merged.trans ?_⟩
    rw [listed_cons a (show i < m + 1 by omega), listed_cons a (show j < r + 1 by omega),
      List.cons_merge_cons_pos _ _ _ (by simpa [lt_iff_of_total] using other), List.append_assoc]
    rfl
  | case3 i j tmp ended =>
    refine ⟨⟨left, right⟩, ?_⟩
    rcases Nat.lt_or_ge m i with through | more
    · rw [listed_eq_nil a (show m + 1 ≤ i by omega), List.nil_append, List.merge_right]
    · rw [listed_eq_nil a (show r + 1 ≤ j by omega), List.append_nil, List.nil_merge]

theorem merge_listed (a : ℕ → T) {l m r : ℕ} (le : l ≤ m) (lt : m < r) :
    listed (NMergeSort.merge a l m r) l (r + 1) =
        (listed a (m + 1) (r + 1)).merge (listed a l (m + 1)) (· ≤ ·) ∧
      ∀ i, i < l ∨ r < i → NMergeSort.merge a l m r i = a i := by
  have looped := mergeLoop_listed a (i := l) (j := m + 1) (m := m) (r := r) [] (by omega) (by omega)
  rw [NMergeSort.merge]
  rcases ended : NMergeSort.mergeLoop a m r l (m + 1) [] with ⟨i, j, tmp⟩
  rw [ended] at looped
  obtain ⟨⟨left, right⟩, merged⟩ := looped
  dsimp only
  rw [copyRest_eq a left, copyRest_eq a right, List.append_assoc, merged, List.nil_append]
  have length : ((listed a (m + 1) (r + 1)).merge (listed a l (m + 1)) (· ≤ ·)).length = r + 1 - l := by
    simp only [List.length_merge, listed, List.length_map, List.length_range']
    omega
  constructor
  · have back := listed_copyBack a l ((listed a (m + 1) (r + 1)).merge (listed a l (m + 1)) (· ≤ ·))
    rwa [length, show l + (r + 1 - l) = r + 1 by omega] at back
  · intro i outside
    exact copyBack_outside a l _ (by omega)

/-- The stable sort of the reversed range. -/
theorem listed_mergesort (a : ℕ → T) (l r : ℕ) :
    listed (NMergeSort.mergesort a l r) l (r + 1) =
        (listed a l (r + 1)).reverse.insertionSort (· ≤ ·) ∧
      ∀ i, i < l ∨ r < i → NMergeSort.mergesort a l r i = a i := by
  fun_induction NMergeSort.mergesort a l r with
  | case1 a l r several middle first ihl ihr =>
    have le : l ≤ middle := by simp only [middle]; omega
    have lt : middle < r := by simp only [middle]; omega
    obtain ⟨sortedl, outsidel⟩ := ihl
    obtain ⟨sortedr, outsider⟩ := ihr
    obtain ⟨merged, outside⟩ := merge_listed
      (NMergeSort.mergesort (NMergeSort.mergesort a l middle) (middle + 1) r) le lt
    have kept : listed (NMergeSort.mergesort (NMergeSort.mergesort a l middle) (middle + 1) r) l
        (middle + 1) = listed (NMergeSort.mergesort a l middle) l (middle + 1) :=
      listed_congr fun i _ below => outsider i (.inl below)
    have kept' : listed (NMergeSort.mergesort a l middle) (middle + 1) (r + 1) =
        listed a (middle + 1) (r + 1) := listed_congr fun i above _ => outsidel i (.inr above)
    refine ⟨?_, fun i beyond => ?_⟩
    · rw [merged, kept, sortedl, sortedr, kept', ← insertionSort_append, ← List.reverse_append,
        ← listed_append a (by omega) (by omega)]
    · rw [outside i beyond, outsider i (by omega), outsidel i (by omega)]
  | case2 a l r atMostOne =>
    refine ⟨?_, fun _ _ => rfl⟩
    rcases Nat.lt_or_ge r l with none | one
    · rw [listed_eq_nil a none]
      rfl
    · rw [listed_cons a (by omega), listed_eq_nil a (by omega)]
      rfl

/-- In any order of the steps of all tasks: what the range holds when they are done is the stable sort of
its reverse, and the rest of the array is as it was. -/
theorem tasks_sort_reversed (a : ℕ → T) (l r : ℕ) {schedule : List (List Bool)} {b : ℕ → T}
    (finished : run step (PMergeSort.mergesort l r, a) schedule = some (.done, b)) :
    listed b l (r + 1) = (listed a l (r + 1)).reverse.insertionSort (· ≤ ·) ∧
      ∀ i, i < l ∨ r < i → b i = a i := by
  obtain ⟨-, evals, -⟩ := (confined_mergesort l r).eval_run finished
  rw [eval_mergesort] at evals
  rw [show b = NMergeSort.mergesort a l r from evals]
  exact listed_mergesort a l r

end Merging

/-- An element of which only the key is compared. -/
structure Entry where
  key : ℕ
  name : Char
deriving DecidableEq

instance : Preorder Entry := Preorder.lift Entry.key

instance : Std.Total fun x y : Entry => x ≤ y := ⟨fun x y => Nat.le_total x.key y.key⟩

instance : DecidableLE Entry := fun x y => inferInstanceAs (Decidable (x.key ≤ y.key))

instance : DecidableLT Entry := fun x y => inferInstanceAs (Decidable (x.key < y.key))

/-- Two pairs of elements that are equal in the order. -/
def pairs : ℕ → Entry
  | 0 => ⟨1, 'a'⟩
  | 1 => ⟨0, 'b'⟩
  | 2 => ⟨1, 'c'⟩
  | _ => ⟨0, 'd'⟩

/-- Some schedule of the tasks for them comes to its end, and both pairs are turned round. -/
theorem tasks_sort_reversed_four : ∃ schedule b,
    run step (PMergeSort.mergesort 0 3, pairs) schedule = some (.done, b) ∧
      listed b 0 4 = [⟨0, 'd'⟩, ⟨0, 'b'⟩, ⟨1, 'c'⟩, ⟨1, 'a'⟩] := by
  obtain ⟨schedule, finished⟩ := (confined_mergesort 0 3).complete pairs
  exact ⟨schedule, _, finished, (tasks_sort_reversed _ 0 3 finished).1⟩

end SphereMultithreading.Soundness.P9
