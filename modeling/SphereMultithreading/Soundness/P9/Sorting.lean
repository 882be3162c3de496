import Mathlib.Data.List.Sort
import SphereMultithreading.Model.P9.Checked

/-! # Sorting in place

The merge of two sorted runs is a sorted permutation of both, written where they stood. So a call sorts
its range, touching nothing outside, as long as no sum of two borders overflows. It is the calls for the
right halves whose sums grow.
-/

namespace SphereMultithreading.Soundness.P9.Sorting

open Machine Model.P9.Checked

variable {T : Type} {n l m r : ℕ}

/-! ## Segments -/

/-- The elements from `start` up to `stop`. -/
def segment (a : Vector T n) (start stop : ℕ) : List T := (a.toList.drop start).take (stop - start)

theorem getElem?_segment (a : Vector T n) (start stop k : ℕ) :
    (segment a start stop)[k]? = if k < stop - start then a[start + k]? else none := by
  rw [segment, List.getElem?_take, List.getElem?_drop]
  split
  · simp
  · rfl

theorem length_segment (a : Vector T n) (start : ℕ) {stop : ℕ} (inside : stop ≤ n) :
    (segment a start stop).length = stop - start := by
  rw [segment, List.length_take, List.length_drop, Vector.length_toList]
  omega

theorem segment_congr {a b : Vector T n} {start stop : ℕ}
    (same : ∀ i, start ≤ i → i < stop → b[i]? = a[i]?) :
    segment b start stop = segment a start stop := by
  refine List.ext_getElem? fun k => ?_
  rw [getElem?_segment, getElem?_segment]
  split
  · exact same _ (by omega) (by omega)
  · rfl

theorem segment_append (a : Vector T n) {start stop : ℕ} (middle : ℕ) (below : start ≤ middle)
    (above : middle ≤ stop) :
    segment a start stop = segment a start middle ++ segment a middle stop := by
  rw [segment, segment, segment, show stop - start = (middle - start) + (stop - middle) by omega,
    List.take_add, List.drop_drop, show start + (middle - start) = middle by omega]

theorem segment_cons (a : Vector T n) (start : ℕ) {stop : ℕ} (more : start < stop)
    (inside : start < n) : segment a start stop = a[start] :: segment a (start + 1) stop := by
  have room : start < a.toList.length := by simpa using inside
  rw [segment, segment, List.drop_eq_getElem_cons room,
    show stop - start = stop - (start + 1) + 1 by omega, List.take_succ_cons]
  rfl

theorem segment_eq_nil (a : Vector T n) (start : ℕ) {stop : ℕ} (none : stop ≤ start) :
    segment a start stop = [] := by
  rw [segment, show stop - start = 0 by omega]
  rfl

/-! ## Merging -/

theorem int_eq {value : ℕ} (fits : value < 2 ^ 31) : int value = some value := if_pos fits

theorem read_eq {a : Vector T n} {i : ℕ} (above : l ≤ i) (below : i ≤ r) (inside : r < n) :
    read a l r i = some a[i] := by
  rw [Model.P9.Checked.read, if_pos ⟨above, below⟩]
  exact Vector.getElem?_eq_getElem _

theorem push_eq {size : ℕ} {tmp : List T} (v : T) (room : tmp.length < size) :
    push size tmp v = some (tmp ++ [v]) := if_pos room

theorem copyRest_eq {a : Vector T n} {i stop size : ℕ} {tmp : List T} (above : l ≤ i)
    (below : stop ≤ r + 1) (inside : r < n) (room : tmp.length + (stop - i) ≤ size) :
    copyRest a l r i (stop - i) size tmp = some (tmp ++ segment a i stop) := by
  rw [copyRest]
  split
  · rw [copyOut, if_pos (by omega)]
    rfl
  · rw [segment_eq_nil a _ (by omega), List.append_nil]

/-! ## Merging -/

section Merging

variable [LinearOrder T] {a : Vector T n}

/-- What is left of the runs is merged behind what is in `tmp`. -/
theorem mergeLoop_spec (a : Vector T n) (size i j : ℕ) (tmp : List T) (inside : r < n)
    (fits : r + 1 < 2 ^ 31) (between : l ≤ m ∧ m < r) (left : l ≤ i ∧ i ≤ m + 1)
    (right : m + 1 ≤ j ∧ j ≤ r + 1)
    (room : tmp.length + (m + 1 - i) + (r + 1 - j) = size) :
    ∃ i' j' tmp', mergeLoop a l m r size i j tmp = some (i', j', tmp') ∧
      (l ≤ i' ∧ i' ≤ m + 1) ∧ (m + 1 ≤ j' ∧ j' ≤ r + 1) ∧
      tmp'.length + (m + 1 - i') + (r + 1 - j') = size ∧
      tmp' ++ (segment a i' (m + 1) ++ segment a j' (r + 1)) =
        tmp ++ (segment a j (r + 1)).merge (segment a i (m + 1)) (· ≤ ·) := by
  fun_induction mergeLoop a l m r size i j tmp with
  | case1 i j tmp both x y readj readi less value tmp' pushed _ ih =>
    rw [read_eq (by omega) (by omega) inside, Option.some_inj] at readi readj
    rw [push_eq x (by omega), Option.some_inj] at pushed
    subst pushed
    have below : l ≤ i + 1 ∧ i + 1 ≤ m + 1 := by omega
    have less_room : (tmp ++ [x]).length + (m + 1 - (i + 1)) + (r + 1 - j) = size := by
      rw [List.length_append, List.length_singleton]
      clear ih
      omega
    obtain ⟨i', j', tmp', looped, borders, borders', filled, merged⟩ :=
      ih below right less_room
    refine ⟨i', j', tmp', looped, borders, borders', filled, merged.trans ?_⟩
    rw [segment_cons a i (by omega) (by omega),
      segment_cons a j (by omega) (by omega), readi, readj, List.cons_merge_cons,
      if_neg (by simpa using less), List.append_assoc]
    rfl
  | case2 i j tmp both x y readj readi less stuck =>
    exact (stuck _ _ (int_eq (by omega)) (push_eq x (by omega))).elim
  | case3 i j tmp both x y readj readi less value tmp' pushed _ ih =>
    rw [read_eq (by omega) (by omega) inside, Option.some_inj] at readi readj
    rw [push_eq y (by omega), Option.some_inj] at pushed
    subst pushed
    have below : m + 1 ≤ j + 1 ∧ j + 1 ≤ r + 1 := by omega
    have less_room : (tmp ++ [y]).length + (m + 1 - i) + (r + 1 - (j + 1)) = size := by
      rw [List.length_append, List.length_singleton]
      clear ih
      omega
    obtain ⟨i', j', tmp', looped, borders, borders', filled, merged⟩ :=
      ih left below less_room
    refine ⟨i', j', tmp', looped, borders, borders', filled, merged.trans ?_⟩
    rw [segment_cons a i (by omega) (by omega),
      segment_cons a j (by omega) (by omega), readi, readj, List.cons_merge_cons,
      if_pos (by simpa using less), List.append_assoc]
    rfl
  | case4 i j tmp both x y readj readi less stuck =>
    exact (stuck _ _ (int_eq (by omega)) (push_eq y (by omega))).elim
  | case5 i j tmp both stuck =>
    exact (stuck _ _ (read_eq (by omega) (by omega) inside)
      (read_eq (by omega) (by omega) inside)).elim
  | case6 i j tmp ended =>
    refine ⟨i, j, tmp, rfl, left, right, room, ?_⟩
    rcases Nat.lt_or_ge m i with through | more
    · rw [segment_eq_nil a i (by omega), List.nil_append, List.merge_right]
    · rw [segment_eq_nil a j (by omega), List.append_nil, List.nil_merge]

theorem merge_spec (inside : r < n) (fits : r + 1 < 2 ^ 31) (between : l ≤ m ∧ m < r) :
    ∃ b, merge a l m r = some b ∧
      segment b l (r + 1) =
        (segment a (m + 1) (r + 1)).merge (segment a l (m + 1)) (· ≤ ·) ∧
      ∀ i, i < l ∨ r < i → b[i]? = a[i]? := by
  obtain ⟨i, j, tmp, looped, left, right, filled, merged⟩ :=
    mergeLoop_spec a (r - l + 1) l (m + 1) [] inside fits between
      (by omega) (by omega) (by rw [List.length_nil]; omega)
  have length_left := length_segment a i (show m + 1 ≤ n by omega)
  have length_right := length_segment a j (show r + 1 ≤ n by omega)
  have length_tmp : (tmp ++ segment a i (m + 1) ++ segment a j (r + 1)).length = r - l + 1 := by
    rw [List.length_append, List.length_append, length_left, length_right]
    exact filled
  have room : l + (tmp ++ segment a i (m + 1) ++ segment a j (r + 1)).length ≤ n := by omega
  obtain ⟨b, written, -⟩ := Arrays.writes_of_fits a room
  have copied : copyRest a l r i (m + 1 - i) (r - l + 1) tmp = some (tmp ++ segment a i (m + 1)) :=
    copyRest_eq left.1 (by omega) inside (by omega)
  have copied' : copyRest a l r j (r + 1 - j) (r - l + 1) (tmp ++ segment a i (m + 1)) =
      some (tmp ++ segment a i (m + 1) ++ segment a j (r + 1)) := by
    refine copyRest_eq (by omega) le_rfl inside ?_
    rw [List.length_append, length_left]
    omega
  refine ⟨b, ?_, ?_, fun k outside => ?_⟩
  · rw [merge, int_eq (by omega), Option.bind_eq_bind, Option.bind_some, looped]
    simp only [Option.bind_eq_bind, Option.bind_some, copied, copied']
    rw [copyBack, if_pos (by omega), written]
  · rw [← List.nil_append (List.merge _ _ _), ← merged, ← List.append_assoc]
    refine List.ext_getElem? fun k => ?_
    rw [getElem?_segment, Arrays.getElem?_writes (by omega) written]
    split
    · rw [if_pos (by omega), Nat.add_sub_cancel_left]
    · rw [List.getElem?_eq_none (by omega)]
  · rw [Arrays.getElem?_writes (by omega) written, if_neg (by omega)]

end Merging

/-! ## Sorting -/

section Sorting

variable [LinearOrder T] {a b d e : Vector T n}

/-- `b` is `a` with the elements from `l` to `r` in order. -/
structure Sorts (a b : Vector T n) (l r : ℕ) : Prop where
  sorted : (segment b l (r + 1)).Pairwise (· ≤ ·)
  perm : (segment b l (r + 1)).Perm (segment a l (r + 1))
  outside : ∀ i, i < l ∨ r < i → b[i]? = a[i]?

theorem Sorts.refl (alone : r ≤ l) : Sorts a a l r where
  sorted := by
    refine List.pairwise_iff_getElem.mpr fun i j _ room less => ?_
    rw [segment, List.length_take] at room
    omega
  perm := .refl _
  outside _ _ := rfl

/-- Sorting both halves and merging them. -/
theorem Sorts.merged (between : l ≤ m ∧ m < r) (left : Sorts a b l m) (right : Sorts b d (m + 1) r)
    (merged : segment e l (r + 1) =
      (segment d (m + 1) (r + 1)).merge (segment d l (m + 1)) (· ≤ ·))
    (outside : ∀ i, i < l ∨ r < i → e[i]? = d[i]?) : Sorts a e l r := by
  have kept_left : segment d l (m + 1) = segment b l (m + 1) :=
    segment_congr fun i _ below => right.outside i (.inl below)
  have kept_right : segment b (m + 1) (r + 1) = segment a (m + 1) (r + 1) :=
    segment_congr fun i above _ => left.outside i (.inr above)
  refine ⟨?_, ?_, fun i beyond => ?_⟩
  · rw [merged, kept_left]
    exact right.sorted.merge left.sorted
  · rw [merged, kept_left, segment_append a (m + 1) (by omega) (by omega), ← kept_right]
    exact (List.merge_perm_append _).trans ((right.perm.append left.perm).trans List.perm_append_comm)
  · rw [outside i beyond, right.outside i (by omega), left.outside i (by omega)]

/-- No call for a range up to here adds borders to more than an `int` can hold. -/
theorem mergesort_spec (inside : r < n) (fits : r ≤ 2 ^ 30) :
    ∃ b, mergesort a l r = some b ∧ Sorts a b l r := by
  fun_induction mergesort a l r with
  | case1 a l r more stuck =>
    rw [int_eq (by omega)] at stuck
    cases stuck
  | case2 a l r more _ _ middle stuck ih =>
    obtain ⟨b, sorted, -⟩ := ih (by omega) (by omega)
    cases stuck.symm.trans sorted
  | case3 a l r more _ _ middle b left stuck _ ih =>
    obtain ⟨d, sorted, -⟩ := ih (by omega) (by omega)
    cases stuck.symm.trans sorted
  | case4 a l r more _ _ middle b left d right ihl ihr =>
    obtain ⟨b', left', sortsl⟩ := ihl (by omega) (by omega)
    obtain ⟨d', right', sortsr⟩ := ihr (by omega) (by omega)
    cases left.symm.trans left'
    cases right.symm.trans right'
    obtain ⟨e, merges, merged, outside⟩ :=
      merge_spec (a := d) (l := l) (m := middle) inside (by omega) (by omega)
    exact ⟨e, merges, .merged (by omega) sortsl sortsr merged outside⟩
  | case5 a l r alone => exact ⟨a, rfl, .refl (by omega)⟩

/-- The right halves come ever closer to `r`, and the last of them have a sum close to `2 * r`. -/
theorem mergesort_overflow (more : l < r) (large : 2 ^ 30 < r) : mergesort a l r = none := by
  fun_induction mergesort a l r with
  | case1 | case2 | case3 => rfl
  | case4 a l r _ _ summed middle b left d right _ ihr =>
    have halves : middle + 1 < r := by
      by_contra last
      rw [int, if_neg (by omega)] at summed
      cases summed
    rw [ihr halves large] at right
    cases right
  | case5 => contradiction

theorem sorts_iff (a : Vector T n) (ordered : l ≤ r) (inside : r < n) (fits : l + r < 2 ^ 31) :
    (∃ b, mergesort a l r = some b ∧ Sorts a b l r) ↔ l = r ∨ r ≤ 2 ^ 30 := by
  constructor
  · rintro ⟨b, sorted, -⟩
    by_contra large
    rw [mergesort_overflow (by omega) (by omega)] at sorted
    cases sorted
  · rintro (rfl | small)
    · refine ⟨a, ?_, .refl le_rfl⟩
      rw [mergesort, if_neg (Nat.lt_irrefl l)]
    · exact mergesort_spec inside small

theorem sorts_iff_three :
    (∃ b, mergesort (#v[3, 1, 2] : Vector ℕ 3) 0 2 = some b ∧ Sorts #v[3, 1, 2] b 0 2) ↔
      0 = 2 ∨ 2 ≤ 2 ^ 30 :=
  sorts_iff #v[3, 1, 2] (by decide) (by decide) (by decide)

/-- The four last elements: the sum of their borders is the largest `int`. -/
theorem not_sorts_last : ¬∀ (a : Vector ℕ (2 ^ 30 + 2)) (l r : ℕ),
    l ≤ r → r < 2 ^ 30 + 2 → l + r < 2 ^ 31 → ∃ b, mergesort a l r = some b ∧ Sorts a b l r := by
  intro always
  obtain ⟨b, sorted, -⟩ := always (.replicate _ 0) (2 ^ 30 - 2) (2 ^ 30 + 1) (by decide) (by decide)
    (by decide)
  rw [mergesort_overflow (by decide) (by decide)] at sorted
  cases sorted

end Sorting

end SphereMultithreading.Soundness.P9.Sorting
