import Mathlib.Data.List.Sort

/-! # Merging and stable sorting

Insertion sort is stable: elements that are related both ways keep their order. A merge that prefers
its first list puts two lists that are sorted so together to one that is. So a merge sort that agrees
with it on halves agrees with it on the whole, and nothing is said of an antisymmetric relation.
-/

namespace SphereMultithreading.Machine

variable {α : Type*} (r : α → α → Prop) [DecidableRel r]

theorem orderedInsert_eq_merge (a : α) (vs : List α) :
    vs.orderedInsert r a = [a].merge vs (r · ·) := by
  induction vs with
  | nil => rw [List.merge_right, List.orderedInsert_nil]
  | cons v vs ih =>
    rw [List.orderedInsert_cons, List.cons_merge_cons, List.nil_merge, ih]
    simp only [decide_eq_true_eq]

variable [Std.Total r] [IsTrans α r]

/-- An element that goes to the front of a merge goes to the front of its first list. -/
theorem orderedInsert_merge (a : α) (us vs : List α) :
    (us.merge vs (r · ·)).orderedInsert r a = (us.orderedInsert r a).merge vs (r · ·) := by
  induction us generalizing vs with
  | nil =>
    rw [List.nil_merge]
    exact orderedInsert_eq_merge r a vs
  | cons u us ihu =>
    induction vs with
    | nil => rw [List.merge_right, List.merge_right]
    | cons v vs ihv =>
      rcases em (r u v) with before | behind
      · rw [List.cons_merge_cons_pos _ _ _ (by simpa using before), List.orderedInsert_cons,
          List.orderedInsert_cons]
        split
        · next first =>
          have ahead : r a v := trans_of r first before
          rw [List.cons_merge_cons_pos _ _ _ (by simpa using ahead),
            List.cons_merge_cons_pos _ _ _ (by simpa using before)]
        · rw [List.cons_merge_cons_pos _ _ _ (by simpa using before), ihu]
      · have swapped : r v u := (total_of r u v).resolve_left behind
        rw [List.cons_merge_cons_neg _ _ _ (by simpa using behind), List.orderedInsert_cons]
        split
        · next first =>
          have ahead : r a u := trans_of r first swapped
          rw [List.orderedInsert_cons_of_le r _ ahead,
            List.cons_merge_cons_pos _ _ _ (by simpa using first),
            List.cons_merge_cons_neg _ _ _ (by simpa using behind)]
        · next later =>
          -- whichever element leads the first list now, `v` comes before it
          rw [ihv, List.orderedInsert_cons]
          split
          · rw [List.cons_merge_cons_neg _ _ _ (by simpa using later)]
          · rw [List.cons_merge_cons_neg _ _ _ (by simpa using behind)]

/-- Sorting both parts and merging them is sorting the whole. -/
theorem insertionSort_append (us vs : List α) :
    (us ++ vs).insertionSort r =
      (us.insertionSort r).merge (vs.insertionSort r) (r · ·) := by
  induction us with
  | nil => rw [List.nil_append, List.insertionSort_nil, List.nil_merge]
  | cons u us ih =>
    rw [List.cons_append, List.insertionSort_cons, ih, List.insertionSort_cons]
    exact orderedInsert_merge r u _ _

end SphereMultithreading.Machine
