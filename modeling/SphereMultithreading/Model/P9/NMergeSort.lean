import Mathlib.Data.Nat.Notation
import Mathlib.Logic.Function.Basic

/-! # The sequential merge sort of p9

The elements are of any type that has a `<`. Borders are indices, and their sum is that of numbers: it
is undefined where it does not fit in `int`.
-/

namespace SphereMultithreading.Model.P9

variable {T : Type} [LT T] [DecidableLT T]

namespace NMergeSort

/-- The loop over both runs; what has been moved to `tmp` so far, with `k` its length. -/
def mergeLoop (a : ℕ → T) (mBorder rBorder i j : ℕ) (tmp : List T) : ℕ × ℕ × List T :=
  if i ≤ mBorder ∧ j ≤ rBorder then
    if a i < a j then mergeLoop a mBorder rBorder (i + 1) j (tmp ++ [a i])
    else mergeLoop a mBorder rBorder i (j + 1) (tmp ++ [a j])
  else (i, j, tmp)
termination_by (mBorder + 1 - i) + (rBorder + 1 - j)

/-- `memcpy` of so many elements from `a` behind `tmp`. -/
def copyOut (a : ℕ → T) : ℕ → ℕ → List T → List T
  | _, 0, tmp => tmp
  | i, count + 1, tmp => copyOut a (i + 1) count (tmp ++ [a i])

/-- What is left of a run. -/
def copyRest (a : ℕ → T) (i count : ℕ) (tmp : List T) : List T :=
  if count ≠ 0 then copyOut a i count tmp else tmp

/-- `memcpy` of `tmp` to `a`. -/
def copyBack (a : ℕ → T) : ℕ → List T → ℕ → T
  | _, [] => a
  | l, v :: tmp => copyBack (Function.update a l v) (l + 1) tmp

def merge (a : ℕ → T) (lBorder mBorder rBorder : ℕ) : ℕ → T :=
  let (i, j, tmp) := mergeLoop a mBorder rBorder lBorder (mBorder + 1) []
  let tmp := copyRest a i (mBorder + 1 - i) tmp
  let tmp := copyRest a j (rBorder + 1 - j) tmp
  copyBack a lBorder tmp

def mergesort (a : ℕ → T) (lBorder rBorder : ℕ) : ℕ → T :=
  if lBorder < rBorder then
    let mBorder := (lBorder + rBorder) / 2
    merge (mergesort (mergesort a lBorder mBorder) (mBorder + 1) rBorder) lBorder mBorder rBorder
  else a
termination_by rBorder - lBorder

end NMergeSort

end SphereMultithreading.Model.P9
