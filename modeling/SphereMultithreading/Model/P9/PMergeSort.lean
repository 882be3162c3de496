import SphereMultithreading.Machine.Tasks

/-! # The merge sort of p9 with tasks

A call spawns two tasks, waits for them and merges what they have sorted. Every element that is
compared or copied is a read or a write of its own; `tmp` belongs to the call.
-/

namespace SphereMultithreading.Model.P9

open Machine

variable {T : Type} [LT T] [DecidableLT T]

namespace PMergeSort

/-- The comparison reads both elements, and the smaller one is read again. -/
def mergeLoop (mBorder rBorder i j : ℕ) (tmp : List T) (next : ℕ → ℕ → List T → Task ℕ T) :
    Task ℕ T :=
  if i ≤ mBorder ∧ j ≤ rBorder then
    .read i fun x => .read j fun y =>
      if x < y then .read i fun v => mergeLoop mBorder rBorder (i + 1) j (tmp ++ [v]) next
      else .read j fun v => mergeLoop mBorder rBorder i (j + 1) (tmp ++ [v]) next
  else next i j tmp
termination_by (mBorder + 1 - i) + (rBorder + 1 - j)

/-- `memcpy` of so many elements from the array behind `tmp`. -/
def copyOut : ℕ → ℕ → List T → (List T → Task ℕ T) → Task ℕ T
  | _, 0, tmp, next => next tmp
  | i, count + 1, tmp, next => .read i fun v => copyOut (i + 1) count (tmp ++ [v]) next

/-- What is left of a run. -/
def copyRest (i count : ℕ) (tmp : List T) (next : List T → Task ℕ T) : Task ℕ T :=
  if count ≠ 0 then copyOut i count tmp next else next tmp

/-- `memcpy` of `tmp` to the array. -/
def copyBack : ℕ → List T → Task ℕ T
  | _, [] => .done
  | l, v :: tmp => .write l v (copyBack (l + 1) tmp)

def merge (lBorder mBorder rBorder : ℕ) : Task ℕ T :=
  mergeLoop mBorder rBorder lBorder (mBorder + 1) [] fun i j tmp =>
    copyRest i (mBorder + 1 - i) tmp fun tmp =>
      copyRest j (rBorder + 1 - j) tmp fun tmp => copyBack lBorder tmp

def mergesort (lBorder rBorder : ℕ) : Task ℕ T :=
  if lBorder < rBorder then
    let mBorder := (lBorder + rBorder) / 2
    .fork (mergesort lBorder mBorder) (mergesort (mBorder + 1) rBorder)
      (merge lBorder mBorder rBorder)
  else .done
termination_by rBorder - lBorder

end PMergeSort

end SphereMultithreading.Model.P9
