import Mathlib.Algebra.Order.Ring.Nat
import SphereMultithreading.Machine.Arrays

/-! # The sequential merge sort of p9 with its accesses

Here the array has a length, and a step has no result where it would access an element outside of the
borders it is given, a cell of `tmp` that is not there, or a number that does not fit in `int`.
-/

namespace SphereMultithreading.Model.P9

open Machine

variable {T : Type} {n : ℕ}

namespace Checked

/-- A value of an `int` expression that is not negative. -/
def int (value : ℕ) : Option ℕ := if value < 2 ^ 31 then some value else none

/-- `a[i]` in a call for these borders. -/
def read (a : Vector T n) (lBorder rBorder i : ℕ) : Option T :=
  if lBorder ≤ i ∧ i ≤ rBorder then a[i]? else none

/-- `tmp[k] = v`, where `k` is the number of the cells that are filled. -/
def push (size : ℕ) (tmp : List T) (v : T) : Option (List T) :=
  if tmp.length < size then some (tmp ++ [v]) else none

/-- `memcpy` of so many elements from `a` behind `tmp`. -/
def copyOut (a : Vector T n) (lBorder rBorder i count size : ℕ) (tmp : List T) : Option (List T) :=
  if lBorder ≤ i ∧ i + count ≤ rBorder + 1 ∧ i + count ≤ n ∧ tmp.length + count ≤ size then
    some (tmp ++ (a.toList.drop i).take count)
  else none

/-- What is left of a run. -/
def copyRest (a : Vector T n) (lBorder rBorder i count size : ℕ) (tmp : List T) :
    Option (List T) :=
  if count ≠ 0 then copyOut a lBorder rBorder i count size tmp else some tmp

/-- `memcpy` of `tmp` to `a`. -/
def copyBack (a : Vector T n) (lBorder rBorder : ℕ) (tmp : List T) : Option (Vector T n) :=
  if lBorder + tmp.length ≤ rBorder + 1 then Arrays.writes a lBorder tmp else none

variable [LT T] [DecidableLT T]

/-- The loop over both runs. -/
def mergeLoop (a : Vector T n) (lBorder mBorder rBorder size i j : ℕ) (tmp : List T) :
    Option (ℕ × ℕ × List T) :=
  if i ≤ mBorder ∧ j ≤ rBorder then
    match read a lBorder rBorder i, read a lBorder rBorder j with
    | some x, some y =>
        if x < y then
          match int (i + 1), push size tmp x with
          | some _, some tmp => mergeLoop a lBorder mBorder rBorder size (i + 1) j tmp
          | _, _ => none
        else
          match int (j + 1), push size tmp y with
          | some _, some tmp => mergeLoop a lBorder mBorder rBorder size i (j + 1) tmp
          | _, _ => none
    | _, _ => none
  else some (i, j, tmp)
termination_by (mBorder + 1 - i) + (rBorder + 1 - j)

def merge (a : Vector T n) (lBorder mBorder rBorder : ℕ) : Option (Vector T n) := do
  let size ← int (rBorder - lBorder + 1)
  let (i, j, tmp) ← mergeLoop a lBorder mBorder rBorder size lBorder (mBorder + 1) []
  let tmp ← copyRest a lBorder rBorder i (mBorder + 1 - i) size tmp
  let tmp ← copyRest a lBorder rBorder j (rBorder + 1 - j) size tmp
  copyBack a lBorder rBorder tmp

def mergesort (a : Vector T n) (lBorder rBorder : ℕ) : Option (Vector T n) :=
  if lBorder < rBorder then
    match int (lBorder + rBorder) with
    | none => none
    | some _ =>
        let mBorder := (lBorder + rBorder) / 2
        match mergesort a lBorder mBorder with
        | none => none
        | some a =>
            match mergesort a (mBorder + 1) rBorder with
            | none => none
            | some a => merge a lBorder mBorder rBorder
  else some a
termination_by rBorder - lBorder

end Checked

end SphereMultithreading.Model.P9
