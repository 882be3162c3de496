import Mathlib.Algebra.BigOperators.Group.Finset.Basic
import Mathlib.Data.Rat.Defs

/-! # The distributed exponential of p10

Every rank sums a block of terms, starting from a first term of 1. It sends its last term on, multiplies
its sum by what it receives, and the sums are reduced. Numbers are exact, and messages are delivered; the
borders of a block are taken to fit `int`.
-/

namespace SphereMultithreading.Model.P10

variable (size nMax : ℕ) (x : ℚ) (rank : ℕ)

/-- `n` -/
def blockSize : ℕ := (nMax + 1) / size + if nMax % size ≠ 0 then 1 else 0

def iBegin : ℕ := rank * blockSize size nMax

def iEnd : ℕ := (rank + 1) * blockSize size nMax

/-- The last `i` of the loop. -/
def iLast : ℕ :=
  if iEnd size nMax rank > blockSize size nMax then blockSize size nMax else iEnd size nMax rank

/-- The values that `i` takes in the loop. -/
def indices : List ℕ :=
  List.range' (iBegin size nMax rank) (iLast size nMax rank + 1 - iBegin size nMax rank)

/-- The body of the loop, on `f` and `sum`. -/
def body : ℚ × ℚ → ℕ → ℚ × ℚ
  | (f, sum), i =>
      let f := f * if i ≠ 0 then x / i else 1
      (f, sum + f)

def loop : ℚ × ℚ := (indices size nMax rank).foldl (body x) (1, 0)

/-- `MPI_Send` comes before `MPI_Recv`. -/
def sent : ℚ := (loop size nMax x rank).1

def received : ℚ := sent size nMax x (rank - 1)

/-- `sum` at the time of `MPI_Reduce`. -/
def contribution : ℚ :=
  let (_, sum) := loop size nMax x rank
  if rank ≠ 0 then sum * received size nMax x rank else sum

def res : ℚ := ∑ rank ∈ Finset.range size, contribution size nMax x rank

end SphereMultithreading.Model.P10
