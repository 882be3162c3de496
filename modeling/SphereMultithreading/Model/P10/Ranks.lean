import SphereMultithreading.Model.P10.Exponential

/-! # The ranks of p10 and their messages

Each rank is a process that computes its block, sends its last term to the next rank, receives that of
the one before, and takes part in the reduction. Whether the library keeps the message of a rank until it
is asked for, or the send waits for the receive, is left to the library. The sums are reduced in the order
in which the ranks come.
-/

namespace SphereMultithreading.Model.P10

/-- What a rank does next. -/
inductive Stage where
  | compute
  | send (f sum : ℚ)
  | recv (sum : ℚ)
  | reduce (sum : ℚ)
  | finalize

/-- The ranks, the messages the library keeps for the next rank, and the sum so far. -/
structure Ranks where
  stages : ℕ → Stage
  kept : ℕ → Option ℚ
  reduced : ℚ

namespace Ranks

def init : Ranks where
  stages := fun _ => .compute
  kept := fun _ => none
  reduced := 0

inductive Action where
  | compute (rank : ℕ)
  | keep (rank : ℕ)
  | meet (rank : ℕ)
  | recv (rank : ℕ)
  | reduce (rank : ℕ)
deriving DecidableEq, Repr

def setStage (s : Ranks) (rank : ℕ) (stage : Stage) : Ranks :=
  { s with stages := Function.update s.stages rank stage }

def setKept (s : Ranks) (rank : ℕ) (message : Option ℚ) : Ranks :=
  { s with kept := Function.update s.kept rank message }

/-- Behind `if (rank != size - 1) MPI_Send`. -/
def sentStage (rank : ℕ) (sum : ℚ) : Stage := if rank ≠ 0 then .recv sum else .reduce sum

variable (size nMax : ℕ) (x : ℚ) (keeps : ℕ → Bool)

def compute (s : Ranks) (rank : ℕ) : Option Ranks :=
  match s.stages rank with
  | .compute =>
      let (f, sum) := loop size nMax x rank
      some (s.setStage rank (if rank ≠ size - 1 then .send f sum else sentStage rank sum))
  | _ => none

/-- The library keeps the message, and `MPI_Send` returns. -/
def keep (s : Ranks) (rank : ℕ) : Option Ranks :=
  match s.stages rank with
  | .send f sum =>
      if keeps rank then some ((s.setKept rank (some f)).setStage rank (sentStage rank sum)) else none
  | _ => none

/-- `MPI_Send` and the `MPI_Recv` of the next rank return together. -/
def meet (s : Ranks) (rank : ℕ) : Option Ranks :=
  match s.stages rank, s.stages (rank + 1) with
  | .send f sum, .recv sum' =>
      some ((s.setStage rank (sentStage rank sum)).setStage (rank + 1) (.reduce (sum' * f)))
  | _, _ => none

/-- `MPI_Recv` returns with a message that was kept. -/
def recv (s : Ranks) (rank : ℕ) : Option Ranks :=
  match s.stages rank, s.kept (rank - 1) with
  | .recv sum, some f => some ((s.setKept (rank - 1) none).setStage rank (.reduce (sum * f)))
  | _, _ => none

def reduce (s : Ranks) (rank : ℕ) : Option Ranks :=
  match s.stages rank with
  | .reduce sum => some ({ s with reduced := s.reduced + sum }.setStage rank .finalize)
  | _ => none

def step (s : Ranks) (action : Action) : Option Ranks :=
  match action with
  | .compute rank => if rank < size then s.compute size nMax x rank else none
  | .keep rank => if rank < size then s.keep keeps rank else none
  | .meet rank => if rank + 1 < size then s.meet rank else none
  | .recv rank => if rank < size then s.recv rank else none
  | .reduce rank => if rank < size then s.reduce rank else none

/-- All ranks have taken part in the reduction, and rank 0 has its result. -/
def Finished (s : Ranks) : Prop := ∀ rank, rank < size → s.stages rank = .finalize

end Ranks

end SphereMultithreading.Model.P10
