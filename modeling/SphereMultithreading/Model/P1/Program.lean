import Mathlib.Logic.Function.Basic
import SphereMultithreading.Model.P1.Session

/-! # A program with the memory of its Pointers

Between its calls a program reads and writes through what `get` returns, cast to `char *`.
-/

namespace SphereMultithreading.Model.P1

inductive Use where
  | call (call : Call)
  | write (i k : ℕ) (x : UInt8)
  | read (i k : ℕ)
deriving DecidableEq, Repr

namespace Session

/-- `v[k] = x` behind the live Pointer's address. -/
def write (s : Session) (i k : ℕ) (x : UInt8) : Option Session := do
  let h ← s.live[i]?
  let start ← s.allocator.get h.pointer
  let buffer := Function.update s.allocator.pBuffer (start + k) x
  some ⟨{ s.allocator with pBuffer := buffer }, s.live⟩

/-- `v[k]` -/
def read (s : Session) (i k : ℕ) : Option UInt8 := do
  let h ← s.live[i]?
  let start ← s.allocator.get h.pointer
  some (s.allocator.pBuffer (start + k))

/-- What the program gets to see, and the session behind it. -/
def use (s : Session) : Use → Option (Option UInt8 × Session)
  | .call call => (s.step call).map fun t => (none, t)
  | .write i k x => (s.write i k x).map fun t => (none, t)
  | .read i k => (s.read i k).map fun x => (some x, s)

end Session

end SphereMultithreading.Model.P1
