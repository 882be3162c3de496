import SphereMultithreading.Model.P1.Allocator

/-! # A client of the allocator

A session is an allocator with the live Pointers it handed out: each `Pointer` object is held
once, is passed by reference, and stops being live when it is freed. `requested` records the
length last asked for, which the code does not store. A call is a step of the session; it is not
enabled when it names no live Pointer or performs an access without meaning.
-/

namespace SphereMultithreading.Model.P1

/-- A live Pointer and the length last requested for it. -/
structure LivePointer where
  pointer : Pointer
  requested : ℕ
deriving DecidableEq, Repr

structure Session where
  allocator : Allocator
  live : List LivePointer

/-- The public calls. Live Pointers are named by their position; the last two pass a null one. -/
inductive Call where
  | alloc (N : ℕ)
  | free (i : ℕ)
  | realloc (i N : ℕ)
  | defrag
  | freeNull
  | reallocNull (N : ℕ)
deriving DecidableEq, Repr

namespace Session

/-- A new allocator over the buffer, with nothing handed out. -/
def new (buffer : ℕ → UInt8) (size : ℕ) : Session := ⟨.new buffer size, []⟩

/-- One call, whether it returns or throws. -/
def step (s : Session) : Call → Option Session
  | .alloc N =>
      match s.allocator.alloc N with
      | (.ok p, a) => some ⟨a, s.live ++ [⟨p, N⟩]⟩
      | (.error _, a) => some ⟨a, s.live⟩
  | .free i => do
      let h ← s.live[i]?
      let (result, p, a) ← s.allocator.free h.pointer
      match result with
      | .ok _ => some ⟨a, s.live.eraseIdx i⟩
      | .error _ => some ⟨a, s.live.set i ⟨p, h.requested⟩⟩
  | .realloc i N => do
      let h ← s.live[i]?
      let (result, p, a) ← s.allocator.realloc h.pointer N
      match result with
      | .ok _ => some ⟨a, s.live.set i ⟨p, N⟩⟩
      | .error _ => some ⟨a, s.live.set i ⟨p, h.requested⟩⟩
  | .defrag => some ⟨s.allocator.defrag, s.live⟩
  | .freeNull => do
      let (_, _, a) ← s.allocator.free ⟨none⟩
      some ⟨a, s.live⟩
  | .reallocNull N => do
      let (result, p, a) ← s.allocator.realloc ⟨none⟩ N
      match result with
      | .ok _ => some ⟨a, s.live ++ [⟨p, N⟩]⟩
      | .error _ => some ⟨a, s.live⟩

end Session

end SphereMultithreading.Model.P1
