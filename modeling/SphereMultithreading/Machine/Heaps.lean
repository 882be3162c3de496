import Mathlib.Data.List.Basic

/-! # Heaps

A heap is a list of blocks, known by their places, and a block is a list of cells. A cell that was never
written may read as anything. Whether there is room for a block is left open.
-/

namespace SphereMultithreading.Machine.Heaps

variable {β : Type*}

abbrev Heap (β : Type*) := List (List (Option β))

/-- What is asked of a heap. `keep` stands for all that has no effect. -/
inductive Request (β : Type*) where
  | alloc (n : ℕ)
  | free (i : ℕ)
  | resize (i n : ℕ)
  | keep
  | write (i k : ℕ) (x : β)
  | read (i k : ℕ)

def fresh (n : ℕ) : List (Option β) := List.replicate n none

/-- The cells that remain, and new ones. -/
def resized (n : ℕ) (cells : List (Option β)) : List (Option β) :=
  cells.take n ++ fresh (n - cells.length)

/-- How a heap may serve a request. What needs room may be refused. -/
inductive Serves : Heap β → Request β → Option β → Heap β → Prop
  | alloc (heap : Heap β) (n : ℕ) : Serves heap (.alloc n) none (heap ++ [fresh n])
  | refused (heap : Heap β) (n : ℕ) : Serves heap (.alloc n) none heap
  | free (heap : Heap β) (i : ℕ) : Serves heap (.free i) none (heap.eraseIdx i)
  | resize {heap : Heap β} {i : ℕ} {cells : List (Option β)} (here : heap[i]? = some cells) (n : ℕ) :
      Serves heap (.resize i n) none (heap.set i (resized n cells))
  | kept (heap : Heap β) (i n : ℕ) : Serves heap (.resize i n) none heap
  | keep (heap : Heap β) : Serves heap .keep none heap
  | write {heap : Heap β} {i k : ℕ} {cells : List (Option β)} (here : heap[i]? = some cells) (x : β) :
      Serves heap (.write i k x) none (heap.set i (cells.set k (some x)))
  | read {heap : Heap β} {i k : ℕ} {cells : List (Option β)} (here : heap[i]? = some cells) {x : β}
      (last : ∀ y, cells[k]? = some (some y) → x = y) : Serves heap (.read i k) (some x) heap

variable {cells : List (Option β)} {n k : ℕ} {x y : β}

@[simp] theorem length_fresh (n : ℕ) : (fresh n : List (Option β)).length = n :=
  List.length_replicate

theorem fresh_ne (n k : ℕ) (x : β) : (fresh n)[k]? ≠ some (some x) := by
  intro written
  obtain ⟨bound, same⟩ := List.getElem?_eq_some_iff.mp written
  simp [fresh] at same

@[simp] theorem length_resized (n : ℕ) (cells : List (Option β)) : (resized n cells).length = n := by
  rw [resized, List.length_append, List.length_take, length_fresh]
  omega

/-- Only what was written before is found in a block of another size. -/
theorem resized_eq_some (written : (resized n cells)[k]? = some (some x)) :
    k < n ∧ cells[k]? = some (some x) := by
  have bound : k < n := by
    have inside := (List.getElem?_eq_some_iff.mp written).1
    rwa [length_resized] at inside
  refine ⟨bound, ?_⟩
  rw [resized, List.getElem?_append] at written
  split at written
  · rwa [List.getElem?_take_of_lt bound] at written
  · exact absurd written (fresh_ne _ _ x)

theorem set_eq_some {j : ℕ} (written : (cells.set k (some x))[j]? = some (some y)) :
    (j = k ∧ y = x) ∨ (j ≠ k ∧ cells[j]? = some (some y)) := by
  rw [List.getElem?_set] at written
  split at written
  · next same =>
    split at written
    · exact .inl ⟨same.symm, by simpa [eq_comm] using written⟩
    · cases written
  · next apart => exact .inr ⟨Ne.symm apart, written⟩

end SphereMultithreading.Machine.Heaps
