import Mathlib

/-! # Counting semaphores and the permits processes hold

A process holds permits of at most one semaphore at a time. `Balanced` is the account of an array
of counting semaphores: what is left on a semaphore and what the processes hold of it add up to
its supply. A process whose operations are the wrong way round holds a negative number.
-/

namespace SphereMultithreading.Machine.Permits

variable {ι π β M : Type*}

/-- A sum over the processes when one of them changes. -/
theorem sum_update [Fintype π] [DecidableEq π] [AddCommMonoid M] (f : β → M) (g : π → β) (p : π)
    (x : β) : ∑ q, f (Function.update g p x q) + f (g p) = ∑ q, f (g q) + f x := by
  rw [← Finset.add_sum_erase _ _ (Finset.mem_univ p),
    ← Finset.add_sum_erase Finset.univ (fun q => f (g q)) (Finset.mem_univ p)]
  have others : ∑ q ∈ Finset.univ.erase p, f (Function.update g p x q) =
      ∑ q ∈ Finset.univ.erase p, f (g q) := by
    apply Finset.sum_congr rfl
    intro q member
    rw [Function.update_of_ne (Finset.ne_of_mem_erase member)]
  rw [others, Function.update_self]
  abel

variable [DecidableEq ι]

/-- The permits of semaphore `i` among those held. -/
def count (held : Option (ι × ℤ)) (i : ι) : ℤ := held.elim 0 fun h => if h.1 = i then h.2 else 0

@[simp] theorem count_none (i : ι) : count none i = 0 := rfl

@[simp] theorem count_same (i : ι) (c : ℤ) : count (some (i, c)) i = c := if_pos rfl

@[simp] theorem count_other {i j : ι} (differ : j ≠ i) (c : ℤ) : count (some (j, c)) i = 0 :=
  if_neg differ

/-- The semaphores' values and the permits held add up to the supply. -/
def Balanced [Fintype π] (supply value : ι → ℤ) (held : π → Option (ι × ℤ)) : Prop :=
  ∀ i, value i + ∑ p, count (held p) i = supply i

section Account

variable [Fintype π] {supply value value' : ι → ℤ} {held : π → Option (ι × ℤ)}

theorem balanced_of_unheld (unheld : ∀ p, held p = none) : Balanced supply supply held := by
  intro i
  simp only [unheld, count_none, Finset.sum_const_zero, add_zero]

/-- A process exchanges what it holds; the semaphores give or take the difference. -/
theorem Balanced.exchange [DecidableEq π] (balanced : Balanced supply value held) (p : π)
    (x : Option (ι × ℤ))
    (exchanged : ∀ i, value' i + count x i = value i + count (held p) i) :
    Balanced supply value' (Function.update held p x) := by
  intro i
  have total := balanced i
  have moved := exchanged i
  have changed := sum_update (fun h => count h i) held p x
  omega

/-- When nobody else holds a permit of a semaphore, its value is what the one process left. -/
theorem Balanced.value_of_alone (balanced : Balanced supply value held) {i : ι} (p : π)
    (alone : ∀ q, q ≠ p → count (held q) i = 0) : value i + count (held p) i = supply i := by
  rw [← balanced i, Fintype.sum_eq_single p alone]

theorem Balanced.value_of_unheld (balanced : Balanced supply value held) {i : ι}
    (unheld : ∀ q, count (held q) i = 0) : value i = supply i := by
  rw [← balanced i, Finset.sum_eq_zero fun q _ => unheld q, add_zero]

/-- Two processes cannot hold more than the supply together. -/
theorem Balanced.pair_le [DecidableEq π] (balanced : Balanced supply value held)
    (honest : ∀ p i, 0 ≤ count (held p) i) {p q : π} (differ : p ≠ q) (i : ι) :
    value i + (count (held p) i + count (held q) i) ≤ supply i := by
  rw [← balanced i, ← Finset.sum_pair (f := fun p => count (held p) i) differ]
  apply Int.add_le_add_left
  apply Finset.sum_le_sum_of_subset_of_nonneg (Finset.subset_univ _)
  intro r _ _
  exact honest r i

end Account

end SphereMultithreading.Machine.Permits
