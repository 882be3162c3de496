import Mathlib.Data.List.Forall2
import SphereMultithreading.Proofs.P1.Blocks

/-! # The bytes that `memmove` moves

`defrag` moves one block after the other. What has been moved lies below the running offset and is not
written again, and what is still to be moved lies above it and is not written before.
-/

namespace SphereMultithreading.Proofs.P1

open Model.P1 Model.P1.Allocator Layout

variable {buffer memory : ℕ → UInt8} {dst src n j : ℕ}

theorem memmove_of_lt (buffer : ℕ → UInt8) (dst src : ℕ) {i : ℕ} (inside : i < n) :
    memmove buffer dst src n (dst + i) = buffer (src + i) := by
  rw [memmove, if_pos ⟨Nat.le_add_right dst i, Nat.add_lt_add_left inside dst⟩, Nat.add_sub_cancel_left]

theorem memmove_of_outside (outside : j < dst ∨ dst + n ≤ j) : memmove buffer dst src n j = buffer j := by
  rw [memmove, if_neg (by omega)]

/-- Nothing is written below the running offset. -/
theorem defragLoop_frame (blockLength : ℕ) {blockOffset : ℕ} {blocks : List MemoryBlock}
    (below : j < blockOffset) : (defragLoop buffer blockLength blockOffset blocks).1 j = buffer j := by
  induction blocks generalizing buffer blockLength blockOffset with
  | nil => rfl
  | cons b rest ih =>
    rw [defragLoop]
    split
    · exact ih _ below
    · exact (ih blockLength (Nat.lt_add_right b.length below)).trans (memmove_of_outside (.inl below))

/-- The block has been moved with its bytes. -/
structure MovedTo (memory buffer : ℕ → UInt8) (b c : MemoryBlock) : Prop where
  block : c = { b with offset := c.offset }
  contents : ∀ i < b.length, buffer (c.offset + i) = memory (b.offset + i)

/-- What is still to be moved is as it was at first, so every block arrives with its bytes. -/
theorem defragLoop_contents {blockLength blockOffset lo hi : ℕ} {blocks : List MemoryBlock}
    (placed : Placed (· ≤ ·) lo blocks hi) (behind : blockOffset ≤ lo)
    (unmoved : ∀ j, lo ≤ j → buffer j = memory j) :
    List.Forall₂ (MovedTo memory (defragLoop buffer blockLength blockOffset blocks).1)
      (blocks.filter (·.state)) (pack blockOffset (blocks.filter (·.state))) := by
  induction blocks generalizing buffer blockLength blockOffset lo with
  | nil => exact .nil
  | cons b rest ih =>
    obtain ⟨start, tail⟩ := placed
    rw [defragLoop]
    cases used : b.state with
    | false =>
      rw [if_pos (by simp [MemoryBlock.isFree, used]), List.filter_cons_of_neg (by simp [used])]
      exact ih tail (by omega) fun j above => unmoved j (by omega)
    | true =>
      rw [if_neg (by simp [MemoryBlock.isFree, used]), List.filter_cons_of_pos used, pack]
      refine .cons ⟨rfl, fun i inside => ?_⟩ (ih tail (by omega) fun j above => ?_)
      · change (defragLoop _ _ _ rest).1 (blockOffset + i) = _
        rw [defragLoop_frame _ (by omega), memmove_of_lt _ _ _ inside, unmoved _ (by omega)]
      · rw [memmove_of_outside (by omega), unmoved j (by omega)]

end SphereMultithreading.Proofs.P1
