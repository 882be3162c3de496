import SphereMultithreading.Proofs.P1.Bytes
import SphereMultithreading.Soundness.P1.Tiling

/-! # What `defrag` leaves

The used blocks stay in order and move down with their bytes, and one free block of the added lengths
follows them, so that `alloc` throws only when there is not enough space in all.
-/

namespace SphereMultithreading.Soundness.P1

open Layout Model.P1 Model.P1.Allocator Proofs.P1

/-- The used blocks moved next to each other from 0 on, and one free block. -/
structure Compacted (S : ℕ) (a t : Allocator) : Prop where
  tiled : Tiled S t.blocks
  blocks : ∃ kept, t.blocks = kept ++
      [.new a.nextAddr (total (a.blocks.filter (·.state))) (total (a.blocks.filter (·.isFree)))] ∧
    List.Forall₂ (MovedTo a.pBuffer t.pBuffer) (a.blocks.filter (·.state)) kept ∧
    ∀ c ∈ kept, t.block? c.addr = some c
  room : ∀ N, (∃ p, (t.alloc N).1 = .ok p) ↔ N ≤ total (a.blocks.filter (·.isFree))

variable {S : ℕ} {a : Allocator}

theorem defrag_blocks (a : Allocator) :
    a.defrag.blocks = pack 0 (a.blocks.filter (·.state)) ++
      [.new a.nextAddr (total (a.blocks.filter (·.state))) (total (a.blocks.filter (·.isFree)))] := by
  rw [defrag]
  simp only [defragLoop_eq, Nat.zero_add]

/-- `alloc` returns a Pointer exactly if a free block is long enough. -/
theorem alloc_ok_iff (a : Allocator) (N : ℕ) :
    (∃ p, (a.alloc N).1 = .ok p) ↔ ∃ b ∈ a.blocks, b.isFree = true ∧ N ≤ b.length := by
  have fails : allocLoop a.nextAddr N a.blocks = none ↔ ¬ ∃ b ∈ a.blocks, b.isFree = true ∧ N ≤ b.length := by
    rw [allocLoop_eq_none]
    simp only [not_exists, not_and, Nat.not_le]
  rw [alloc]
  split
  · next none => exact iff_of_false (by simp) (fails.mp none)
  · next blocks addr found =>
    refine iff_of_true ⟨_, rfl⟩ (by_contra fun absent => ?_)
    rw [fails.mpr absent] at found
    contradiction

theorem free_defrag {b : MemoryBlock} (listed : b ∈ a.defrag.blocks) (free : b.isFree = true) :
    b.length = total (a.blocks.filter (·.isFree)) := by
  rw [defrag_blocks] at listed
  rcases List.mem_append.mp listed with moved | last
  · have used : b.state ∈ (pack 0 (a.blocks.filter (·.state))).map (·.state) := List.mem_map_of_mem moved
    rw [map_pack _ (fun _ _ => rfl)] at used
    obtain ⟨c, listed, same⟩ := List.mem_map.mp used
    have taken := (List.mem_filter.mp listed).2
    rw [same] at taken
    simp [MemoryBlock.isFree, taken] at free
  · obtain rfl := List.mem_singleton.mp last
    rfl

/-- Whatever the layout, `defrag` compacts it. -/
theorem defrag_compacts (valid : WellPlaced (· = ·) S a) : Compacted S a a.defrag where
  tiled := (laid_eq_iff (valid.defrag Placement.eq).nonempty).mp (valid.defrag Placement.eq).placed
  blocks := by
    refine ⟨_, defrag_blocks a, ?_, fun c member => ?_⟩
    · exact defragLoop_contents (valid.placed.of_eq Placement.le) (Nat.le_refl 0) fun _ _ => rfl
    · refine find?_addr (valid.defrag Placement.eq).nodup ?_
      rw [defrag_blocks]
      exact List.mem_append_left _ member
  room := by
    intro N
    rw [alloc_ok_iff]
    constructor
    · rintro ⟨b, listed, free, enough⟩
      rwa [free_defrag listed free] at enough
    · intro enough
      rw [defrag_blocks]
      exact ⟨_, List.mem_append_right _ (List.mem_singleton_self _), rfl, enough⟩

/-- A free block of 3 bytes, a used one of 5 and a free one of 2. -/
def holes : Allocator := ⟨fun _ => 0, [⟨0, 0, 3, false⟩, ⟨1, 3, 5, true⟩, ⟨2, 8, 2, false⟩], 3⟩

theorem defrag_compacts_holes : Compacted 10 holes holes.defrag :=
  defrag_compacts ⟨by simp [holes], by simp [holes], by decide, by decide⟩

end SphereMultithreading.Soundness.P1
