import SphereMultithreading.Proofs.P1.Bytes
import SphereMultithreading.Proofs.P1.Calls
import SphereMultithreading.Proofs.P1.Merging

/-! # The bytes of a resized block

Where a block grows, the first run of free blocks that is long enough takes it in, the block itself
counting as free. It moves to the start of that run, and no used block but itself lies there.
-/

namespace SphereMultithreading.Soundness.P1

open Layout Model.P1 Model.P1.Allocator Proofs.P1

/-- The Pointer is now `q`. The bytes of its block are where it points, as many as it still has, and the
other used blocks are what they were. -/
structure Resized (a t : Allocator) (p q : Pointer) (b : MemoryBlock) (N : ℕ) : Prop where
  contents : ∃ start, t.get q = some start ∧
    ∀ i < min b.length N, t.pBuffer (start + i) = a.pBuffer (b.offset + i)
  others : ∀ r c, Designates a r c → r ≠ p → Designates t r c ∧
    ∀ i < c.length, t.pBuffer (c.offset + i) = a.pBuffer (c.offset + i)

variable {S N : ℕ} {a t : Allocator} {b own lead : MemoryBlock} {pre mid after fit : List MemoryBlock}

theorem get_of_mem (nodup : (t.blocks.map (·.addr)).Nodup) {c : MemoryBlock} (listed : c ∈ t.blocks) :
    t.get ⟨some c.addr⟩ = some c.offset := by
  have designated : t.block? c.addr = some c := find?_addr nodup listed
  rw [Allocator.get, Option.bind_some, designated, Option.map_some]

/-- No block but the last is empty where offsets are distinct. -/
theorem nonempty_of_distinct {c : MemoryBlock} {front rest : List MemoryBlock}
    (placed : Placed (· = ·) 0 a.blocks S) (distinct : (a.blocks.map (·.offset)).Nodup)
    (cut : a.blocks = front ++ b :: c :: rest) : b.length ≠ 0 := by
  intro empty
  rw [cut] at placed distinct
  obtain ⟨mid, -, -, next, -⟩ := (laid_append Placement.eq).mp placed
  have same : c.offset = b.offset := by omega
  simp [List.nodup_append, same] at distinct

/-- The run a block grows into begins with the block it moves to. -/
theorem began_of_fitting (valid : WellPlaced (· = ·) S a) (distinct : (a.blocks.map (·.offset)).Nodup)
    (cut : a.blocks = pre ++ lead :: (mid ++ after)) (joins : ∀ c ∈ lead :: mid, Joins own.addr c)
    (fits : fitting own.addr N [] a.blocks = some (fit, after)) (leads : leader fit = some lead.addr) :
    ∀ c ∈ pre.getLast?, ¬ Joins own.addr c := by
  obtain ⟨before, empties, rfl, began, empty⟩ :=
    (RunAt.of_fitting valid.nodup cut joins fits leads).1.began
  rcases List.eq_nil_or_concat empties with rfl | ⟨empties, c, rfl⟩
  · rw [List.append_nil]
    exact began
  · have cut' : a.blocks = (before ++ empties) ++ c :: lead :: (mid ++ after) := by simpa using cut
    exact absurd (empty c (by simp)) (nonempty_of_distinct valid.placed distinct cut')

/-- A used block that is not resized is beside the run that the resized one grows into. -/
theorem beside_run (cut : a.blocks = pre ++ lead :: (mid ++ after))
    (joins : ∀ c ∈ lead :: mid, Joins own.addr c) {c : MemoryBlock} (listed : c ∈ a.blocks)
    (stays : ¬ Joins own.addr c) : c ∈ pre ∨ c ∈ after := by
  rw [cut, List.mem_append, List.mem_cons, List.mem_append] at listed
  rcases listed with inPre | rfl | inMid | inAfter
  · exact .inl inPre
  · exact absurd (joins c List.mem_cons_self) stays
  · exact absurd (joins c (List.mem_cons_of_mem lead inMid)) stays
  · exact .inr inAfter

theorem mem_grow (nodup : (a.blocks.map (·.addr)).Nodup) (cut : a.blocks = pre ++ lead :: (mid ++ after))
    (joins : ∀ c ∈ lead :: mid, Joins own.addr c) (n : ℕ) {c : MemoryBlock} (listed : c ∈ a.blocks)
    (stays : ¬ Joins own.addr c) : c ∈ (a.grow own lead n N).blocks := by
  have apart : c.addr ≠ own.addr := fun same => stays (.inr same)
  rw [grow_blocks nodup cut (fun d member => joins d (List.mem_cons_of_mem lead member))]
  rcases beside_run cut joins listed stays with inPre | inAfter
  · exact List.mem_append_left _ (List.mem_map.mpr ⟨c, inPre, if_neg apart⟩)
  · refine List.mem_append_right _ (List.mem_cons_of_mem _ (List.mem_cons_of_mem _ ?_))
    exact List.mem_filter.mpr ⟨inAfter, by simpa using stays⟩

/-- What is moved stays within the run. -/
theorem grow_outside (placed : Placed (· = ·) 0 a.blocks S)
    (cut : a.blocks = pre ++ lead :: (mid ++ after)) (joins : ∀ c ∈ lead :: mid, Joins own.addr c)
    (fits : own.length ≤ lead.length + total mid) {c : MemoryBlock} (listed : c ∈ a.blocks)
    (stays : ¬ Joins own.addr c) {i : ℕ} (inside : i < c.length) :
    memmove a.pBuffer lead.offset own.offset own.length (c.offset + i) = a.pBuffer (c.offset + i) := by
  have bounds := beside_run cut joins listed stays
  rw [cut] at placed
  obtain ⟨start, front, begins, run⟩ := (laid_append Placement.eq).mp placed
  obtain ⟨stop, inner, rest⟩ := (laid_append Placement.eq).mp run
  have sum : lead.offset + lead.length + total mid = stop := inner.rel_sum Placement.eq
  apply memmove_of_outside
  rcases bounds with inPre | inAfter
  · have := (front.of_eq Placement.le).bounds.2 c inPre
    omega
  · have := (rest.of_eq Placement.le).bounds.2 c inAfter
    omega

/-- The block that was grown is listed where it moved to. -/
theorem get_grow (valid : WellPlaced (· = ·) S a) (distinct : (a.blocks.map (·.offset)).Nodup)
    (fits : fitting own.addr N [] a.blocks = some (fit, after)) (leads : leader fit = some lead.addr)
    (cut : a.blocks = pre ++ lead :: (mid ++ after)) (joins : ∀ c ∈ lead :: mid, Joins own.addr c)
    (enough : N ≤ lead.length + total mid) :
    (a.grow own lead (lead.length + total mid) N).mergeEmptyBlocks.get ⟨some lead.addr⟩ = some lead.offset := by
  have inRun : ∀ c ∈ mid, Joins own.addr c := fun c member => joins c (List.mem_cons_of_mem lead member)
  have ordered : WellPlaced (· ≤ ·) S a :=
    ⟨valid.nonempty, valid.placed.of_eq Placement.le, valid.nodup, valid.fresh⟩
  have nodup := ((ordered.grow Placement.le cut inRun enough fun _ _ _ => by omega).mergeEmptyBlocks
    Placement.le).nodup
  have grown := grow_blocks (N := N) valid.nodup cut inRun (lead.length + total mid)
  suffices kept : ∃ length state, ({ lead with length := length, state := state } : MemoryBlock) ∈
      (a.grow own lead (lead.length + total mid) N).mergeEmptyBlocks.blocks by
    obtain ⟨length, state, listed⟩ := kept
    have there := get_of_mem nodup listed
    exact there
  by_cases same : lead.addr = own.addr
  · -- grown in place, the block is marked free, and it is the first of its run
    have began := began_of_fitting valid distinct cut joins fits leads
    have front := (addr_ne_of_cut (cut ▸ valid.nodup)).1
    rw [update_of_ne _ fun c member => same ▸ front c member] at grown
    rw [mergeEmptyBlocks, grown]
    obtain ⟨length, listed⟩ := @mem_mergeLoop pre _ { lead with length := N, state := decide (lead.addr ≠ own.addr) }
      (fun c last => by simpa [Joins, MemoryBlock.isFree] using (not_or.mp (began c last)).1)
      (by simp [MemoryBlock.isFree, same])
    exact ⟨length, _, listed⟩
  · refine ⟨N, decide (lead.addr ≠ own.addr), mem_mergeLoop_of_used ?_ (by simpa using same)⟩
    rw [grown]
    exact List.mem_append_right _ List.mem_cons_self

theorem shrink_resized (valid : WellPlaced (· = ·) S a) (listed : b ∈ a.blocks) (used : b.state = true)
    (longer : N < b.length) :
    Resized a (a.shrink b N).mergeEmptyBlocks ⟨some b.addr⟩ ⟨some b.addr⟩ b N := by
  obtain ⟨pre, post, cut, shrunk⟩ := shrink_blocks (N := N) valid.nodup listed
  have nodup := ((valid.shrink Placement.eq listed longer).mergeEmptyBlocks Placement.eq).nodup
  have here : ({ b with length := N } : MemoryBlock) ∈ (a.shrink b N).mergeEmptyBlocks.blocks := by
    refine mem_mergeLoop_of_used ?_ used
    rw [shrunk]
    exact List.mem_append_right _ List.mem_cons_self
  have there := get_of_mem nodup here
  refine ⟨⟨b.offset, there, fun _ _ => rfl⟩, fun r c ⟨inList, used', designates⟩ differ => ?_⟩
  refine ⟨⟨mem_mergeLoop_of_used ?_ used', used', designates⟩, fun _ _ => rfl⟩
  have apart : c ≠ b := by
    rintro rfl
    exact differ designates
  rw [cut, List.mem_append, List.mem_cons] at inList
  rw [shrunk, List.mem_append, List.mem_cons, List.mem_cons]
  exact inList.imp_right fun rest => .inr (.inr (rest.resolve_left apart))

/-- Whatever `realloc` returns, the bytes that remain are at the Pointer, and no other block's are written. -/
theorem realloc_resizes (valid : WellPlaced (· = ·) S a) (distinct : (a.blocks.map (·.offset)).Nodup)
    {p : Pointer} (designates : Designates a p b) (N : ℕ) :
    ∃ result q t, a.realloc p N = some (result, q, t) ∧ (result = .ok () → Resized a t p q b N) := by
  obtain ⟨listed, used, rfl⟩ := designates
  have found : a.findBlock b.offset = some b := find?_key (·.offset) distinct listed
  rcases realloc_cases N valid.nodup listed found with ⟨same, ran⟩ | ⟨longer, ran⟩ |
    ⟨-, -, ran⟩ | ⟨shorter, fit, pre, lead, mid, after, fits, leads, cut, joins, sum, enough, ran⟩
  · exact ⟨_, _, _, ran, fun _ => ⟨⟨b.offset, get_of_mem valid.nodup listed, fun _ _ => rfl⟩,
      fun r c designates _ => ⟨designates, fun _ _ => rfl⟩⟩⟩
  · exact ⟨_, _, _, ran, fun _ => shrink_resized valid listed used longer⟩
  · exact ⟨_, _, _, ran, fun returns => by simp at returns⟩
  · rw [sum] at enough ran
    have there := get_grow valid distinct fits leads cut joins enough
    refine ⟨_, _, _, ran, fun _ => ⟨⟨lead.offset, there, fun i inside => ?_⟩, fun r c other differ => ?_⟩⟩
    · exact memmove_of_lt _ _ _ (by omega)
    · obtain ⟨inList, used', rfl⟩ := other
      have stays : ¬ Joins b.addr c := by
        simpa [Joins, MemoryBlock.isFree, used'] using differ
      exact ⟨⟨mem_mergeLoop_of_used (mem_grow valid.nodup cut joins _ inList stays) used', used', rfl⟩,
        fun i inside => grow_outside valid.placed cut joins (by omega) inList stays inside⟩

/-- A used block of 2 bytes behind a free one of 3, and before another one. -/
def crowded : Allocator := ⟨fun _ => 0, [⟨0, 0, 3, false⟩, ⟨1, 3, 2, true⟩, ⟨2, 5, 4, true⟩], 3⟩

theorem realloc_resizes_crowded :
    ∃ result q t, crowded.realloc ⟨some 1⟩ 4 = some (result, q, t) ∧
      (result = .ok () → Resized crowded t ⟨some 1⟩ q ⟨1, 3, 2, true⟩ 4) :=
  @realloc_resizes 9 crowded ⟨1, 3, 2, true⟩ ⟨by simp [crowded], by simp [crowded], by decide, by decide⟩ (by decide) _
    ⟨by decide, rfl, rfl⟩ 4

end SphereMultithreading.Soundness.P1
