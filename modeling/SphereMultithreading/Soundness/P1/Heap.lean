import Mathlib.Data.List.InsertIdx
import SphereMultithreading.Machine.Heaps
import SphereMultithreading.Model.P1.Program
import SphereMultithreading.Soundness.P1.Contents
import SphereMultithreading.Soundness.P1.Ownership

/-! # What a program finds in its blocks

As long as every live Pointer owns its block, a program that stays within the lengths it asked for finds
in its blocks what it last wrote there, however the calls in between have moved them.
-/

namespace SphereMultithreading.Soundness.P1

open Machine Heaps Layout Model.P1 Model.P1.Allocator Proofs.P1

/-- What a use means for a heap. -/
def request : Use → Request UInt8
  | .call (.alloc N) => .alloc N
  | .call (.reallocNull N) => .alloc N
  | .call (.free i) => .free i
  | .call (.realloc i N) => .resize i N
  | .call .defrag => .keep
  | .call .freeNull => .keep
  | .write i k x => .write i k x
  | .read i k => .read i k

/-- The calls keep the blocks with their Pointers, and only requested bytes are used. -/
def WithinBounds (s : Session) : Use → Prop
  | .call call => KeepsOwners s call
  | .write i k _ => ∃ h, s.live[i]? = some h ∧ k < h.requested
  | .read i k => ∃ h, s.live[i]? = some h ∧ k < h.requested

/-- The heap has a block of the requested length for every live Pointer. -/
def SameLengths (s : Session) (heap : Heap UInt8) : Prop :=
  heap.map List.length = s.live.map (·.requested)

/-- What was written into the block is in the buffer. -/
def Filled (a : Allocator) (p : Pointer) (cells : List (Option UInt8)) : Prop :=
  ∃ b, Designates a p b ∧ cells.length ≤ b.length ∧
    ∀ k x, cells[k]? = some (some x) → a.pBuffer (b.offset + k) = x

/-- The block of `q` has the length, and as many of the bytes that `b` had before. -/
def Carried (a t : Allocator) (b : MemoryBlock) (q : Pointer) (N : ℕ) : Prop :=
  ∃ c, Designates t q c ∧ N ≤ c.length ∧
    ∀ k < min b.length N, t.pBuffer (c.offset + k) = a.pBuffer (b.offset + k)

variable {S N : ℕ} {a t : Allocator} {b c : MemoryBlock} {p q : Pointer} {cells : List (Option UInt8)}

theorem designates_unique (nodup : (a.blocks.map (·.addr)).Nodup) (first : Designates a p b)
    (second : Designates a p c) : b = c := by
  obtain ⟨listed, -, here⟩ := first
  obtain ⟨listed', -, here'⟩ := second
  refine eq_of_addr nodup listed listed' ?_
  simpa using here.symm.trans here'

theorem Filled.resized (filled : Filled a p cells) (nodup : (a.blocks.map (·.addr)).Nodup)
    (designates : Designates a p b) (carried : Carried a t b q N) : Filled t q (resized N cells) := by
  obtain ⟨b', designates', fits, contents⟩ := filled
  obtain rfl := designates_unique nodup designates designates'
  obtain ⟨c, there, room, bytes⟩ := carried
  refine ⟨c, there, by rwa [length_resized], fun k x written => ?_⟩
  obtain ⟨kept, before⟩ := resized_eq_some written
  have inside : k < cells.length := (List.getElem?_eq_some_iff.mp before).1
  rw [bytes k (by omega)]
  exact contents k x before

theorem Filled.carried (filled : Filled a p cells)
    (carried : ∀ b, Designates a p b → Carried a t b q b.length) : Filled t q cells := by
  obtain ⟨b, designates, fits, contents⟩ := filled
  obtain ⟨c, there, room, bytes⟩ := carried b designates
  refine ⟨c, there, fits.trans room, fun k x written => ?_⟩
  have inside : k < cells.length := (List.getElem?_eq_some_iff.mp written).1
  rw [bytes k (by omega)]
  exact contents k x written

/-! ## What each call carries -/

/-- A block that stays listed where it is, with its bytes. -/
theorem carried_of_listed (listed : b ∈ t.blocks) (designates : Designates a p b)
    (same : ∀ k < b.length, t.pBuffer (b.offset + k) = a.pBuffer (b.offset + k)) :
    Carried a t b p b.length := by
  refine ⟨b, ⟨listed, designates.2⟩, Nat.le_refl _, fun k inside => same k ?_⟩
  rwa [Nat.min_self] at inside

theorem carried_alloc {addr : ℕ} {blocks : List MemoryBlock}
    (found : allocLoop a.nextAddr N a.blocks = some (blocks, addr)) (designates : Designates a p b) :
    Carried a (a.alloc N).2 b p b.length := by
  obtain ⟨pre, d, post, cut, free, -, -, blocks_eq⟩ := allocLoop_eq_some found
  have ran : (a.alloc N).2 = { a with blocks := blocks, nextAddr := a.nextAddr + 1 } := by
    rw [Allocator.alloc, found]
  rw [ran]
  refine carried_of_listed ?_ designates fun _ _ => rfl
  obtain ⟨listed, used, -⟩ := designates
  have apart : b ≠ d := by
    rintro rfl
    simp [MemoryBlock.isFree, used] at free
  rw [cut, List.mem_append, List.mem_cons] at listed
  change b ∈ blocks
  rw [blocks_eq, List.mem_append, List.mem_cons, List.mem_append]
  exact listed.imp_right fun rest => .inr (.inr (rest.resolve_left apart))

theorem filled_alloc {addr : ℕ} {blocks : List MemoryBlock}
    (found : allocLoop a.nextAddr N a.blocks = some (blocks, addr)) :
    Filled (a.alloc N).2 ⟨some addr⟩ (fresh N) := by
  obtain ⟨pre, d, post, -, -, -, rfl, blocks_eq⟩ := allocLoop_eq_some found
  have ran : (a.alloc N).2 = { a with blocks := blocks, nextAddr := a.nextAddr + 1 } := by
    rw [Allocator.alloc, found]
  refine ⟨{ d with length := N, state := true }, ⟨?_, rfl, rfl⟩, by simp, fun k x written => ?_⟩
  · rw [ran]
    change _ ∈ blocks
    rw [blocks_eq]
    exact List.mem_append_right _ List.mem_cons_self
  · exact absurd written (fresh_ne N k x)

theorem carried_free {addr : ℕ} (apart : p ≠ ⟨some addr⟩) (designates : Designates a p b) :
    Carried a (released a addr).mergeEmptyBlocks b p b.length := by
  refine carried_of_listed ?_ designates fun _ _ => rfl
  obtain ⟨listed, used, rfl⟩ := designates
  have other : b.addr ≠ addr := fun same => apart (same ▸ rfl)
  exact mem_mergeLoop_of_used (List.mem_map.mpr ⟨b, listed, if_neg other⟩) used

theorem carried_shrink (nodup : (a.blocks.map (·.addr)).Nodup) {own : MemoryBlock} (listed : own ∈ a.blocks)
    (apart : p ≠ ⟨some own.addr⟩) (designates : Designates a p b) :
    Carried a (a.shrink own N).mergeEmptyBlocks b p b.length := by
  obtain ⟨pre, post, cut, shrunk⟩ := shrink_blocks (N := N) nodup listed
  refine carried_of_listed ?_ designates fun _ _ => rfl
  obtain ⟨inList, used, rfl⟩ := designates
  have other : b ≠ own := by
    rintro rfl
    exact apart rfl
  refine mem_mergeLoop_of_used ?_ used
  rw [cut, List.mem_append, List.mem_cons] at inList
  rw [shrunk, List.mem_append, List.mem_cons, List.mem_cons]
  exact inList.imp_right fun rest => .inr (.inr (rest.resolve_left other))

theorem carried_shrink_own (nodup : (a.blocks.map (·.addr)).Nodup) (listed : b ∈ a.blocks)
    (used : b.state = true) : Carried a (a.shrink b N).mergeEmptyBlocks b ⟨some b.addr⟩ N := by
  obtain ⟨pre, post, -, shrunk⟩ := shrink_blocks (N := N) nodup listed
  refine ⟨{ b with length := N }, ⟨mem_mergeLoop_of_used ?_ used, used, rfl⟩, Nat.le_refl N, fun _ _ => rfl⟩
  rw [shrunk]
  exact List.mem_append_right _ List.mem_cons_self

section Grow

variable {own lead : MemoryBlock} {pre mid after : List MemoryBlock}

/-- The run that takes in a block ends where the next used block starts, or before. -/
theorem carried_grow (valid : WellPlaced (· ≤ ·) S a) (cut : a.blocks = pre ++ lead :: (mid ++ after))
    (joins : ∀ c ∈ lead :: mid, Joins own.addr c) (fits : own.length ≤ lead.length + total mid) (n : ℕ)
    (apart : p ≠ ⟨some own.addr⟩) (designates : Designates a p b) :
    Carried a (a.grow own lead n N).mergeEmptyBlocks b p b.length := by
  obtain ⟨listed, used, rfl⟩ := designates
  have stays : ¬ Joins own.addr b := by
    simpa [Joins, MemoryBlock.isFree, used] using apart
  refine carried_of_listed (mem_mergeLoop_of_used (mem_grow valid.nodup cut joins n listed stays) used)
    ⟨listed, used, rfl⟩ fun k inside => ?_
  have placed := valid.placed
  rw [cut] at placed
  obtain ⟨start, front, begins, run⟩ := (laid_append Placement.le).mp placed
  obtain ⟨stop, inner, rest⟩ := (laid_append Placement.le).mp run
  have sum : lead.offset + lead.length + total mid ≤ stop := inner.rel_sum Placement.le
  apply memmove_of_outside
  rcases beside_run cut joins listed stays with inPre | inAfter
  · have := front.bounds.2 b inPre
    omega
  · have := rest.bounds.2 b inAfter
    omega

theorem carried_grow_own (nodup : (a.blocks.map (·.addr)).Nodup)
    (cut : a.blocks = pre ++ lead :: (mid ++ after)) (joins : ∀ c ∈ lead :: mid, Joins own.addr c)
    (moved : lead.addr ≠ own.addr) (n : ℕ) :
    Carried a (a.grow own lead n N).mergeEmptyBlocks own ⟨some lead.addr⟩ N := by
  refine ⟨{ lead with length := N, state := true }, ⟨mem_mergeLoop_of_used ?_ rfl, rfl, rfl⟩, Nat.le_refl N,
    fun k inside => memmove_of_lt _ _ _ (by omega)⟩
  rw [grow_blocks nodup cut fun c member => joins c (List.mem_cons_of_mem lead member)]
  refine List.mem_append_right _ ?_
  simp [moved]

end Grow

/-- Every used block has been moved to somewhere. -/
theorem exists_moved {memory buffer : ℕ → UInt8} {blocks packed : List MemoryBlock}
    (moved : List.Forall₂ (MovedTo memory buffer) blocks packed) (listed : b ∈ blocks) :
    ∃ c ∈ packed, MovedTo memory buffer b c := by
  induction moved with
  | nil => cases listed
  | cons here others ih =>
    rcases List.mem_cons.mp listed with rfl | later
    · exact ⟨_, List.mem_cons_self, here⟩
    · obtain ⟨c, member, there⟩ := ih later
      exact ⟨c, List.mem_cons_of_mem _ member, there⟩

theorem carried_defrag (valid : WellPlaced (· ≤ ·) S a) (designates : Designates a p b) :
    Carried a a.defrag b p b.length := by
  obtain ⟨listed, used, rfl⟩ := designates
  have moved := @defragLoop_contents a.pBuffer a.pBuffer 0 0 0 S a.blocks valid.placed (Nat.le_refl 0)
    fun _ _ => rfl
  obtain ⟨c, packed, block, contents⟩ := exists_moved moved (List.mem_filter.mpr ⟨listed, used⟩)
  have kept : c ∈ a.defrag.blocks := by
    rw [defrag]
    simp only [defragLoop_eq]
    exact List.mem_append_left _ packed
  rw [block] at kept
  refine ⟨{ b with offset := c.offset }, ⟨kept, used, rfl⟩, Nat.le_refl _, fun k inside => ?_⟩
  rw [Nat.min_self] at inside
  exact contents k inside

/-! ## Sessions and heaps -/

/-- Every Pointer owns its block, and the heap says what is in it. -/
structure Held (S : ℕ) (s : Session) (heap : Heap UInt8) : Prop where
  owned : Owned S s
  lengths : SameLengths s heap
  filled : ∀ (i : ℕ) (h : LivePointer) cells, s.live[i]? = some h → heap[i]? = some cells →
    Filled s.allocator h.pointer cells

namespace Held

variable {s : Session} {heap : Heap UInt8} {i j : ℕ} {h k : LivePointer}

theorem length_eq (held : Held S s heap) : heap.length = s.live.length := by
  simpa using congrArg List.length held.lengths

theorem cells_of_live (held : Held S s heap) (live : s.live[i]? = some h) :
    ∃ cells, heap[i]? = some cells ∧ cells.length = h.requested := by
  have same : (heap.map List.length)[i]? = some h.requested := by
    rw [held.lengths, List.getElem?_map, live, Option.map_some]
  rw [List.getElem?_map, Option.map_eq_some_iff] at same
  exact same

theorem pointer_ne (held : Held S s heap) (live : s.live[i]? = some h) (other : s.live[j]? = some k)
    (apart : j ≠ i) : k.pointer ≠ h.pointer := by
  intro same
  have distinct := nodup_pointers held.owned.valid.nodup held.owned.perm
  have bound : j < (s.live.map (·.pointer)).length := by
    rw [List.length_map]
    exact (List.getElem?_eq_some_iff.mp other).1
  refine apart ((List.getElem?_inj bound distinct).mp ?_)
  rw [List.getElem?_map, List.getElem?_map, live, other, Option.map_some, Option.map_some, same]

/-- The live Pointer's own block. -/
theorem designates (held : Held S s heap) (live : s.live[i]? = some h) :
    ∃ b, Designates s.allocator h.pointer b ∧ b.length = h.requested := by
  obtain ⟨b, listed, designates, used, length, -⟩ :=
    held.owned.exclusive.designates h (List.mem_of_getElem? live)
  exact ⟨b, ⟨listed, used, designates⟩, length⟩

theorem append (held : Held S s heap) (owned : Owned S ⟨t, s.live ++ [⟨q, N⟩]⟩)
    (carried : ∀ p b, Designates s.allocator p b → Carried s.allocator t b p b.length)
    (filled : Filled t q (fresh N)) : Held S ⟨t, s.live ++ [⟨q, N⟩]⟩ (heap ++ [fresh N]) where
  owned := owned
  lengths := by
    have before : heap.map List.length = s.live.map (·.requested) := held.lengths
    simp [SameLengths, before]
  filled := by
    intro j k cells live here
    rw [List.getElem?_append] at live here
    rw [held.length_eq] at here
    split at live
    · next old =>
      rw [if_pos old] at here
      exact (held.filled j k cells live here).carried (carried k.pointer)
    · next new =>
      rw [if_neg new] at here
      have last : j - s.live.length = 0 := by
        have bound := (List.getElem?_eq_some_iff.mp live).1
        rwa [List.length_singleton, Nat.lt_one_iff] at bound
      rw [last] at live here
      cases live
      cases here
      exact filled

theorem set (held : Held S s heap) (live : s.live[i]? = some h) (here : heap[i]? = some cells)
    (owned : Owned S ⟨t, s.live.set i ⟨q, N⟩⟩)
    (carried : ∀ p b, p ≠ h.pointer → Designates s.allocator p b → Carried s.allocator t b p b.length)
    (filled : Filled t q (resized N cells)) :
    Held S ⟨t, s.live.set i ⟨q, N⟩⟩ (heap.set i (resized N cells)) where
  owned := owned
  lengths := by
    have before : heap.map List.length = s.live.map (·.requested) := held.lengths
    rw [SameLengths, List.map_set, List.map_set, before, length_resized]
  filled := by
    intro j k cells' live' here'
    rw [List.getElem?_set] at live' here'
    by_cases same : i = j
    · rw [if_pos same, if_pos (List.getElem?_eq_some_iff.mp live).1] at live'
      rw [if_pos same, if_pos (List.getElem?_eq_some_iff.mp here).1] at here'
      cases live'
      cases here'
      exact filled
    · rw [if_neg same] at live' here'
      have apart := held.pointer_ne live live' (Ne.symm same)
      exact (held.filled j k cells' live' here').carried fun b => carried k.pointer b apart

theorem erase (held : Held S s heap) (live : s.live[i]? = some h)
    (owned : Owned S ⟨t, s.live.eraseIdx i⟩)
    (carried : ∀ p b, p ≠ h.pointer → Designates s.allocator p b → Carried s.allocator t b p b.length) :
    Held S ⟨t, s.live.eraseIdx i⟩ (heap.eraseIdx i) where
  owned := owned
  lengths := by
    have before : heap.map List.length = s.live.map (·.requested) := held.lengths
    rw [SameLengths, ← List.eraseIdx_map, ← List.eraseIdx_map, before]
  filled := by
    intro j k cells live' here
    rw [List.getElem?_eraseIdx] at live' here
    obtain ⟨j', apart, live', here⟩ : ∃ j', j' ≠ i ∧ s.live[j']? = some k ∧ heap[j']? = some cells := by
      split at live'
      · next below =>
        rw [if_pos below] at here
        exact ⟨j, by omega, live', here⟩
      · next above =>
        rw [if_neg above] at here
        exact ⟨j + 1, by omega, live', here⟩
    have other := held.pointer_ne live live' apart
    exact (held.filled j' k cells live' here).carried fun b => carried k.pointer b other

end Held

section Steps

variable {s s' : Session} {heap : Heap UInt8} {call : Call}

/-- A call has the effect that it is to have on the heap, or none where it may be refused. -/
theorem Held.called (held : Held S s heap) (stepped : s.step call = some s') (keeps : KeepsOwners s call) :
    ∃ heap', Serves heap (request (.call call)) none heap' ∧ Held S s' heap' := by
  have owned := held.owned.kept stepped keeps
  have change := step_change held.owned.valid.nodup held.owned.real stepped
  cases change with
  | @alloc N addr blocks found =>
    exact ⟨_, .alloc heap N, held.append owned (fun p b => carried_alloc found) (filled_alloc found)⟩
  | @reallocNull N addr blocks found =>
    exact ⟨_, .alloc heap N, held.append owned (fun p b => carried_alloc found) (filled_alloc found)⟩
  | allocFails N => exact ⟨heap, .refused heap N, held⟩
  | reallocNullFails N => exact ⟨heap, .refused heap N, held⟩
  | freeNull => exact ⟨heap, .keep heap, held⟩
  | @reallocFails i N h b own names found shorter none => exact ⟨heap, .kept heap i N, held⟩
  | @free i h b names =>
    refine ⟨_, .free heap i, held.erase names.live owned fun p c apart => carried_free ?_⟩
    rwa [← names.designates]
  | defrag =>
    exact ⟨heap, .keep heap, owned, held.lengths, fun i h cells live here =>
      (held.filled i h cells live here).carried fun b => carried_defrag held.owned.valid⟩
  | @same i N h b own names found equal =>
    obtain ⟨cells, here, -⟩ := held.cells_of_live names.live
    have used := (held.owned.names names).1
    -- the invariant behind the call says that the length asked for is the one that is there
    have there : (s.live.set i ⟨h.pointer, N⟩)[i]? = some ⟨h.pointer, N⟩ :=
      List.getElem?_set_self (List.getElem?_eq_some_iff.mp names.live).1
    have entry := (owned.names ⟨there, names.listed, names.designates⟩).2
    have length : N = b.length := congrArg LivePointer.requested entry
    have designates : Designates s.allocator h.pointer b := ⟨names.listed, used, names.designates⟩
    refine ⟨_, .resize here N, held.set names.live here owned (fun p c _ here =>
      carried_of_listed here.1 here fun _ _ => rfl) ?_⟩
    refine (held.filled i h cells names.live here).resized held.owned.valid.nodup designates ?_
    rw [length]
    exact carried_of_listed names.listed designates fun _ _ => rfl
  | @shrink i N h b own names found longer =>
    obtain ⟨cells, here, -⟩ := held.cells_of_live names.live
    have used := (held.owned.names names).1
    have own_eq : own = b := by
      by_contra apart
      have := held.owned.earlier_empty names.listed found apart
      omega
    subst own_eq
    have nodup := held.owned.valid.nodup
    have carried := carried_shrink_own nodup names.listed used (N := N)
    rw [← names.designates] at carried
    refine ⟨_, .resize here N, held.set names.live here owned (fun p c apart =>
      carried_shrink nodup names.listed ?_) ?_⟩
    · rwa [← names.designates]
    · exact (held.filled i h cells names.live here).resized nodup ⟨names.listed, used, names.designates⟩ carried
  | @grow i N h b own lead fit pre mid after names found shorter fits leads cut joins enough =>
    obtain ⟨cells, here, -⟩ := held.cells_of_live names.live
    have used := (held.owned.names names).1
    obtain ⟨h', b', own', names', found', choice⟩ := keeps
    obtain rfl := Option.some.inj (names.live.symm.trans names'.live)
    obtain rfl := eq_of_addr held.owned.valid.nodup names.listed names'.listed
      (by simpa [names.designates] using names'.designates)
    obtain rfl := Option.some.inj (found.symm.trans found')
    rcases choice with ⟨rfl, elsewhere⟩ | ⟨-, ⟨rfl, -⟩ | ⟨-, none⟩⟩
    · have moved : lead.addr ≠ own.addr := fun same =>
        elsewhere shorter fit after fits (same ▸ leads)
      have designates : Designates s.allocator h.pointer own := ⟨names.listed, used, names.designates⟩
      refine ⟨_, .resize here N, held.set names.live here owned (fun p c apart =>
        carried_grow held.owned.valid cut joins (by omega) _ ?_) ?_⟩
      · rwa [← names.designates]
      · exact (held.filled i h cells names.live here).resized held.owned.valid.nodup designates
          (carried_grow_own held.owned.valid.nodup cut joins moved _)
    · omega
    · rw [fits] at none
      cases none

/-- Blocks in order have no byte in common. -/
theorem apart_of_placed {blocks : List MemoryBlock} (placed : Placed (· ≤ ·) 0 blocks S)
    (first : b ∈ blocks) (second : c ∈ blocks) (different : b ≠ c) :
    b.offset + b.length ≤ c.offset ∨ c.offset + c.length ≤ b.offset := by
  have : Std.Symm fun b c : MemoryBlock =>
      b.offset + b.length ≤ c.offset ∨ c.offset + c.length ≤ b.offset := ⟨fun _ _ => Or.symm⟩
  have pairs : blocks.Pairwise fun b c =>
      b.offset + b.length ≤ c.offset ∨ c.offset + c.length ≤ b.offset := placed.pairwise.imp Or.inl
  exact pairs.forall first second different

theorem Held.write (held : Held S s heap) {i k : ℕ} {h : LivePointer} (live : s.live[i]? = some h)
    (inside : k < h.requested) (x : UInt8) : ∃ s' heap', s.write i k x = some s' ∧
      Serves heap (.write i k x) none heap' ∧ Held S s' heap' := by
  obtain ⟨b, designates, length⟩ := held.designates live
  obtain ⟨cells, here, size⟩ := held.cells_of_live live
  have valid := held.owned.valid
  have start : s.allocator.get h.pointer = some b.offset := by
    rw [designates.2.2]
    exact get_of_mem valid.nodup designates.1
  have wrote : s.write i k x = some ⟨{ s.allocator with
      pBuffer := Function.update s.allocator.pBuffer (b.offset + k) x }, s.live⟩ := by
    simp [Session.write, live, start]
  refine ⟨_, _, wrote, .write here x, ⟨⟨?_, held.owned.perm⟩, ?_, fun j r cells' live' here' => ?_⟩⟩
  · exact ⟨valid.nonempty, valid.placed, valid.nodup, valid.fresh⟩
  · have before : heap.map List.length = s.live.map (·.requested) := held.lengths
    have there : (heap.map List.length)[i]? = some cells.length := by
      rw [List.getElem?_map, here, Option.map_some]
    obtain ⟨bound, size⟩ := List.getElem?_eq_some_iff.mp there
    rw [SameLengths, List.map_set, List.length_set, ← size, List.set_getElem_self bound, before]
  · rw [List.getElem?_set] at here'
    by_cases same : i = j
    · subst same
      rw [if_pos rfl, if_pos (List.getElem?_eq_some_iff.mp here).1] at here'
      cases here'
      obtain rfl := Option.some.inj (live.symm.trans live')
      obtain ⟨b', designates', fits, contents⟩ := held.filled i h cells live here
      obtain rfl := designates_unique valid.nodup designates designates'
      refine ⟨b, designates, by rwa [List.length_set], fun j y written => ?_⟩
      rcases set_eq_some written with ⟨rfl, rfl⟩ | ⟨apart, before⟩
      · exact Function.update_self ..
      · exact (Function.update_of_ne (by omega) ..).trans (contents j y before)
    · rw [if_neg same] at here'
      have apart := held.pointer_ne live live' (Ne.symm same)
      refine (held.filled j r cells' live' here').carried fun c other => ?_
      refine carried_of_listed other.1 other fun j inside' => Function.update_of_ne ?_ ..
      have different : b ≠ c := by
        rintro rfl
        exact apart (other.2.2.trans designates.2.2.symm)
      have := apart_of_placed valid.placed designates.1 other.1 different
      omega

theorem Held.read (held : Held S s heap) {i k : ℕ} {h : LivePointer} (live : s.live[i]? = some h) :
    ∃ x, s.read i k = some x ∧ Serves heap (.read i k) (some x) heap := by
  obtain ⟨cells, here, -⟩ := held.cells_of_live live
  obtain ⟨b, designates, -, contents⟩ := held.filled i h cells live here
  have start : s.allocator.get h.pointer = some b.offset := by
    rw [designates.2.2]
    exact get_of_mem held.owned.valid.nodup designates.1
  exact ⟨_, by simp [Session.read, live, start], .read here fun y written => contents k y written⟩

end Steps

theorem held_new (buffer : ℕ → UInt8) (S : ℕ) : Held S (.new buffer S) [] where
  owned := ⟨.new Placement.le buffer S, by simp [Session.new, Allocator.new, owners, MemoryBlock.new]⟩
  lengths := rfl
  filled := fun i h cells live => by cases live

/-- A use within bounds goes through, and is served as a heap may serve it. -/
theorem Held.used {s : Session} {heap : Heap UInt8} {u : Use} (held : Held S s heap)
    (within : WithinBounds s u) : ∃ reply s' heap', s.use u = some (reply, s') ∧
      Serves heap (request u) reply heap' ∧ Held S s' heap' := by
  cases u with
  | call call =>
    obtain ⟨s', stepped⟩ : ∃ s', s.step call = some s' := step_defined held.owned.valid.nodup (by
      rintro i N (rfl | rfl)
      · exact within
      · obtain ⟨h, b, own, names, -⟩ := within
        exact ⟨h, b, names⟩)
    obtain ⟨heap', served, held'⟩ := held.called stepped within
    exact ⟨none, s', heap', by rw [Session.use, stepped, Option.map_some], served, held'⟩
  | write i k x =>
    obtain ⟨h, live, inside⟩ := within
    obtain ⟨s', heap', wrote, served, held'⟩ := held.write live inside x
    exact ⟨none, s', heap', by rw [Session.use, wrote, Option.map_some], served, held'⟩
  | read i k =>
    obtain ⟨h, live, -⟩ := within
    obtain ⟨x, read, served⟩ := held.read live
    exact ⟨some x, s, heap, by rw [Session.use, read, Option.map_some], served, held⟩

/-- Every program that keeps within the bounds of its blocks, and does not make the calls that take a
block away from its Pointer, finds in its blocks what it wrote there. -/
theorem heap_refined (buffer : ℕ → UInt8) (S : ℕ) {uses : List Use}
    (within : Guarded (fun s u => (s.use u).map Prod.snd) WithinBounds (.new buffer S) uses) :
    Explained Session.use (fun heap u => Serves heap (request u)) SameLengths (.new buffer S) [] uses :=
  explained_of_guarded (fun _ _ held => held.lengths) (fun _ _ _ held within => held.used within)
    (held_new buffer S) within

/-- A block grows down to where the one before it was, and is read there. -/
theorem heap_refined_moved :
    Explained Session.use (fun heap u => Serves heap (request u)) SameLengths (.new (fun _ => 0) 16) []
      [.call (.alloc 4), .call (.alloc 3), .write 1 0 7, .call (.free 0), .call (.realloc 0 5),
        .read 0 0] := by
  apply heap_refined
  refine ⟨trivial, fun s stepped => ?_⟩
  obtain rfl := Option.some.inj stepped
  refine ⟨trivial, fun s stepped => ?_⟩
  obtain rfl := Option.some.inj stepped
  refine ⟨⟨_, rfl, by decide⟩, fun s stepped => ?_⟩
  obtain rfl := Option.some.inj stepped
  refine ⟨⟨_, _, rfl, List.mem_cons_self, rfl⟩, fun s stepped => ?_⟩
  obtain rfl := Option.some.inj stepped
  refine ⟨⟨_, _, _, ⟨rfl, List.mem_cons_of_mem _ List.mem_cons_self, rfl⟩, rfl, .inl ⟨rfl, ?_⟩⟩,
    fun s stepped => ?_⟩
  · rintro - fit after fits
    obtain rfl := congrArg Prod.fst (Option.some.inj fits)
    decide
  · obtain rfl := Option.some.inj stepped
    exact ⟨⟨_, rfl, by decide⟩, fun _ _ => trivial⟩

end SphereMultithreading.Soundness.P1
