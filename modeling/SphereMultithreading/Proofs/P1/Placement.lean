import SphereMultithreading.Proofs.P1.Resize

/-! # Every operation keeps the blocks laid out

`WellPlaced r` says that the blocks follow one another in the buffer as `r` prescribes and that
list nodes have distinct addresses below the next one. All operations keep it for both placements,
except that `grow` must drop no block that `r` does not let go: with `=` these are the nonempty
ones.
-/

namespace SphereMultithreading.Proofs.P1

open Model.P1 Model.P1.Allocator Layout

structure WellPlaced (r : ℕ → ℕ → Prop) (S : ℕ) (a : Allocator) : Prop where
  nonempty : a.blocks ≠ []
  placed : Placed r 0 a.blocks S
  nodup : (a.blocks.map (·.addr)).Nodup
  fresh : ∀ b ∈ a.blocks, b.addr < a.nextAddr

namespace WellPlaced

variable {r : ℕ → ℕ → Prop} {S : ℕ} {a : Allocator}

theorem new (placement : Placement r) (buffer : ℕ → UInt8) (S : ℕ) :
    WellPlaced r S (.new buffer S) where
  nonempty := List.cons_ne_nil _ _
  placed := Laid.of_eq placement ⟨rfl, Nat.zero_add S⟩
  nodup := List.nodup_singleton _
  fresh := by simp [Allocator.new, MemoryBlock.new]

/-- Addresses stay distinct when one fresh node joins some of the old ones. -/
private theorem addrs_of_subperm {blocks : List MemoryBlock} (valid : WellPlaced r S a)
    (sub : (blocks.map (·.addr)).Subperm (a.nextAddr :: a.blocks.map (·.addr))) :
    (blocks.map (·.addr)).Nodup ∧ ∀ b ∈ blocks, b.addr < a.nextAddr + 1 := by
  have absent : a.nextAddr ∉ a.blocks.map (·.addr) := by
    rintro member
    obtain ⟨b, listed, same⟩ := List.mem_map.mp member
    exact absurd (valid.fresh b listed) (by omega)
  obtain ⟨sorted, perm, sublist⟩ := sub
  refine ⟨perm.nodup_iff.mp (sublist.nodup (List.nodup_cons.mpr ⟨absent, valid.nodup⟩)), ?_⟩
  intro b member
  have known := sublist.subset (perm.mem_iff.mpr (List.mem_map_of_mem member))
  rcases List.mem_cons.mp known with same | old
  · omega
  · obtain ⟨c, listed, same⟩ := List.mem_map.mp old
    have := valid.fresh c listed
    omega

private theorem placed_update_state {lo hi : ℕ} {blocks : List MemoryBlock} (addr : ℕ)
    (state : Bool) (placed : Placed r lo blocks hi) :
    Placed r lo (update addr (fun b => { b with state := state }) blocks) hi :=
  (laid_map _ (fun _ _ => by split <;> rfl) (fun _ _ => by split <;> rfl)).mpr placed

/-- Changing the state of one block moves nothing. -/
theorem setState (valid : WellPlaced r S a) (addr : ℕ) (state : Bool) :
    WellPlaced r S
      { a with blocks := update addr (fun b => { b with state := state }) a.blocks } where
  nonempty := by simpa [update] using valid.nonempty
  placed := placed_update_state addr state valid.placed
  nodup := by rw [addrs_update]; exact valid.nodup
  fresh := by
    intro b member
    obtain ⟨c, listed, rfl⟩ := List.mem_map.mp member
    have := valid.fresh c listed
    split <;> exact this

theorem mergeEmptyBlocks (placement : Placement r) (valid : WellPlaced r S a) :
    WellPlaced r S a.mergeEmptyBlocks where
  nonempty := mergeLoop_ne_nil rfl valid.nonempty
  placed := placed_mergeLoop placement rfl valid.placed
  nodup := addrs_mergeLoop.nodup valid.nodup
  fresh := by
    intro b member
    obtain ⟨c, listed, same⟩ := List.mem_map.mp (addrs_mergeLoop.subset (List.mem_map_of_mem member))
    exact same ▸ valid.fresh c listed

/-- A node inserted behind another one. -/
private theorem perm_insert (pre post : List ℕ) (addr fresh : ℕ) :
    (pre ++ addr :: fresh :: post).Perm (fresh :: (pre ++ addr :: post)) := by
  have moved : (pre ++ [addr] ++ fresh :: post).Perm (fresh :: (pre ++ [addr] ++ post)) :=
    List.perm_middle
  simpa using moved

/-- The part a block is cut into takes its place. -/
private theorem placed_split (placement : Placement r) {lo hi N : ℕ} {pre rest : List MemoryBlock}
    {b c d : MemoryBlock} (placed : Placed r lo (pre ++ b :: rest) hi)
    (start : c.offset = b.offset) (cut : c.length = N) (next : d.offset = b.offset + N)
    (size : N + d.length = b.length) : Placed r lo (pre ++ c :: d :: rest) hi := by
  obtain ⟨mid, front, first, behind⟩ := (laid_append placement).mp placed
  refine (laid_append placement).mpr ⟨mid, front, start ▸ first, ?_, ?_⟩
  · rw [start, cut, next]
    exact placement.refl _
  · rw [next, Nat.add_assoc, size]
    exact behind

theorem alloc (placement : Placement r) (valid : WellPlaced r S a) (N : ℕ) :
    WellPlaced r S (a.alloc N).2 := by
  rw [Allocator.alloc]
  split
  · exact valid
  · next blocks addr success =>
    obtain ⟨pre, b, post, cut, -, long, -, rfl⟩ := allocLoop_eq_some success
    have placed := valid.placed
    have addrs := List.Perm.refl (a.blocks.map (·.addr))
    rw [cut] at placed
    rw [remainder]
    split
    · have perm : ((pre ++ { b with length := N, state := true } ::
          .new a.nextAddr (b.offset + N) (b.length - N) :: post).map (·.addr)).Perm
          (a.nextAddr :: a.blocks.map (·.addr)) := by
        rw [cut]
        simpa [MemoryBlock.new] using
          perm_insert (pre.map (·.addr)) (post.map (·.addr)) b.addr a.nextAddr
      obtain ⟨nodup, fresh⟩ := valid.addrs_of_subperm perm.subperm
      refine ⟨by simp, ?_, nodup, fresh⟩
      exact placed_split placement placed rfl rfl rfl (Nat.add_sub_cancel' long)
    · next short =>
      have same : N = b.length := by omega
      have perm : ((pre ++ { b with length := N, state := true } :: post).map (·.addr)).Subperm
          (a.nextAddr :: a.blocks.map (·.addr)) := by
        rw [cut]
        simpa using (List.sublist_cons_self a.nextAddr
          (pre.map (·.addr) ++ b.addr :: post.map (·.addr))).subperm
      obtain ⟨nodup, fresh⟩ := valid.addrs_of_subperm perm
      refine ⟨by simp, ?_, nodup, fresh⟩
      obtain ⟨mid, front, first, behind⟩ := (laid_append placement).mp placed
      refine (laid_append placement).mpr ⟨mid, front, first, ?_⟩
      subst same
      exact behind

theorem shrink (placement : Placement r) (valid : WellPlaced r S a) {own : MemoryBlock} {N : ℕ}
    (member : own ∈ a.blocks) (longer : N < own.length) : WellPlaced r S (a.shrink own N) := by
  obtain ⟨pre, post, cut, shrunk⟩ := shrink_blocks (N := N) valid.nodup member
  have placed := valid.placed
  rw [cut] at placed
  have perm : ((a.shrink own N).blocks.map (·.addr)).Perm
      (a.nextAddr :: a.blocks.map (·.addr)) := by
    rw [shrunk, cut]
    simpa [MemoryBlock.new] using
      perm_insert (pre.map (·.addr)) (post.map (·.addr)) own.addr a.nextAddr
  obtain ⟨nodup, fresh⟩ := valid.addrs_of_subperm perm.subperm
  refine ⟨by simp [shrunk], ?_, nodup, fresh⟩
  rw [shrunk]
  exact placed_split placement placed rfl rfl rfl (Nat.add_sub_cancel' (Nat.le_of_lt longer))

/-- Growing keeps the layout when every block it drops behind the run may be dropped. -/
theorem grow (placement : Placement r) (valid : WellPlaced r S a) {own lead : MemoryBlock} {N : ℕ}
    {pre mid after : List MemoryBlock} (cut : a.blocks = pre ++ lead :: (mid ++ after))
    (joins : ∀ b ∈ mid, Joins own.addr b) (enough : N ≤ lead.length + total mid)
    (droppable : ∀ b ∈ after, Joins own.addr b → r b.offset (b.offset + b.length)) :
    WellPlaced r S (a.grow own lead (lead.length + total mid) N) := by
  have grown := grow_blocks (N := N) valid.nodup cut joins (lead.length + total mid)
  have placed := valid.placed
  rw [cut] at placed
  have sub : ((a.grow own lead (lead.length + total mid) N).blocks.map (·.addr)).Subperm
      (a.nextAddr :: a.blocks.map (·.addr)) := by
    rw [grown, cut, List.map_append, addrs_update]
    simp only [List.map_cons, List.map_append, MemoryBlock.new]
    have moved : ((pre.map (·.addr) ++ [lead.addr]) ++ a.nextAddr ::
        (after.filter (fun c => ¬ Joins own.addr c)).map (·.addr)).Perm
        (a.nextAddr :: ((pre.map (·.addr) ++ [lead.addr]) ++
          (after.filter (fun c => ¬ Joins own.addr c)).map (·.addr))) := List.perm_middle
    have dropped : ((after.filter (fun c => ¬ Joins own.addr c)).map (·.addr)).Sublist
        (mid.map (·.addr) ++ after.map (·.addr)) :=
      (List.filter_sublist.map _).trans (List.sublist_append_right _ _)
    simpa using moved.subperm.trans
      (((List.Sublist.refl (pre.map (·.addr) ++ [lead.addr])).append dropped).cons_cons
        a.nextAddr).subperm
  obtain ⟨nodup, fresh⟩ := valid.addrs_of_subperm sub
  refine ⟨by simp [grown], ?_, nodup, fresh⟩
  obtain ⟨start, front, first, behind⟩ := (laid_append placement).mp placed
  obtain ⟨stop, run, tail⟩ := (laid_append placement).mp behind
  have rest := (tail.lower placement (run.rel_sum placement)).filter placement
    (fun c => decide ¬ Joins own.addr c) (fun b member joined =>
      droppable b member (by simpa using joined))
  rw [grown]
  refine (laid_append placement).mpr
    ⟨start, placed_update_state own.addr false front, first, placement.refl _, ?_⟩
  have same : lead.offset + N + (lead.length + total mid - N) =
      lead.offset + lead.length + (mid.map (·.length)).sum := by
    rw [total] at enough ⊢
    omega
  exact same ▸ rest

theorem defrag (placement : Placement r) (valid : WellPlaced r S a) : WellPlaced r S a.defrag := by
  have packed := defragLoop_eq a.pBuffer 0 0 a.blocks
  have sub : (a.defrag.blocks.map (·.addr)).Subperm (a.nextAddr :: a.blocks.map (·.addr)) := by
    rw [Allocator.defrag]
    simp only [packed, List.map_append, List.map_cons, List.map_nil, MemoryBlock.new,
      map_pack (·.addr) (fun _ _ => rfl)]
    have moved : ((a.blocks.filter (·.state)).map (·.addr) ++ [a.nextAddr]).Perm
        (a.nextAddr :: (a.blocks.filter (·.state)).map (·.addr)) :=
      List.perm_append_singleton _ _
    exact moved.subperm.trans ((List.filter_sublist.map _).cons_cons a.nextAddr).subperm
  obtain ⟨nodup, fresh⟩ := valid.addrs_of_subperm sub
  refine ⟨by simp [Allocator.defrag], ?_, nodup, fresh⟩
  have fits := valid.placed.rel_sum placement
  rw [Nat.zero_add] at fits
  have tiled : Placed (· = ·) 0 a.defrag.blocks (total a.blocks) := by
    rw [Allocator.defrag]
    simp only [packed]
    refine (laid_append Placement.eq).mpr ⟨_, placed_pack 0 _, rfl, ?_⟩
    simp only [MemoryBlock.new, Nat.zero_add, laid_nil]
    exact total_filter_add (·.state) (·.isFree) (fun _ => rfl) a.blocks
  exact (Laid.of_eq placement tiled).upper placement fits

end WellPlaced

end SphereMultithreading.Proofs.P1
