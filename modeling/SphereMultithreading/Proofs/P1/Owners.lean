import Mathlib.Data.List.Perm.Basic
import SphereMultithreading.Proofs.P1.Calls

/-! # The live Pointers the used blocks call for

`owners` reads off the block list which Pointers should be live and with what lengths. A session
in which the live Pointers are a permutation of it has no block without a Pointer, no Pointer
without a block, and no two Pointers to one block. The lemmas say how `owners` changes when the
list is rewritten.
-/

namespace SphereMultithreading.Proofs.P1

open Model.P1 Model.P1.Allocator Layout

/-- The live Pointer that designates a block. -/
def owner (b : MemoryBlock) : LivePointer := ⟨⟨some b.addr⟩, b.length⟩

/-- One live Pointer for every used block. -/
def owners (blocks : List MemoryBlock) : List LivePointer := (blocks.filter (·.state)).map owner

/-- The live Pointers that designate something else. -/
def others (addr : ℕ) (live : List LivePointer) : List LivePointer :=
  live.filter fun h => h.pointer ≠ ⟨some addr⟩

theorem mem_owners {blocks : List MemoryBlock} {h : LivePointer} :
    h ∈ owners blocks ↔ ∃ b ∈ blocks, b.state = true ∧ owner b = h := by
  simp [owners, and_assoc]

@[simp] theorem owners_append (first second : List MemoryBlock) :
    owners (first ++ second) = owners first ++ owners second := by simp [owners]

theorem owners_cons (b : MemoryBlock) (rest : List MemoryBlock) :
    owners (b :: rest) = (if b.state then [owner b] else []) ++ owners rest := by
  cases used : b.state <;> simp [owners, used]

theorem owners_cons_used {b : MemoryBlock} (used : b.state = true) (rest : List MemoryBlock) :
    owners (b :: rest) = owner b :: owners rest := by rw [owners_cons, if_pos used]; rfl

theorem owners_cons_free {b : MemoryBlock} (free : b.state = false) (rest : List MemoryBlock) :
    owners (b :: rest) = owners rest := by simp [owners_cons, free]

theorem owners_eq_nil {blocks : List MemoryBlock} (free : ∀ b ∈ blocks, b.state = false) :
    owners blocks = [] := by
  rw [owners, List.filter_eq_nil_iff.mpr (fun b member => by simp [free b member]), List.map_nil]

@[simp] theorem others_append (addr : ℕ) (first second : List LivePointer) :
    others addr (first ++ second) = others addr first ++ others addr second :=
  List.filter_append ..

theorem others_owners (addr : ℕ) (blocks : List MemoryBlock) :
    others addr (owners blocks) = owners (blocks.filter (·.addr ≠ addr)) := by
  rw [others, owners, owners, List.filter_map, List.filter_comm]
  refine congrArg (List.map owner) (congrArg (List.filter _) (List.filter_congr fun b _ => ?_))
  simp [owner]

/-- Marking a block free takes its Pointer out. -/
theorem owners_update_free (addr : ℕ) (blocks : List MemoryBlock) :
    owners (update addr (fun b => { b with state := false }) blocks) =
      others addr (owners blocks) := by
  induction blocks with
  | nil => rfl
  | cons b rest ih =>
    rw [update] at ih ⊢
    rw [List.map_cons, owners_cons, owners_cons, others_append, ih]
    congr 1
    by_cases same : b.addr = addr <;> cases used : b.state <;>
      simp [others, owner, same, used]

/-- Dropping the blocks that join a resized block takes only its own Pointer out. -/
theorem owners_filter_joins (own : ℕ) (blocks : List MemoryBlock) :
    owners (blocks.filter (fun c => ¬ Joins own c)) = others own (owners blocks) := by
  rw [others_owners, owners, owners, List.filter_filter, List.filter_filter]
  congr 2
  funext b
  cases used : b.state <;> simp [Joins, MemoryBlock.isFree, used]

theorem owners_pack (offset : ℕ) (blocks : List MemoryBlock) :
    owners (pack offset blocks) = owners blocks := by
  induction blocks generalizing offset with
  | nil => rfl
  | cons b rest ih =>
    rw [pack, owners_cons, owners_cons, ih]
    rfl

theorem owners_mergeEmptyBlocks (a : Allocator) :
    owners a.mergeEmptyBlocks.blocks = owners a.blocks := by
  rw [owners, mergeEmptyBlocks, used_mergeLoop (show OpenRun none 0 from rfl), owners]

theorem owners_defrag (a : Allocator) : owners a.defrag.blocks = owners a.blocks := by
  rw [defrag]
  simp only [defragLoop_eq, owners_append, owners_pack, owners_cons_free, MemoryBlock.new]
  simp [owners]

/-- `alloc` adds the Pointer it hands out. -/
theorem owners_alloc {a : Allocator} {N addr : ℕ} {blocks : List MemoryBlock}
    (found : allocLoop a.nextAddr N a.blocks = some (blocks, addr)) :
    (owners (a.alloc N).2.blocks).Perm (⟨⟨some addr⟩, N⟩ :: owners a.blocks) := by
  obtain ⟨pre, b, post, cut, free, -, rfl, same⟩ := allocLoop_eq_some found
  have unused : b.state = false := by simpa [MemoryBlock.isFree] using free
  have left : owners (remainder a.nextAddr N b) = [] := by
    refine owners_eq_nil fun c member => ?_
    rw [remainder] at member
    split at member
    · obtain rfl := List.mem_singleton.mp member
      rfl
    · simp at member
  have ran : (a.alloc N).2.blocks = blocks := by rw [Allocator.alloc, found]
  rw [ran, same, cut, owners_append, owners_append, owners_cons_free unused, owners_cons_used rfl,
    owners_append, left, List.nil_append]
  exact List.perm_middle

/-- Shrinking a used block changes the length of its Pointer. -/
theorem owners_shrink {a : Allocator} {own : MemoryBlock} {N : ℕ}
    (nodup : (a.blocks.map (·.addr)).Nodup) (listed : own ∈ a.blocks) (used : own.state = true) :
    (owners (a.shrink own N).blocks).Perm
      (⟨⟨some own.addr⟩, N⟩ :: others own.addr (owners a.blocks)) := by
  obtain ⟨pre, post, cut, shrunk⟩ := shrink_blocks (N := N) nodup listed
  rw [cut] at nodup
  obtain ⟨front, behind⟩ := addr_ne_of_cut nodup
  have kept {blocks : List MemoryBlock} (apart : ∀ c ∈ blocks, c.addr ≠ own.addr) :
      others own.addr (owners blocks) = owners blocks := by
    rw [others_owners, List.filter_eq_self.mpr (fun c member => by simpa using apart c member)]
  have self : others own.addr [owner own] = [] := by simp [others, owner]
  rw [shrunk, cut, owners_append, owners_append, owners_cons, owners_cons_free rfl, owners_cons,
    if_pos used, if_pos used, others_append, others_append, kept front, kept behind, self]
  exact List.perm_middle

/-- No live Pointer but that of the resized block designates a block of the run. -/
theorem others_cut {blocks pre mid after : List MemoryBlock} {own : ℕ} {lead : MemoryBlock}
    (cut : blocks = pre ++ lead :: (mid ++ after)) (joins : ∀ c ∈ lead :: mid, Joins own c) :
    others own (owners blocks) = others own (owners pre) ++ others own (owners after) := by
  have inRun : others own (owners (lead :: mid)) = [] := by
    rw [others_owners]
    refine owners_eq_nil fun c member => ?_
    obtain ⟨member, apart⟩ := List.mem_filter.mp member
    rcases joins c member with free | same
    · simpa [MemoryBlock.isFree] using free
    · simp [same] at apart
  rw [cut, ← List.cons_append, owners_append, owners_append, others_append, others_append, inRun,
    List.nil_append]

section Grow

variable {a : Allocator} {own lead : MemoryBlock} {N : ℕ} {pre mid after : List MemoryBlock}

/-- Growing a block elsewhere moves its Pointer to the candidate. -/
theorem owners_grow (nodup : (a.blocks.map (·.addr)).Nodup)
    (cut : a.blocks = pre ++ lead :: (mid ++ after))
    (joins : ∀ b ∈ lead :: mid, Joins own.addr b) (moved : lead.addr ≠ own.addr) (n : ℕ) :
    (owners (a.grow own lead n N).blocks).Perm
      (⟨⟨some lead.addr⟩, N⟩ :: others own.addr (owners a.blocks)) := by
  rw [grow_blocks nodup cut (fun c member => joins c (List.mem_cons_of_mem _ member)),
    others_cut cut joins, owners_append, owners_update_free,
    owners_cons_used (by simpa using moved), owners_cons_free rfl, owners_filter_joins]
  exact List.perm_middle

/-- Growing a block in place takes its Pointer out: the grown block ends up free. -/
theorem owners_grow_inPlace (nodup : (a.blocks.map (·.addr)).Nodup)
    (cut : a.blocks = pre ++ lead :: (mid ++ after))
    (joins : ∀ b ∈ lead :: mid, Joins own.addr b) (same : lead.addr = own.addr) (n : ℕ) :
    owners (a.grow own lead n N).blocks = others own.addr (owners a.blocks) := by
  rw [grow_blocks nodup cut (fun c member => joins c (List.mem_cons_of_mem _ member)),
    others_cut cut joins, owners_append, owners_update_free,
    owners_cons_free (by simpa using same), owners_cons_free rfl, owners_filter_joins]

end Grow

/-! ## Live Pointers that match the list -/

section Live

variable {live : List LivePointer} {blocks : List MemoryBlock} {i : ℕ} {h : LivePointer}

/-- The Pointers of distinct blocks are distinct. -/
theorem nodup_pointers (nodup : (blocks.map (·.addr)).Nodup) (perm : live.Perm (owners blocks)) :
    (live.map (·.pointer)).Nodup := by
  rw [(perm.map _).nodup_iff, owners, List.map_map]
  have distinct : ((blocks.map (·.addr)).map fun addr => Pointer.mk (some addr)).Nodup :=
    nodup.map fun _ _ same => Option.some.inj (Pointer.mk.inj same)
  rw [List.map_map] at distinct
  exact (List.filter_sublist.map _).nodup distinct

/-- Taking one live Pointer out leaves those that designate other blocks. -/
theorem eraseIdx_perm (nodup : (blocks.map (·.addr)).Nodup) (perm : live.Perm (owners blocks))
    (at_ : live[i]? = some h) {addr : ℕ} (designates : h.pointer = ⟨some addr⟩) :
    (live.eraseIdx i).Perm (others addr (owners blocks)) := by
  obtain ⟨bound, rfl⟩ := List.getElem?_eq_some_iff.mp at_
  have taken : live.Perm (live[i] :: live.eraseIdx i) := (List.getElem_cons_eraseIdx_perm bound).symm
  have distinct := nodup_pointers nodup perm
  rw [(taken.map _).nodup_iff, List.map_cons, List.nodup_cons] at distinct
  have rest : others addr (live[i] :: live.eraseIdx i) = live.eraseIdx i := by
    rw [others, List.filter_cons_of_neg (by simp [designates])]
    refine List.filter_eq_self.mpr fun k member => ?_
    have apart : k.pointer ≠ live[i].pointer := fun same =>
      distinct.1 (same ▸ List.mem_map_of_mem member)
    simpa [designates] using apart
  rw [← rest]
  exact (taken.symm.trans perm).filter _

theorem set_perm (at_ : live[i]? = some h) (h' : LivePointer) :
    (live.set i h').Perm (h' :: live.eraseIdx i) :=
  List.set_perm_cons_eraseIdx (List.getElem?_eq_some_iff.mp at_).1 h'

end Live

end SphereMultithreading.Proofs.P1
