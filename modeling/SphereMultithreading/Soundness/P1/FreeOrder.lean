import SphereMultithreading.Machine.Run
import SphereMultithreading.Proofs.P1.Merging
import SphereMultithreading.Proofs.P1.Calls

/-! # Freeing in any order

Every `free` merges the whole list, but what it leaves is what merging once would have left. The order of
several calls is then that of the marks, which does not matter.
-/

namespace SphereMultithreading.Soundness.P1

open Machine Layout Model.P1 Model.P1.Allocator Proofs.P1

/-- One `free` that returns. -/
def freeOne (a : Allocator) (p : Pointer) : Option Allocator :=
  (a.free p).bind fun (result, _, a) =>
    match result with
    | .ok _ => some a
    | .error _ => none

/-- The blocks of the Pointers are marked free. -/
def marked (ps : List Pointer) (blocks : List MemoryBlock) : List MemoryBlock :=
  blocks.map fun b => if ⟨some b.addr⟩ ∈ ps then { b with state := false } else b

/-- What freeing the Pointers leaves. -/
def freed (a : Allocator) : List Pointer → Allocator
  | [] => a
  | p :: ps => { a with blocks := mergeLoop none 0 (marked (p :: ps) a.blocks) }

variable {S : ℕ} {a : Allocator} {p : Pointer} {ps qs done rest : List Pointer} {b : MemoryBlock}

@[simp] theorem marked_nil (blocks : List MemoryBlock) : marked [] blocks = blocks := by
  simp [marked]

theorem addrs_marked (ps : List Pointer) (blocks : List MemoryBlock) :
    (marked ps blocks).map (·.addr) = blocks.map (·.addr) := by
  rw [marked, List.map_map]
  refine List.map_congr_left fun b _ => ?_
  rw [Function.comp_apply]
  split <;> rfl

theorem mem_marked {blocks : List MemoryBlock} (listed : b ∈ blocks)
    (kept : (⟨some b.addr⟩ : Pointer) ∉ ps) : b ∈ marked ps blocks :=
  List.mem_map.mpr ⟨b, listed, if_neg kept⟩

theorem update_marked (done : List Pointer) (addr : ℕ) (blocks : List MemoryBlock) :
    update addr (fun b => { b with state := false }) (marked done blocks) =
      marked (done ++ [⟨some addr⟩]) blocks := by
  rw [update, marked, marked, List.map_map]
  refine List.map_congr_left fun b _ => ?_
  by_cases same : b.addr = addr <;> by_cases member : (⟨some b.addr⟩ : Pointer) ∈ done <;>
    simp_all

/-- A block may be changed before or after the list is merged. -/
theorem mergeLoop_update {blocks : List MemoryBlock} (nodup : (blocks.map (·.addr)).Nodup)
    (listed : b ∈ blocks) (used : b.state = true) (f : MemoryBlock → MemoryBlock) :
    mergeLoop none 0 (update b.addr f (mergeLoop none 0 blocks)) =
      mergeLoop none 0 (update b.addr f blocks) := by
  obtain ⟨pre, post, rfl⟩ := List.append_of_mem listed
  obtain ⟨front, behind⟩ := addr_ne_of_cut nodup
  have apart {l : List MemoryBlock} (absent : ∀ c ∈ l, c.addr ≠ b.addr) :
      ∀ c ∈ mergeLoop none 0 l, c.addr ≠ b.addr := by
    intro c member
    obtain ⟨d, listed, same⟩ := List.mem_map.mp (addrs_mergeLoop.subset (List.mem_map_of_mem member))
    exact same ▸ absent d listed
  rw [mergeLoop_used used, update_cut f (apart front) (apart behind), update_cut f front behind,
    mergeLoop_around]

theorem freed_concat (a : Allocator) (done : List Pointer) (p : Pointer) :
    freed a (done ++ [p]) = { a with blocks := mergeLoop none 0 (marked (done ++ [p]) a.blocks) } := by
  cases done <;> rfl

/-- The blocks of the other Pointers stay what they are. -/
theorem block?_freed (valid : WellPlaced (· = ·) S a) (designates : Designates a p b)
    (kept : p ∉ done) : (freed a done).block? b.addr = some b := by
  obtain ⟨listed, used, rfl⟩ := designates
  cases done with
  | nil => exact find?_addr valid.nodup listed
  | cons q done =>
    have nodup : ((marked (q :: done) a.blocks).map (·.addr)).Nodup := by
      rw [addrs_marked]
      exact valid.nodup
    have present := mem_mergeLoop_of_used (mem_marked listed kept) used
    exact find?_addr (addrs_mergeLoop.nodup nodup) present

theorem freeOne_freed (valid : WellPlaced (· = ·) S a) (designates : Designates a p b)
    (kept : p ∉ done) : freeOne (freed a done) p = some (freed a (done ++ [p])) := by
  have designated := block?_freed valid designates kept
  obtain ⟨listed, used, rfl⟩ := designates
  have called : freeOne (freed a done) ⟨some b.addr⟩ =
      some (released (freed a done) b.addr).mergeEmptyBlocks := by
    rw [freeOne, free_of_block? designated]
    rfl
  rw [called, freed_concat, ← update_marked]
  cases done with
  | nil => rw [marked_nil]; rfl
  | cons q done =>
    have nodup : ((marked (q :: done) a.blocks).map (·.addr)).Nodup := by
      rw [addrs_marked]
      exact valid.nodup
    have merged := mergeLoop_update nodup (mem_marked listed kept) used fun b => { b with state := false }
    rw [← merged]
    rfl

theorem run_freeOne (valid : WellPlaced (· = ·) S a) (distinct : (done ++ rest).Nodup)
    (live : ∀ p ∈ rest, ∃ b, Designates a p b) :
    run freeOne (freed a done) rest = some (freed a (done ++ rest)) := by
  induction rest generalizing done with
  | nil => rw [run_nil, List.append_nil]
  | cons p rest ih =>
    obtain ⟨b, designates⟩ := live p List.mem_cons_self
    have kept : p ∉ done := fun member =>
      (List.nodup_append.mp distinct).2.2 p member p List.mem_cons_self rfl
    rw [run_cons, freeOne_freed valid designates kept, Option.bind_some,
      ih (by simpa using distinct) fun q member => live q (List.mem_cons_of_mem p member)]
    rw [List.append_assoc, List.singleton_append]

theorem freed_perm (perm : qs.Perm ps) : freed a qs = freed a ps := by
  have same (blocks : List MemoryBlock) : marked qs blocks = marked ps blocks :=
    List.map_congr_left fun b _ => by simp only [perm.mem_iff]
  cases qs with
  | nil => rw [perm.nil_eq]
  | cons q qs =>
    cases ps with
    | nil => exact absurd perm.symm.nil_eq (by simp)
    | cons p ps => rw [freed, freed, same]

/-- Pointers to different used blocks can be freed in any order, which leaves the same list of blocks. No
call takes the block away from a Pointer that is still to be freed. -/
theorem free_order (valid : WellPlaced (· = ·) S a) (distinct : ps.Nodup)
    (live : ∀ p ∈ ps, ∃ b, Designates a p b) (perm : qs.Perm ps) :
    (∃ t, run freeOne a ps = some t ∧ run freeOne a qs = some t) ∧
      ∀ done rest, qs = done ++ rest → ∃ t, run freeOne a done = some t ∧
        ∀ p ∈ rest, ∀ b, Designates a p b → Designates t p b := by
  have distinct' : qs.Nodup := perm.nodup_iff.mpr distinct
  have live' : ∀ p ∈ qs, ∃ b, Designates a p b := fun p member => live p (perm.mem_iff.mp member)
  refine ⟨⟨freed a ps, @run_freeOne S a [] _ valid distinct live, ?_⟩, ?_⟩
  · rw [← freed_perm perm]
    exact @run_freeOne S a [] _ valid distinct' live'
  · rintro done rest rfl
    refine ⟨freed a done, @run_freeOne S a [] _ valid (List.nodup_append.mp distinct').1 fun p member =>
      live' p (List.mem_append_left rest member), fun p member b designates => ?_⟩
    have kept : p ∉ done := fun earlier =>
      (List.nodup_append.mp distinct').2.2 p earlier p member rfl
    obtain ⟨listed, same⟩ := block?_eq_some (block?_freed valid designates kept)
    exact ⟨listed, designates.2⟩

/-- Two used blocks with a free one between them. -/
def pair : Allocator := ⟨fun _ => 0, [⟨0, 0, 3, true⟩, ⟨1, 3, 4, false⟩, ⟨2, 7, 3, true⟩], 3⟩

theorem free_order_pair :
    (∃ t, run freeOne pair [⟨some 0⟩, ⟨some 2⟩] = some t ∧ run freeOne pair [⟨some 2⟩, ⟨some 0⟩] = some t) ∧
      ∀ done rest, [⟨some 2⟩, ⟨some 0⟩] = done ++ rest → ∃ t, run freeOne pair done = some t ∧
        ∀ p ∈ rest, ∀ b, Designates pair p b → Designates t p b := by
  have valid : WellPlaced (· = ·) 10 pair := ⟨by simp [pair], by simp [pair], by decide, by decide⟩
  refine free_order valid (by decide) ?_ (.swap _ _ _)
  simp [Designates, pair]

end SphereMultithreading.Soundness.P1
