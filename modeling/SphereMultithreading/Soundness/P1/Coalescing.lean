import SphereMultithreading.Proofs.P1.Merging
import SphereMultithreading.Soundness.P1.Tiling

/-! # When merging leaves no two free neighbours

`merge_empty_blocks` takes a free block for the first of a run when nothing has been accumulated. That is
so behind empty blocks, too, which are then left in the list.
-/

namespace SphereMultithreading.Soundness.P1

open Machine Layout Model.P1 Model.P1.Allocator Proofs.P1

def Covers (b : MemoryBlock) (j : ℕ) : Prop := b.offset ≤ j ∧ j < b.offset + b.length

/-- What merging is for. -/
structure Coalesced (S : ℕ) (a t : Allocator) : Prop where
  apart : t.blocks.IsChain fun b c => ¬ (b.isFree = true ∧ c.isFree = true)
  used : t.blocks.filter (·.state) = a.blocks.filter (·.state)
  covered : ∀ j, (∃ b ∈ t.blocks, b.isFree = true ∧ Covers b j) ↔ ∃ b ∈ a.blocks, b.isFree = true ∧ Covers b j
  tiled : Tiled S t.blocks

/-- A run of several free blocks begins with one that is not empty. -/
def BeginsFull (run : List MemoryBlock) : Prop :=
  ∀ b c rest, run = b :: c :: rest → b.length ≠ 0

variable {S : ℕ} {a : Allocator} {first blocks : List MemoryBlock}

theorem covered_iff (placed : Placed (· = ·) 0 blocks S) (j : ℕ) :
    (∃ b ∈ blocks, b.isFree = true ∧ Covers b j) ↔ j < S ∧ ¬ ∃ b ∈ blocks.filter (·.state), Covers b j := by
  have ordered := placed.of_eq Placement.le
  constructor
  · rintro ⟨b, listed, free, covers⟩
    refine ⟨Nat.lt_of_lt_of_le covers.2 (ordered.bounds.2 b listed).2, ?_⟩
    rintro ⟨c, member, covers'⟩
    obtain ⟨listed', used⟩ := List.mem_filter.mp member
    obtain rfl := ordered.unique listed listed' covers covers'
    simp [MemoryBlock.isFree, used] at free
  · rintro ⟨below, uncovered⟩
    obtain ⟨b, listed, covers⟩ := placed.exists_of_lt (Nat.zero_le j) below
    refine ⟨b, listed, ?_, covers⟩
    by_contra used
    exact uncovered ⟨b, List.mem_filter.mpr ⟨listed, by simpa [MemoryBlock.isFree] using used⟩, covers⟩

/-- A run that begins with an empty block keeps it. -/
theorem isChain_run (free : ∀ b ∈ first, b.isFree = true) :
    (mergeLoop none 0 first).IsChain (fun b c => ¬ (b.isFree = true ∧ c.isFree = true)) ↔ BeginsFull first := by
  match first, free with
  | [], _ => simp [mergeLoop, closeRun, BeginsFull]
  | [b], free =>
    rw [mergeLoop_start (free b List.mem_cons_self)]
    simp [mergeLoop, closeRun, BeginsFull]
  | b :: c :: rest, free =>
    have freeB := free b List.mem_cons_self
    have freeC := free c (List.mem_cons_of_mem b List.mem_cons_self)
    have begins : BeginsFull (b :: c :: rest) ↔ b.length ≠ 0 := by
      simp [BeginsFull]
    rw [begins, mergeLoop_start freeB]
    rcases Nat.eq_zero_or_pos b.length with empty | full
    · obtain ⟨length, others, next⟩ := mergeLoop_some c c.length rest
      rw [empty, mergeLoop_start freeC, next]
      refine iff_of_false (fun chain => ?_) (by simp)
      exact (List.isChain_cons_cons.mp chain).1 ⟨freeB, freeC⟩
    · rw [mergeLoop_free full fun d member => free d (List.mem_cons_of_mem b member)]
      exact iff_of_true (List.isChain_singleton _) full.ne'

/-- Every run is merged for itself. -/
theorem isChain_mergeLoop (free : ∀ b ∈ first, b.isFree = true) :
    (mergeLoop none 0 (first ++ blocks)).IsChain (fun b c => ¬ (b.isFree = true ∧ c.isFree = true)) ↔
      ∀ run, IsStretch (fun b => b.isFree = true) run (first ++ blocks) → BeginsFull run := by
  induction blocks generalizing first with
  | nil =>
    rw [List.append_nil, isChain_run free]
    simp only [isStretch_of_all free, forall_eq]
  | cons b rest ih =>
    cases used : b.state with
    | false =>
      have freeB : b.isFree = true := by simp [MemoryBlock.isFree, used]
      rw [List.append_cons]
      exact ih (by simpa [or_imp, forall_and] using ⟨free, freeB⟩)
    | true =>
      have taken : ¬ b.isFree = true := by simp [MemoryBlock.isFree, used]
      have link : (b :: mergeLoop none 0 rest).IsChain (fun b c => ¬ (b.isFree = true ∧ c.isFree = true)) ↔
          (mergeLoop none 0 rest).IsChain (fun b c => ¬ (b.isFree = true ∧ c.isFree = true)) := by
        cases mergeLoop none 0 rest <;> simp [taken]
      have restarted : ∀ c ∈ ([] : List MemoryBlock), c.isFree = true := by simp
      rw [mergeLoop_used used, List.isChain_append, link, isChain_run free]
      simp only [isStretch_append_cons free taken, or_imp, forall_and, forall_eq]
      rw [← List.nil_append rest, ← ih restarted]
      refine and_congr_right fun _ => and_iff_left ?_
      simp [taken]

/-- Merging does what it is for exactly if no run of several free blocks begins with an empty one. -/
theorem coalesced_iff (valid : WellPlaced (· = ·) S a) :
    Coalesced S a a.mergeEmptyBlocks ↔
      ∀ run, IsStretch (fun b => b.isFree = true) run a.blocks → BeginsFull run := by
  have merged := valid.mergeEmptyBlocks Placement.eq
  have used : a.mergeEmptyBlocks.blocks.filter (·.state) = a.blocks.filter (·.state) :=
    used_mergeLoop (show OpenRun none 0 from rfl)
  have none : ∀ b ∈ ([] : List MemoryBlock), b.isFree = true := by simp
  rw [← List.nil_append a.blocks, ← isChain_mergeLoop none, List.nil_append]
  constructor
  · exact fun coalesced => coalesced.apart
  · refine fun apart => ⟨apart, used, fun j => ?_, (laid_eq_iff merged.nonempty).mp merged.placed⟩
    rw [covered_iff merged.placed, covered_iff valid.placed, used]

/-- `alloc(0)` and `free` of what it returned, before the blocks are merged. -/
def emptied : Allocator := released ((Allocator.new (fun _ => 0) 5).alloc 0).2 0

theorem emptied_valid : WellPlaced (· = ·) 5 emptied :=
  ((WellPlaced.new Placement.eq (fun _ => 0) 5).alloc Placement.eq 0).setState 0 false

theorem coalesced_iff_emptied :
    Coalesced 5 emptied emptied.mergeEmptyBlocks ↔
      ∀ run, IsStretch (fun b => b.isFree = true) run emptied.blocks → BeginsFull run :=
  coalesced_iff emptied_valid

/-- The empty block and the one behind it stay two. -/
theorem coalesced_fails :
    ¬ ∀ (S : ℕ) (a : Allocator), WellPlaced (· = ·) S a → Coalesced S a a.mergeEmptyBlocks := by
  intro coalesced
  exact absurd (coalesced 5 emptied emptied_valid).apart (by decide)

end SphereMultithreading.Soundness.P1
