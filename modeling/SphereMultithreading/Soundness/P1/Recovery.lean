import SphereMultithreading.Proofs.P1.Merging
import SphereMultithreading.Soundness.P1.Compaction
import SphereMultithreading.Soundness.P1.Ownership

/-! # What is left when all is freed

Freeing the last live Pointer merges all there is into one block, up to empty ones in front of it. The
whole buffer can be handed out again, however it was divided before.
-/

namespace SphereMultithreading.Soundness.P1

open Machine Layout Model.P1 Model.P1.Allocator Proofs.P1

/-- The call neither takes a block from its Pointer nor loses bytes. -/
def KeepsAll (s : Session) (call : Call) : Prop := KeepsOwners s call ∧ KeepsBytes s call

theorem keepsAll_free {s : Session} {i : ℕ} {h : LivePointer} {b : MemoryBlock} (names : Names s i h b) :
    KeepsAll s (.free i) := ⟨⟨h, b, names⟩, ⟨h, b, names⟩⟩

/-- One free block is as long as the buffer. -/
def Whole (S : ℕ) (a : Allocator) : Prop := ∃ b ∈ a.blocks, b.isFree = true ∧ b.length = S

variable {S : ℕ} {a : Allocator} {blocks : List MemoryBlock}

theorem whole_mergeLoop_some {p : MemoryBlock} {lengthTotal : ℕ} (free : p.isFree = true)
    (others : ∀ b ∈ blocks, b.isFree = true) : ∃ b ∈ mergeLoop (some p) lengthTotal blocks,
      b.isFree = true ∧ b.length = lengthTotal + total blocks := by
  induction blocks generalizing p lengthTotal with
  | nil => exact ⟨{ p with length := lengthTotal }, List.mem_singleton_self _, free, rfl⟩
  | cons b rest ih =>
    have here := others b List.mem_cons_self
    have behind : ∀ c ∈ rest, c.isFree = true := fun c member => others c (List.mem_cons_of_mem b member)
    rw [mergeLoop, if_pos here, total_cons, ← Nat.add_assoc]
    split
    · obtain ⟨c, listed, whole⟩ := ih here behind
      exact ⟨c, List.mem_append_right _ listed, whole⟩
    · exact ih free behind

/-- Free blocks are merged into one of all their lengths. -/
theorem whole_mergeLoop (nonempty : blocks ≠ []) (free : ∀ b ∈ blocks, b.isFree = true) :
    ∃ b ∈ mergeLoop none 0 blocks, b.isFree = true ∧ b.length = total blocks := by
  obtain ⟨b, rest, rfl⟩ := List.exists_cons_of_ne_nil nonempty
  rw [List.forall_mem_cons] at free
  rw [mergeLoop_start free.1, total_cons]
  exact whole_mergeLoop_some free.1 free.2

theorem free_of_owners (none : owners blocks = []) : ∀ b ∈ blocks, b.isFree = true := by
  intro b listed
  rw [owners, List.map_eq_nil_iff, List.filter_eq_nil_iff] at none
  simpa [MemoryBlock.isFree] using none b listed

theorem total_eq (valid : WellPlaced (· = ·) S a) : total a.blocks = S := by
  have sum := valid.placed.rel_sum Placement.eq
  rwa [Nat.zero_add] at sum

/-- The whole buffer is free when no Pointer is live. -/
structure Recovers (S : ℕ) (s : Session) : Prop where
  owned : Owned S s
  accounted : Accounted S s
  whole : s.live = [] → Whole S s.allocator

theorem recovers_new (buffer : ℕ → UInt8) (S : ℕ) : Recovers S (.new buffer S) where
  owned := ⟨.new Placement.le buffer S, by simp [Session.new, Allocator.new, owners, MemoryBlock.new]⟩
  accounted := ⟨.new Placement.eq buffer S, by simp [Session.new]⟩
  whole := fun _ => ⟨.new 0 0 S, List.mem_singleton_self _, rfl, rfl⟩

theorem recovers_step {s t : Session} {call : Call} (stepped : s.step call = some t)
    (recovers : Recovers S s) (keeps : KeepsAll s call) : Recovers S t := by
  obtain ⟨owned, accounted, whole⟩ := recovers
  have owned' := owned.kept stepped keeps.1
  have accounted' := accounted.kept stepped keeps.2
  refine ⟨owned', accounted', fun nothing => ?_⟩
  have change := step_change accounted.valid.nodup accounted.real stepped
  have unowned : owners t.allocator.blocks = [] := by
    have perm := owned'.perm
    rwa [nothing, List.nil_perm] at perm
  cases change with
  | alloc | reallocNull => simp at nothing
  | same names | shrink names | grow names =>
    have bound := (List.getElem?_eq_some_iff.mp names.live).1
    have none := congrArg List.length nothing
    rw [List.length_set, List.length_nil] at none
    omega
  | allocFails | reallocNullFails | reallocFails | freeNull => exact whole nothing
  | @free i h b names =>
    have valid := accounted.valid.setState b.addr false
    rw [owners_mergeEmptyBlocks] at unowned
    obtain ⟨c, listed, free, length⟩ := whole_mergeLoop valid.nonempty (free_of_owners unowned)
    exact ⟨c, listed, free, length.trans (total_eq valid)⟩
  | defrag =>
    rw [owners_defrag] at unowned
    have free := List.filter_eq_self.mpr (free_of_owners unowned)
    refine ⟨_, by rw [defrag_blocks]; exact List.mem_append_right _ (List.mem_singleton_self _), rfl, ?_⟩
    change total (s.allocator.blocks.filter (·.isFree)) = S
    rw [free]
    exact total_eq accounted.valid

theorem Recovers.alloc_iff {s : Session} (recovers : Recovers S s) (nothing : s.live = []) (N : ℕ) :
    (∃ p, (s.allocator.alloc N).1 = .ok p) ↔ N ≤ S := by
  rw [alloc_ok_iff]
  constructor
  · rintro ⟨b, listed, -, enough⟩
    have inside := (recovers.owned.valid.placed.bounds.2 b listed).2
    omega
  · intro enough
    obtain ⟨b, listed, free, length⟩ := recovers.whole nothing
    exact ⟨b, listed, free, length ▸ enough⟩

/-- Whenever no Pointer is live, `alloc` hands out all that fits in the buffer. -/
theorem buffer_recovered (buffer : ℕ → UInt8) (S : ℕ) {calls : List Call}
    (keeps : Guarded Session.step KeepsAll (.new buffer S) calls) :
    Throughout Session.step (fun s => s.live = [] → ∀ N, (∃ p, (s.allocator.alloc N).1 = .ok p) ↔ N ≤ S)
      (.new buffer S) calls :=
  throughout_of_guarded (fun _ recovers nothing => recovers.alloc_iff nothing)
    (fun _ _ _ stepped recovers keeps => recovers_step stepped recovers keeps) keeps
    (recovers_new buffer S)

/-- Three blocks are freed, the middle one last. -/
theorem buffer_recovered_three :
    Throughout Session.step (fun s => s.live = [] → ∀ N, (∃ p, (s.allocator.alloc N).1 = .ok p) ↔ N ≤ 9)
      (.new (fun _ => 0) 9) [.alloc 3, .alloc 0, .alloc 2, .free 0, .free 1, .free 0] := by
  apply buffer_recovered
  refine ⟨⟨trivial, trivial⟩, fun s stepped => ?_⟩
  obtain rfl := Option.some.inj stepped
  refine ⟨⟨trivial, trivial⟩, fun s stepped => ?_⟩
  obtain rfl := Option.some.inj stepped
  refine ⟨⟨trivial, trivial⟩, fun s stepped => ?_⟩
  obtain rfl := Option.some.inj stepped
  refine ⟨keepsAll_free ⟨rfl, List.mem_cons_self, rfl⟩, fun s stepped => ?_⟩
  obtain rfl := Option.some.inj stepped
  refine ⟨keepsAll_free ⟨rfl, List.mem_cons_of_mem _ (List.mem_cons_of_mem _ List.mem_cons_self), rfl⟩,
    fun s stepped => ?_⟩
  obtain rfl := Option.some.inj stepped
  exact ⟨keepsAll_free ⟨rfl, List.mem_cons_of_mem _ List.mem_cons_self, rfl⟩, fun _ _ => trivial⟩

end SphereMultithreading.Soundness.P1
