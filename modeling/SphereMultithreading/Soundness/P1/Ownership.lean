import SphereMultithreading.Machine.Run
import SphereMultithreading.Proofs.P1.Owners

/-! # When live Pointers own their blocks exclusively

Two slips in `realloc` break ownership. Growing in place marks the block used and then, through
the iterator of the old block, which is the same node, free. And `find_block` looks for an offset
rather than a node, so behind an empty block at the same offset it resizes that one. `KeepsOwners`
excludes both. A run of calls goes through with exclusive ownership after every call exactly if
all its calls have this property.
-/

namespace SphereMultithreading.Soundness.P1

open Machine Layout Model.P1 Model.P1.Allocator Proofs.P1

/-- Every live Pointer designates a used block inside the buffer, of the length last requested;
different ones designate different blocks without a common byte; no used block is without one. -/
structure Exclusive (S : ℕ) (s : Session) : Prop where
  designates : ∀ h ∈ s.live, ∃ b ∈ s.allocator.blocks, h.pointer = ⟨some b.addr⟩ ∧
    b.state = true ∧ b.length = h.requested ∧ b.offset + b.length ≤ S
  disjoint : s.live.Pairwise fun h k => ∀ b ∈ s.allocator.blocks, ∀ c ∈ s.allocator.blocks,
    h.pointer = ⟨some b.addr⟩ → k.pointer = ⟨some c.addr⟩ →
      b ≠ c ∧ (b.offset + b.length ≤ c.offset ∨ c.offset + c.length ≤ b.offset)
  owned : ∀ b ∈ s.allocator.blocks, b.state = true → ∃ h ∈ s.live, h.pointer = ⟨some b.addr⟩

/-- A resized Pointer's block is the one `find_block` returns, and is not the first nonempty block
of the run it would grow into; or the call has nothing to do. -/
def KeepsOwners (s : Session) : Call → Prop
  | .free i => ∃ h b, Names s i h b
  | .realloc i N => ∃ h b own, Names s i h b ∧ s.allocator.findBlock b.offset = some own ∧
      ((own = b ∧ (b.length < N → ∀ fit after,
          fitting b.addr N [] s.allocator.blocks = some (fit, after) → leader fit ≠ some b.addr)) ∨
        (own ≠ b ∧ (N = 0 ∧ b.length = 0 ∨
          0 < N ∧ fitting own.addr N [] s.allocator.blocks = none)))
  | _ => True

/-- The invariant behind `Exclusive`: blocks in order, and live Pointers as the list calls for. -/
structure Owned (S : ℕ) (s : Session) : Prop where
  valid : WellPlaced (· ≤ ·) S s.allocator
  perm : s.live.Perm (owners s.allocator.blocks)

namespace Owned

variable {S : ℕ} {s t : Session} {call : Call}

theorem real (owned : Owned S s) : ∀ h ∈ s.live, h.pointer.pBlock.isSome := by
  intro h member
  obtain ⟨b, -, -, rfl⟩ := mem_owners.mp (owned.perm.mem_iff.mp member)
  rfl

theorem names (owned : Owned S s) {i : ℕ} {h : LivePointer} {b : MemoryBlock}
    (names : Names s i h b) : b.state = true ∧ h = owner b := by
  have member := owned.perm.mem_iff.mp (List.mem_of_getElem? names.live)
  obtain ⟨c, listed, used, rfl⟩ := mem_owners.mp member
  have same : c.addr = b.addr := by simpa [owner] using names.designates
  obtain rfl := eq_of_addr owned.valid.nodup listed names.listed same
  exact ⟨used, rfl⟩

/-- An earlier block at the offset of another one is empty. -/
theorem earlier_empty (owned : Owned S s) {b own : MemoryBlock}
    (listed : b ∈ s.allocator.blocks) (found : s.allocator.findBlock b.offset = some own)
    (apart : own ≠ b) : own.length = 0 := by
  obtain ⟨at_, pre, post, cut, front⟩ := List.find?_eq_some_iff_append.mp found
  have same : own.offset = b.offset := by simpa using at_
  have behind : b ∈ post := by
    rw [cut] at listed
    rcases List.mem_append.mp listed with inPre | inRest
    · simpa using front b inPre
    · exact (List.mem_cons.mp inRest).resolve_left (Ne.symm apart)
  have ordered := owned.valid.placed.pairwise
  rw [cut] at ordered
  have := (List.pairwise_cons.mp (List.pairwise_append.mp ordered).2.1).1 b behind
  omega

theorem exclusive (owned : Owned S s) : Exclusive S s where
  designates := by
    intro h member
    obtain ⟨b, listed, used, rfl⟩ := mem_owners.mp (owned.perm.mem_iff.mp member)
    exact ⟨b, listed, rfl, used, rfl, (owned.valid.placed.bounds.2 b listed).2⟩
  disjoint := by
    have symmetric : ∀ {h k : LivePointer},
        (∀ b ∈ s.allocator.blocks, ∀ c ∈ s.allocator.blocks,
          h.pointer = ⟨some b.addr⟩ → k.pointer = ⟨some c.addr⟩ →
          b ≠ c ∧ (b.offset + b.length ≤ c.offset ∨ c.offset + c.length ≤ b.offset)) →
        ∀ b ∈ s.allocator.blocks, ∀ c ∈ s.allocator.blocks,
          k.pointer = ⟨some b.addr⟩ → h.pointer = ⟨some c.addr⟩ →
          b ≠ c ∧ (b.offset + b.length ≤ c.offset ∨ c.offset + c.length ≤ b.offset) := by
      intro h k apart b hb c hc left right
      obtain ⟨different, far⟩ := apart c hc b hb right left
      exact ⟨different.symm, far.symm⟩
    rw [owned.perm.pairwise_iff symmetric, owners, List.pairwise_map]
    have distinct := List.pairwise_map.mp owned.valid.nodup
    refine ((owned.valid.placed.pairwise.and distinct).sublist List.filter_sublist).imp_of_mem ?_
    intro b c hb hc ordered b' hb' c' hc' left right
    have inList {d : MemoryBlock} (member : d ∈ s.allocator.blocks.filter (·.state)) :
        d ∈ s.allocator.blocks := (List.mem_filter.mp member).1
    obtain rfl := eq_of_addr owned.valid.nodup (inList hb) hb' (by simpa [owner] using left)
    obtain rfl := eq_of_addr owned.valid.nodup (inList hc) hc' (by simpa [owner] using right)
    exact ⟨fun same => ordered.2 (congrArg _ same), .inl ordered.1⟩
  owned := by
    intro b listed used
    exact ⟨owner b, owned.perm.mem_iff.mpr (mem_owners.mpr ⟨b, listed, used, rfl⟩), rfl⟩

/-- A live Pointer replaced by another, when the list calls for just that. -/
private theorem replaced (owned : Owned S s) {a : Allocator} {i : ℕ} {h h' : LivePointer}
    {b : MemoryBlock} (names : Names s i h b) (valid : WellPlaced (· ≤ ·) S a)
    (perm : (owners a.blocks).Perm (h' :: others b.addr (owners s.allocator.blocks))) :
    Owned S ⟨a, s.live.set i h'⟩ := by
  refine ⟨valid, (set_perm names.live h').trans (List.Perm.trans ?_ perm.symm)⟩
  exact (eraseIdx_perm owned.valid.nodup owned.perm names.live names.designates).cons h'

theorem kept (stepped : s.step call = some t) (owned : Owned S s)
    (keeps : KeepsOwners s call) : Owned S t := by
  have change := step_change owned.valid.nodup owned.real stepped
  have valid : WellPlaced (· ≤ ·) S t.allocator :=
    change.wellPlaced Placement.le owned.valid fun _ _ _ _ _ _ _ _ _ _ _ _ _ _ _ => by omega
  cases change with
  | alloc found | reallocNull found =>
    refine ⟨valid, (List.perm_append_singleton _ _).trans ?_⟩
    exact (owned.perm.cons _).trans (owners_alloc found).symm
  | free names =>
    refine ⟨valid, ?_⟩
    rw [owners_mergeEmptyBlocks, released, owners_update_free]
    exact eraseIdx_perm owned.valid.nodup owned.perm names.live names.designates
  | defrag => exact ⟨valid, by rw [owners_defrag]; exact owned.perm⟩
  | allocFails | freeNull | reallocNullFails | reallocFails => exact owned
  | @same i N h b own names found equal =>
    obtain ⟨h', b', own', names', found', choice⟩ := keeps
    obtain rfl := Option.some.inj (names.live.symm.trans names'.live)
    obtain rfl := eq_of_addr owned.valid.nodup names.listed names'.listed
      (by simpa [names.designates] using names'.designates)
    obtain rfl := Option.some.inj (found.symm.trans found')
    have unchanged : N = b.length := by
      rcases choice with ⟨rfl, -⟩ | ⟨apart, ⟨rfl, empty⟩ | ⟨positive, -⟩⟩
      · exact equal.symm
      · exact empty.symm
      · have := owned.earlier_empty names.listed found apart
        omega
    have entry : (⟨h.pointer, N⟩ : LivePointer) = h := by
      obtain ⟨-, rfl⟩ := owned.names names
      rw [unchanged]
      rfl
    obtain ⟨bound, at_⟩ := List.getElem?_eq_some_iff.mp names.live
    rw [entry, ← at_, List.set_getElem_self bound]
    exact owned
  | @shrink i N h b own names found longer =>
    have same : own = b := by
      by_contra apart
      have := owned.earlier_empty names.listed found apart
      omega
    subst same
    refine owned.replaced names valid ?_
    rw [owners_mergeEmptyBlocks, names.designates]
    exact owners_shrink owned.valid.nodup names.listed (owned.names names).1
  | @grow i N h b own lead fit pre mid after names found shorter fits leads cut joins enough =>
    obtain ⟨h', b', own', names', found', choice⟩ := keeps
    obtain rfl := Option.some.inj (names.live.symm.trans names'.live)
    obtain rfl := eq_of_addr owned.valid.nodup names.listed names'.listed
      (by simpa [names.designates] using names'.designates)
    obtain rfl := Option.some.inj (found.symm.trans found')
    rcases choice with ⟨rfl, elsewhere⟩ | ⟨apart, ⟨rfl, -⟩ | ⟨-, none⟩⟩
    · refine owned.replaced names valid ?_
      rw [owners_mergeEmptyBlocks]
      refine owners_grow owned.valid.nodup cut joins (fun same => ?_) _
      exact elsewhere shorter fit after fits (same ▸ leads)
    · omega
    · rw [fits] at none
      contradiction

/-- A block that the growing branch resizes in the place of the named one takes its Pointer. -/
private theorem orphaned (owned : Owned S s) {i N : ℕ} {h : LivePointer}
    {b own lead : MemoryBlock} {pre mid after : List MemoryBlock} (names : Names s i h b)
    (listed : own ∈ s.allocator.blocks) (different : own ≠ b)
    (cut : s.allocator.blocks = pre ++ lead :: (mid ++ after))
    (joins : ∀ c ∈ lead :: mid, Joins own.addr c) (n : ℕ) :
    owner b ∈ owners (s.allocator.grow own lead n N).blocks ∧
      ∀ k ∈ s.live.set i ⟨⟨some lead.addr⟩, N⟩, k.pointer ≠ ⟨some b.addr⟩ := by
  have used := (owned.names names).1
  have apart : b.addr ≠ own.addr := fun same =>
    different (eq_of_addr owned.valid.nodup listed names.listed same.symm)
  have outside : ∀ c ∈ lead :: mid, c ≠ b := by
    rintro c member rfl
    simpa [Joins, MemoryBlock.isFree, used, apart] using joins c member
  have elsewhere : lead.addr ≠ b.addr := fun same =>
    outside lead List.mem_cons_self
      (eq_of_addr owned.valid.nodup (by rw [cut]; simp) names.listed same)
  refine ⟨?_, ?_⟩
  · have kept : owner b ∈ others own.addr (owners s.allocator.blocks) :=
      List.mem_filter.mpr ⟨mem_owners.mpr ⟨b, names.listed, used, rfl⟩, by simpa [owner] using apart⟩
    by_cases same : lead.addr = own.addr
    · rw [owners_grow_inPlace owned.valid.nodup cut joins same]
      exact kept
    · exact (owners_grow owned.valid.nodup cut joins same n).mem_iff.mpr (List.mem_cons_of_mem _ kept)
  · intro k member
    rcases List.mem_cons.mp ((set_perm names.live _).mem_iff.mp member) with rfl | rest
    · simpa using elsewhere
    · have perm := eraseIdx_perm owned.valid.nodup owned.perm names.live names.designates
      simpa using (List.mem_filter.mp (perm.mem_iff.mp rest)).2

private theorem keeps (stepped : s.step call = some t) (owned : Owned S s)
    (exclusive : Exclusive S t) : KeepsOwners s call := by
  have change := step_change owned.valid.nodup owned.real stepped
  cases change with
  | alloc | allocFails | defrag | freeNull | reallocNull | reallocNullFails => trivial
  | free names => exact ⟨_, _, names⟩
  | @same i N h b own names found equal =>
    refine ⟨h, b, own, names, found, ?_⟩
    by_cases same : own = b
    · exact .inl ⟨same, fun longer => absurd (same ▸ equal) (by omega)⟩
    · have empty := owned.earlier_empty names.listed found same
      have member : (⟨h.pointer, N⟩ : LivePointer) ∈ s.live.set i ⟨h.pointer, N⟩ :=
        (set_perm names.live _).mem_iff.mpr List.mem_cons_self
      obtain ⟨c, listed, designates, -, length, -⟩ := exclusive.designates _ member
      obtain rfl := eq_of_addr owned.valid.nodup names.listed listed
        (by simpa [names.designates] using designates)
      exact .inr ⟨same, .inl ⟨by omega, by dsimp only at length; omega⟩⟩
  | @shrink i N h b own names found longer =>
    refine ⟨h, b, own, names, found, .inl ?_⟩
    have same : own = b := by
      by_contra apart
      have := owned.earlier_empty names.listed found apart
      omega
    exact ⟨same, fun shorter => absurd (same ▸ longer) (by omega)⟩
  | @reallocFails i N h b own names found shorter none =>
    refine ⟨h, b, own, names, found, ?_⟩
    by_cases same : own = b
    · subst same
      refine .inl ⟨rfl, fun _ fit after fits => ?_⟩
      rw [none] at fits
      contradiction
    · exact .inr ⟨same, .inr ⟨by omega, none⟩⟩
  | @grow i N h b own lead fit pre mid after names found shorter fits leads cut joins enough =>
    refine ⟨h, b, own, names, found, ?_⟩
    by_cases same : own = b
    · subst same
      refine .inl ⟨rfl, fun _ fit' after' fits' inPlace => ?_⟩
      obtain ⟨rfl, rfl⟩ : fit' = fit ∧ after' = after := by simpa [fits, eq_comm] using fits'
      have here : lead.addr = own.addr := Option.some.inj (leads.symm.trans inPlace)
      have member : (⟨⟨some lead.addr⟩, N⟩ : LivePointer) ∈ s.live.set i ⟨⟨some lead.addr⟩, N⟩ :=
        (set_perm names.live _).mem_iff.mpr List.mem_cons_self
      obtain ⟨c, listed, designates, used, -⟩ := exclusive.designates _ member
      have inOwners := mem_owners.mpr ⟨c, listed, used, rfl⟩
      rw [owners_mergeEmptyBlocks,
        owners_grow_inPlace owned.valid.nodup cut joins here] at inOwners
      have away := (List.mem_filter.mp inOwners).2
      rw [here] at designates
      simp [owner, ← designates] at away
    · -- the named block stays marked used, but its only Pointer now designates the grown block
      obtain ⟨still, gone⟩ := owned.orphaned names (List.mem_of_find?_eq_some found) same cut joins
        (lead.length + total mid) (N := N)
      rw [← owners_mergeEmptyBlocks] at still
      obtain ⟨c, listed, used, sameOwner⟩ := mem_owners.mp still
      obtain ⟨k, live, designates⟩ := exclusive.owned c listed used
      refine absurd ?_ (gone k live)
      rw [designates]
      exact congrArg LivePointer.pointer sameOwner

end Owned

/-- A sequence of calls goes through, with every live Pointer owning its block after each of them,
exactly if no call resizes another block than the named one or grows one in place. -/
theorem live_exclusive_iff (buffer : ℕ → UInt8) (S : ℕ) (calls : List Call) :
    ((∃ s, run Session.step (.new buffer S) calls = some s) ∧
      Throughout Session.step (Exclusive S) (.new buffer S) calls) ↔
    Guarded Session.step KeepsOwners (.new buffer S) calls := by
  have initial : Owned S (.new buffer S) :=
    ⟨.new Placement.le buffer S, by simp [Session.new, Allocator.new, owners, MemoryBlock.new]⟩
  constructor
  · rintro ⟨⟨s, success⟩, exclusive⟩
    exact (throughout_iff_guarded (fun _ owned => Owned.exclusive owned)
      (fun _ _ _ stepped owned keeps => owned.kept stepped keeps)
      (fun _ _ _ stepped owned exclusive => owned.keeps stepped exclusive) success initial).mp
      exclusive
  · intro guarded
    have progress : ∀ s call, Owned S s → KeepsOwners s call →
        ∃ t, s.step call = some t ∧ Owned S t := by
      intro s call owned keeps
      obtain ⟨t, stepped⟩ : ∃ t, s.step call = some t := step_defined owned.valid.nodup (by
        rintro i N (rfl | rfl)
        · exact keeps
        · obtain ⟨h, b, own, names, -⟩ := keeps
          exact ⟨h, b, names⟩)
      exact ⟨t, stepped, owned.kept stepped keeps⟩
    obtain ⟨reached, visited⟩ := run_of_guarded progress guarded initial
    exact ⟨reached, visited.imp fun _ owned => owned.exclusive⟩

/-- A block grown in place is marked free, although its Pointer stays live. -/
theorem live_exclusive_fails :
    ¬ ∀ (buffer : ℕ → UInt8) (S : ℕ) (calls : List Call) (s : Session),
      run Session.step (.new buffer S) calls = some s → Exclusive S s := by
  intro holds
  have exclusive := holds (fun _ => 0) 1000 [.alloc 135, .realloc 0 270] _ rfl
  exact absurd (exclusive.designates ⟨⟨some 0⟩, 270⟩ (by decide)) (by decide)

end SphereMultithreading.Soundness.P1
