import SphereMultithreading.Proofs.P1.Lookup

/-! # Which nodes growing leaves to be found

The run that `realloc` merges begins with empty blocks, so neither its first nonempty block nor what is
in front of that one has room before it. Of the blocks that join the resized one all behind the first
go. Where the run fits exactly, an empty block is put in front of what follows it, and stays when the
block moves.
-/

namespace SphereMultithreading.Proofs.P1

open Machine Model.P1 Model.P1.Allocator Layout

variable {a : Allocator} {own lead c : MemoryBlock} {pre mid after fit : List MemoryBlock} {N S : ℕ}

/-- In front of the first nonempty block of the run there is no room. -/
theorem RunAt.room_eq_zero {blocks : List MemoryBlock} {own : ℕ}
    (run : RunAt blocks own lead pre mid after) : room (Joins own) 0 pre = 0 := by
  obtain ⟨before, empties, rfl, began, empty⟩ := run.began
  rw [room_append, room_of_stop began, room_of_empty empty]

theorem RunAt.joins_mid {blocks : List MemoryBlock} {own : ℕ}
    (run : RunAt blocks own lead pre mid after) : ∀ c ∈ mid, Joins own c :=
  fun c member => run.joins c (List.mem_cons_of_mem lead member)

theorem RunAt.sublist {blocks : List MemoryBlock} {own : ℕ}
    (run : RunAt blocks own lead pre mid after) :
    (pre ++ [lead] ++ after.filter (fun c => ¬ Joins own c)).Sublist blocks := by
  rw [run.cut, List.append_assoc, List.singleton_append]
  exact (List.Sublist.refl pre).append
    ((List.filter_sublist.trans (List.sublist_append_right _ _)).cons_cons lead)

section Grow

variable (valid : WellPlaced (· ≤ ·) S a) (run : RunAt a.blocks own.addr lead pre mid after)
  (enough : N ≤ lead.length + total mid)
include valid run

theorem offset_before (inFront : c ∈ pre) : c.offset ≤ lead.offset := by
  have ordered := valid.placed.pairwise
  rw [run.cut] at ordered
  have := (List.pairwise_append.mp ordered).2.2 c inFront lead List.mem_cons_self
  omega

theorem offset_behind (inAfter : c ∈ after) : lead.offset + (lead.length + total mid) ≤ c.offset := by
  have placed := valid.placed
  rw [run.cut] at placed
  obtain ⟨-, -, -, behind⟩ := (laid_append Placement.le).mp placed
  obtain ⟨stop, inRun, rest⟩ := (laid_append Placement.le).mp behind
  have inside : lead.offset + lead.length + total mid ≤ stop := inRun.rel_sum Placement.le
  have := (rest.bounds.2 c inAfter).1
  omega

theorem blocks_grow (n : ℕ) : (a.grow own lead n N).blocks =
    update own.addr (fun b => { b with state := false }) pre ++
      { lead with length := N, state := decide (lead.addr ≠ own.addr) } ::
      .new a.nextAddr (lead.offset + N) (n - N) :: after.filter (fun c => ¬ Joins own.addr c) :=
  grow_blocks valid.nodup run.cut run.joins_mid n

/-- The nodes that are not merged. -/
theorem places_grow (n : ℕ) : places (a.grow own lead n N).blocks =
    places (pre ++ [lead] ++ .new a.nextAddr (lead.offset + N) (n - N) ::
      after.filter (fun c => ¬ Joins own.addr c)) := by
  rw [blocks_grow valid run, places_append, places_update_state]
  simp

/-- Up to the merging at its end, growing hides a node only behind the part it cuts off. -/
theorem leads_places_grow (n : ℕ)
    (stays : c ∈ pre ++ [lead] ++ after.filter (fun c => ¬ Joins own.addr c))
    (apart : c ∈ after → lead.offset + N ≠ c.offset) (leads : Leads (places a.blocks) c.addr) :
    Leads (places (a.grow own lead n N).blocks) c.addr := by
  have sub := run.sublist
  rw [places_grow valid run]
  refine leads_insert (leads_of_sublist valid.nodup leads (sub.map place) stays)
    fun d inAfter same => ?_
  obtain rfl := eq_of_addr valid.nodup (sub.subset (List.mem_append_right _ inAfter))
    (sub.subset stays) same
  exact apart (List.mem_filter.mp inAfter).1

/-- A node that joins the resized one behind the first of the run goes. -/
theorem gone_of_grow (listed : c ∈ a.blocks) (gone : c ∈ mid ∨ c ∈ after ∧ Joins own.addr c) (n : ℕ) :
    ¬ Leads (places (a.grow own lead n N).mergeEmptyBlocks.blocks) c.addr := by
  intro leads
  have stays := ((places_mergeLoop _).map Prod.fst).subset leads.mem
  rw [places_grow valid run, map_fst_places] at stays
  obtain ⟨d, member, same⟩ := List.mem_map.mp stays
  have kept : c ∈ pre ++ [lead] ++ after.filter (fun c => ¬ Joins own.addr c) := by
    rcases List.mem_append.mp member with inFront | inRest
    · have inKept := List.mem_append_left (after.filter fun c => ¬ Joins own.addr c) inFront
      exact eq_of_addr valid.nodup (run.sublist.subset inKept) listed same ▸ inKept
    · rcases List.mem_cons.mp inRest with rfl | inAfter
      · exact absurd (valid.fresh c listed) (same ▸ Nat.lt_irrefl _)
      · have inKept := List.mem_append_right (pre ++ [lead]) inAfter
        exact eq_of_addr valid.nodup (run.sublist.subset inKept) listed same ▸ inKept
  have distinct := valid.nodup.of_map
  rw [run.cut, ← List.singleton_append, ← List.append_assoc] at distinct
  have apart := List.disjoint_of_nodup_append distinct
  rcases List.mem_append.mp kept with inFront | inAfter
  · rcases gone with inMid | ⟨inAfter, -⟩
    · exact apart inFront (List.mem_append_left _ inMid)
    · exact apart inFront (List.mem_append_right _ inAfter)
  · have foreign : ¬ Joins own.addr c := by simpa using (List.mem_filter.mp inAfter).2
    rcases gone with inMid | ⟨-, joins⟩
    · exact foreign (run.joins_mid c inMid)
    · exact foreign joins

/-- Where the block is cut to size in place, an empty rest is merged away again. -/
theorem merge_grow_inPlace (same : lead = own) (positive : 0 < N)
    (exact : lead.length + total mid = N) :
    (a.grow own lead (lead.length + total mid) N).mergeEmptyBlocks.blocks =
      mergeLoop none 0 (update own.addr (fun b => { b with state := false }) pre ++
        { lead with length := N, state := false } :: after.filter (fun c => ¬ Joins own.addr c)) := by
  rw [mergeEmptyBlocks, blocks_grow valid run, exact, Nat.sub_self, decide_eq_false (by simp [same])]
  exact mergeLoop_congr (fun _ _ => mergeLoop_skip rfl positive rfl rfl) none 0 _

include enough

theorem nodup_grow :
    ((a.grow own lead (lead.length + total mid) N).blocks.map (·.addr)).Nodup :=
  (valid.grow Placement.le run.cut run.joins_mid enough fun _ _ _ => Nat.le_add_right _ _).nodup

/-- In front of the run, what merging leaves is what it would leave with the resized block free. -/
theorem leads_grow_front_iff (positive : 0 < N) (inFront : c ∈ pre)
    (leads : Leads (places a.blocks) c.addr) :
    Leads (places (a.grow own lead (lead.length + total mid) N).mergeEmptyBlocks.blocks) c.addr ↔
      (Joins own.addr c → ¬ BehindRoom (Joins own.addr) a.blocks c) := by
  have leads' := leads_places_grow valid run (N := N) (lead.length + total mid) (by simp [inFront])
    (fun _ => by have := offset_before valid run inFront; omega) leads
  have nodup' := nodup_grow valid run enough
  have nodup := valid.nodup
  have grown := blocks_grow valid run (N := N) (lead.length + total mid)
  have cut := run.cut
  obtain ⟨front, rest, rfl⟩ := List.append_of_mem inFront
  rw [update_append_cons, List.append_assoc, List.cons_append] at grown
  rw [List.append_assoc, List.cons_append] at cut
  rw [grown] at nodup' leads'
  rw [← addr_cleared own.addr c] at leads' ⊢
  rw [mergeEmptyBlocks, grown, cut, ← isFree_cleared]
  exact leads_mergeLoop_iff (cut ▸ nodup) nodup' leads' (by rw [room_update])

/-- The first nonempty block of the run stays. -/
theorem leads_grow_lead (positive : 0 < N) (leads : Leads (places a.blocks) lead.addr) :
    Leads (places (a.grow own lead (lead.length + total mid) N).mergeEmptyBlocks.blocks) lead.addr := by
  have leads' := leads_places_grow valid run (N := N) (lead.length + total mid) (c := lead) (by simp)
    (fun _ => by omega) leads
  have nodup' := nodup_grow valid run enough
  have nodup := valid.nodup
  have grown := blocks_grow valid run (N := N) (lead.length + total mid)
  rw [run.cut] at nodup
  rw [grown] at nodup' leads'
  rw [mergeEmptyBlocks, grown]
  have same :
      0 < room (fun b => b.isFree) 0 (update own.addr (fun b => { b with state := false }) pre) ↔
        0 < room (Joins own.addr) 0 pre := by rw [room_update]
  refine (leads_mergeLoop_iff nodup nodup' leads' same).mpr ?_
  rw [behindRoom_append_cons nodup, run.room_eq_zero]
  exact fun _ => Nat.lt_irrefl 0

/-- Where the block moves, an empty rest stays. -/
theorem rest_of_grow (moved : lead.addr ≠ own.addr) :
    (a.nextAddr, lead.offset + N) ∈
      places (a.grow own lead (lead.length + total mid) N).mergeEmptyBlocks.blocks := by
  have nodup := nodup_grow valid run enough
  have grown := blocks_grow valid run (N := N) (lead.length + total mid)
  rw [List.append_cons] at grown
  rw [grown] at nodup
  rw [mergeEmptyBlocks, grown]
  exact mem_places_mergeLoop nodup fun _ => room_of_stop (by simp [MemoryBlock.isFree, moved])

/-- The empty rest of a run that fits exactly stays where the block moves, and hides what follows. -/
theorem leads_grow_after_iff (positive : 0 < N) (present : own ∈ a.blocks) (inAfter : c ∈ after)
    (foreign : ¬ Joins own.addr c) (leads : Leads (places a.blocks) c.addr) :
    Leads (places (a.grow own lead (lead.length + total mid) N).mergeEmptyBlocks.blocks) c.addr ↔
      (lead ≠ own → lead.length + total mid = N → c.offset ≠ lead.offset + N) := by
  have used : c.state = true := by
    have := mt Or.inl foreign
    simpa [MemoryBlock.isFree] using this
  have inKept : c ∈ after.filter (fun c => ¬ Joins own.addr c) :=
    List.mem_filter.mpr ⟨inAfter, by simpa using foreign⟩
  have nodup' := nodup_grow valid run enough
  have grown := blocks_grow valid run (N := N) (lead.length + total mid)
  have behind := offset_behind valid run inAfter
  rcases eq_or_ne c.offset (lead.offset + N) with same | apart
  · rcases eq_or_ne lead own with here | moved
    · refine iff_of_true ?_ fun moved => absurd here moved
      rw [merge_grow_inPlace valid run here positive (by omega)]
      have spots : places (update own.addr (fun b => { b with state := false }) pre ++
          { lead with length := N, state := false } :: after.filter (fun c => ¬ Joins own.addr c)) =
          places (pre ++ [lead] ++ after.filter (fun c => ¬ Joins own.addr c)) := by
        rw [places_append, places_update_state]
        simp
      have nodup := valid.nodup
      refine leads_mergeLoop_used ?_ ?_ used ?_
      · rw [← map_fst_places, spots, map_fst_places]
        exact nodup.sublist (run.sublist.map _)
      · exact List.mem_append_right _ (List.mem_cons_of_mem _ inKept)
      · rw [spots]
        exact leads_of_sublist nodup leads (run.sublist.map place) (List.mem_append_right _ inKept)
    · refine iff_of_false (fun leads => ?_) fun apart => apart moved (by omega) same
      have stays := rest_of_grow valid run enough fun here => moved
        (eq_of_addr valid.nodup (by rw [run.cut]; simp) present here)
      obtain ⟨front, rest, cut, before⟩ : ∃ front rest,
          (a.grow own lead (lead.length + total mid) N).blocks = front ++ c :: rest ∧
            (a.nextAddr, lead.offset + N) ∈ places front := by
        obtain ⟨front, rest, cut⟩ := List.append_of_mem inKept
        refine ⟨update own.addr (fun b => { b with state := false }) pre ++
          { lead with length := N, state := decide (lead.addr ≠ own.addr) } ::
          .new a.nextAddr (lead.offset + N) (lead.length + total mid - N) :: front, rest, ?_, ?_⟩
        · rw [grown, cut, List.append_assoc, List.cons_append, List.cons_append]
        · simp [MemoryBlock.new]
      rw [mergeEmptyBlocks, cut] at leads stays
      have sub := places_mergeLoop (front ++ c :: rest)
      rw [← map_fst_places, cut, places_append, places_cons] at nodup'
      rw [places_append, places_cons] at sub
      exact leads.ne_of_mem nodup' sub before stays same.symm
  · refine iff_of_true ?_ fun _ _ => apart
    refine leads_mergeLoop_used nodup' ?_ used (leads_places_grow valid run _
      (List.mem_append_right _ inKept) (fun _ => apart.symm) leads)
    rw [grown]
    exact List.mem_append_right _ (List.mem_cons_of_mem _ (List.mem_cons_of_mem _ inKept))

/-- What has no room before it stays in front of the run. -/
theorem stays_of_grow {front rest : List MemoryBlock} (cut : pre = front ++ c :: rest)
    (idle : Joins own.addr c → room (Joins own.addr) 0 front = 0) :
    (c.addr, c.offset) ∈
      places (a.grow own lead (lead.length + total mid) N).mergeEmptyBlocks.blocks := by
  have nodup := nodup_grow valid run enough
  have grown := blocks_grow valid run (N := N) (lead.length + total mid)
  rw [cut, update_append_cons, List.append_assoc, List.cons_append] at grown
  rw [grown] at nodup
  rw [mergeEmptyBlocks, grown, ← addr_cleared own.addr c, ← offset_cleared own.addr c]
  refine mem_places_mergeLoop nodup fun free => (room_update own.addr 0 front).trans (idle ?_)
  exact (isFree_cleared own.addr c).mp free

/-- One of the blocks that hide the run's first nonempty block stays: either an empty one of the run or
the last in front of the run. -/
theorem stays_of_hidden (hidden : Hidden a.blocks lead) :
    ∃ c ∈ pre, c.offset = lead.offset ∧ (c.addr, c.offset) ∈
      places (a.grow own lead (lead.length + total mid) N).mergeEmptyBlocks.blocks := by
  obtain ⟨front, rest, cut, e, inFront, same⟩ := hidden
  have nodup := valid.nodup
  have ordered := valid.placed.pairwise
  rw [run.cut] at cut nodup ordered
  obtain ⟨rfl, -⟩ := cut_unique nodup cut
  obtain ⟨before, empties, split, began, empty⟩ := run.began
  rcases List.mem_append.mp (split ▸ inFront) with inBefore | inEmpties
  · rcases List.eq_nil_or_concat before with rfl | ⟨init, d, rfl⟩
    · cases inBefore
    rw [List.concat_eq_append, List.append_assoc, List.singleton_append] at split
    have inPre : d ∈ pre := by simp [split]
    refine ⟨d, inPre, ?_, stays_of_grow valid run enough split fun joins => ?_⟩
    · have := offset_before valid run inPre
      rcases List.mem_append.mp (List.concat_eq_append ▸ inBefore) with inInit | last
      · rw [split] at ordered
        have := (List.pairwise_append.mp (List.pairwise_append.mp ordered).1).2.2 e inInit d
          List.mem_cons_self
        omega
      · obtain rfl := List.mem_singleton.mp last
        exact same
    · exact absurd joins (began d (by simp))
  · obtain ⟨init, tail, rfl⟩ := List.append_of_mem inEmpties
    rw [← List.append_assoc] at split
    refine ⟨e, inFront, same, stays_of_grow valid run enough split fun _ => ?_⟩
    rw [room_append, room_of_stop began]
    exact room_of_empty fun c member => empty c (List.mem_append_left _ member)

/-- A moved block is found at its new place unless a block in front of it was there before. -/
theorem leads_grow_lead_iff (positive : 0 < N) (leads : Leads (places a.blocks) own.addr) :
    Leads (places (a.grow own lead (lead.length + total mid) N).mergeEmptyBlocks.blocks) lead.addr ↔
      (lead ≠ own → ¬ Hidden a.blocks lead) := by
  have listed : lead ∈ a.blocks := by simp [run.cut]
  constructor
  · intro found moved hidden
    obtain ⟨d, inPre, alike, stays⟩ := stays_of_hidden valid run enough hidden
    have nodup := nodup_grow valid run enough
    have sub := places_mergeLoop (a.grow own lead (lead.length + total mid) N).blocks
    rw [← map_fst_places] at nodup
    rw [blocks_grow valid run, places_append, places_update_state, places_cons] at nodup
    rw [blocks_grow valid run, places_append _ (_ :: _), places_update_state, places_cons] at sub
    rw [mergeEmptyBlocks, blocks_grow valid run] at found stays
    exact found.ne_of_mem nodup sub (mem_places inPre) stays alike
  · intro clear
    refine leads_grow_lead valid run enough positive ?_
    rcases eq_or_ne lead own with rfl | moved
    · exact leads
    · exact (leads_iff_not_hidden valid.nodup listed).mpr (clear moved)

/-- The nodes that are found still are, but for those merged away and the one behind an exact fit. -/
theorem leads_grow_iff (positive : 0 < N) (present : own ∈ a.blocks) (listed : c ∈ a.blocks)
    (leads : Leads (places a.blocks) c.addr) :
    Leads (places (a.grow own lead (lead.length + total mid) N).mergeEmptyBlocks.blocks) c.addr ↔
      (Joins own.addr c → c ∉ after ∧ ¬ BehindRoom (Joins own.addr) a.blocks c) ∧
        (lead ≠ own → lead.length + total mid = N → c.offset ≠ lead.offset + N) := by
  have member := listed
  have nodup := valid.nodup
  rw [run.cut] at member nodup
  rcases List.mem_append.mp member with inPre | inRest
  · have before := offset_before valid run inPre
    have absent : c ∉ after := fun inAfter => by
      have := offset_behind valid run inAfter
      have := run.nonempty
      omega
    rw [leads_grow_front_iff valid run enough positive inPre leads]
    constructor
    · exact fun spared => ⟨fun joins => ⟨absent, spared joins⟩, fun _ _ => by omega⟩
    · exact fun spared joins => (spared.1 joins).2
  rcases List.mem_cons.mp inRest with rfl | inRest
  · refine iff_of_true (leads_grow_lead valid run enough positive leads) ⟨fun _ => ⟨?_, ?_⟩, ?_⟩
    · intro inAfter
      have := offset_behind valid run inAfter
      have := run.nonempty
      omega
    · rw [run.cut, behindRoom_append_cons nodup, run.room_eq_zero]
      exact Nat.lt_irrefl 0
    · omega
  rcases List.mem_append.mp inRest with inMid | inAfter
  · refine iff_of_false (gone_of_grow valid run listed (.inl inMid) _) fun spared => ?_
    refine (spared.1 (run.joins_mid c inMid)).2 ?_
    obtain ⟨front, rest, rfl⟩ := List.append_of_mem inMid
    refine ⟨pre ++ lead :: front, rest ++ after, by simp [run.cut], ?_⟩
    rw [room_append, run.room_eq_zero, room_cons, if_pos (run.joins lead List.mem_cons_self)]
    exact room_pos (fun d member => run.joins d (by simp [member])) (Nat.add_pos_right _ run.nonempty)
  · by_cases joins : Joins own.addr c
    · exact iff_of_false (gone_of_grow valid run listed (.inr ⟨inAfter, joins⟩) _)
        fun spared => (spared.1 joins).1 inAfter
    · rw [leads_grow_after_iff valid run enough positive present inAfter joins leads]
      exact ⟨fun apart => ⟨fun joined => absurd joined joins, apart⟩, And.right⟩

end Grow

end SphereMultithreading.Proofs.P1
