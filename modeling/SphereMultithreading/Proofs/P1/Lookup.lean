import SphereMultithreading.Machine.Lookup
import SphereMultithreading.Proofs.P1.Calls
import SphereMultithreading.Proofs.P1.Merging

/-! # Which nodes the calls leave to be found by their offsets

`find_block` finds a node that is listed and behind no other one at its offset. A call takes nodes out
of the list of addresses and offsets and puts one in; what it takes out at its end are the free blocks
behind room, which `room` measures as `merge_empty_blocks` does.
-/

namespace SphereMultithreading.Proofs.P1

open Machine Model.P1 Model.P1.Allocator Layout

/-! ## Places -/

def place (b : MemoryBlock) : ℕ × ℕ := (b.addr, b.offset)

def places (blocks : List MemoryBlock) : List (ℕ × ℕ) := blocks.map place

@[simp] theorem places_append (first second : List MemoryBlock) :
    places (first ++ second) = places first ++ places second := List.map_append

@[simp] theorem places_cons (b : MemoryBlock) (rest : List MemoryBlock) :
    places (b :: rest) = (b.addr, b.offset) :: places rest := rfl

theorem map_fst_places (blocks : List MemoryBlock) :
    (places blocks).map Prod.fst = blocks.map (·.addr) := by
  rw [places, List.map_map]
  rfl

theorem mem_places {b : MemoryBlock} {blocks : List MemoryBlock} (listed : b ∈ blocks) :
    (b.addr, b.offset) ∈ places blocks := List.mem_map_of_mem listed

theorem places_update_state (addr : ℕ) (state : Bool) (blocks : List MemoryBlock) :
    places (update addr (fun b => { b with state := state }) blocks) = places blocks := by
  rw [places, places, update, List.map_map]
  refine List.map_congr_left fun b _ => ?_
  rw [Function.comp_apply]
  split <;> rfl

/-- A block that is found still is among blocks of which some are gone. -/
theorem leads_of_sublist {blocks kept : List MemoryBlock} {b : MemoryBlock}
    (nodup : (blocks.map (·.addr)).Nodup) (leads : Leads (places blocks) b.addr)
    (sub : (places kept).Sublist (places blocks)) (stays : b ∈ kept) : Leads (places kept) b.addr := by
  rw [← map_fst_places] at nodup
  refine leads.sublist nodup sub ?_
  rw [map_fst_places]
  exact List.mem_map_of_mem stays

/-- A new block hides none that has another offset. -/
theorem leads_insert {front rest : List MemoryBlock} {b : MemoryBlock} {addr : ℕ}
    (leads : Leads (places (front ++ rest)) addr)
    (apart : ∀ c ∈ rest, c.addr = addr → b.offset ≠ c.offset) :
    Leads (places (front ++ b :: rest)) addr := by
  rw [places_append] at leads
  rw [places_append, places_cons]
  refine leads.insert fun offset member => ?_
  obtain ⟨c, listed, same⟩ := List.mem_map.mp member
  obtain ⟨here, rfl⟩ := Prod.mk.inj same
  exact apart c listed here

/-- `find_block` finds the node itself where the search for its offset does. -/
theorem leads_places_iff {blocks : List MemoryBlock} {b : MemoryBlock}
    (nodup : (blocks.map (·.addr)).Nodup) (listed : b ∈ blocks) :
    Leads (places blocks) b.addr ↔ blocks.find? (·.offset = b.offset) = some b := by
  constructor
  · rintro ⟨offset, found⟩
    rw [places, List.find?_map] at found
    obtain ⟨c, found', same⟩ := Option.map_eq_some_iff.mp found
    obtain ⟨addr, rfl⟩ := Prod.mk.inj same
    obtain rfl := eq_of_addr nodup (List.mem_of_find?_eq_some found') listed addr
    exact found'
  · intro found
    refine ⟨b.offset, ?_⟩
    rw [places, List.find?_map]
    exact Option.map_eq_some_iff.mpr ⟨b, found, rfl⟩

/-- An earlier block has the offset of the block. -/
def Hidden (blocks : List MemoryBlock) (b : MemoryBlock) : Prop :=
  ∃ front rest, blocks = front ++ b :: rest ∧ ∃ c ∈ front, c.offset = b.offset

theorem leads_iff_not_hidden {blocks : List MemoryBlock} {b : MemoryBlock}
    (nodup : (blocks.map (·.addr)).Nodup) (listed : b ∈ blocks) :
    Leads (places blocks) b.addr ↔ ¬ Hidden blocks b := by
  rw [← map_fst_places] at nodup
  constructor
  · rintro leads ⟨front, rest, rfl, c, before, same⟩
    rw [places_append, places_cons] at leads nodup
    exact (leads_append_cons nodup).mp leads _ (mem_places before) same
  · intro clear
    obtain ⟨front, rest, rfl⟩ := List.append_of_mem listed
    rw [places_append, places_cons] at nodup ⊢
    refine (leads_append_cons nodup).mpr fun entry member same => ?_
    obtain ⟨c, before, rfl⟩ := List.mem_map.mp member
    exact clear ⟨front, rest, rfl, c, before, same⟩

/-! ## Room -/

/-- What a run that `n` is accumulated of has grown to behind the blocks. -/
def room (P : MemoryBlock → Prop) [DecidablePred P] (n : ℕ) (front : List MemoryBlock) : ℕ :=
  front.foldl (fun n b => if P b then n + b.length else 0) n

/-- The blocks right before the block that have the property have some length. -/
def BehindRoom (P : MemoryBlock → Prop) [DecidablePred P] (blocks : List MemoryBlock)
    (b : MemoryBlock) : Prop :=
  ∃ front rest, blocks = front ++ b :: rest ∧ 0 < room P 0 front

section Room

variable {P : MemoryBlock → Prop} [DecidablePred P] {m n : ℕ} {front rest blocks : List MemoryBlock}
  {b : MemoryBlock}

theorem room_append (n : ℕ) (front rest : List MemoryBlock) :
    room P n (front ++ rest) = room P (room P n front) rest := List.foldl_append

theorem room_cons (n : ℕ) (b : MemoryBlock) (rest : List MemoryBlock) :
    room P n (b :: rest) = room P (if P b then n + b.length else 0) rest := rfl

/-- Only whether something is accumulated matters for whether something will be. -/
theorem room_pos_congr (same : 0 < m ↔ 0 < n) : 0 < room P m front ↔ 0 < room P n front := by
  induction front generalizing m n with
  | nil => exact same
  | cons b rest ih =>
    rw [room_cons, room_cons]
    refine ih ?_
    split
    · omega
    · exact Iff.rfl

theorem room_congr {Q : MemoryBlock → Prop} [DecidablePred Q] (same : ∀ b ∈ front, P b ↔ Q b) (n : ℕ) :
    room P n front = room Q n front := by
  induction front generalizing n with
  | nil => rfl
  | cons b rest ih =>
    rw [room_cons, room_cons, ih fun c member => same c (List.mem_cons_of_mem b member)]
    simp only [same b List.mem_cons_self]

theorem room_pos (all : ∀ b ∈ front, P b) (positive : 0 < n) : 0 < room P n front := by
  induction front generalizing n with
  | nil => exact positive
  | cons b rest ih =>
    rw [room_cons, if_pos (all b List.mem_cons_self)]
    exact ih (fun c member => all c (List.mem_cons_of_mem b member)) (Nat.add_pos_left positive _)

theorem room_of_empty (empty : ∀ b ∈ front, b.length = 0) : room P 0 front = 0 := by
  induction front with
  | nil => rfl
  | cons b rest ih =>
    rw [room_cons, empty b List.mem_cons_self, Nat.zero_add, ite_self]
    exact ih fun c member => empty c (List.mem_cons_of_mem b member)

theorem room_of_stop (stop : ∀ b ∈ front.getLast?, ¬ P b) : room P 0 front = 0 := by
  rcases List.eq_nil_or_concat front with rfl | ⟨front, b, rfl⟩
  · rfl
  · rw [List.concat_eq_append, room_append, room_cons, if_neg (stop b (by simp))]
    rfl

/-- With a block marked free, the free blocks are the ones that join it. -/
theorem room_update (addr n : ℕ) (front : List MemoryBlock) :
    room (fun b => b.isFree) n (update addr (fun b => { b with state := false }) front) =
      room (Joins addr) n front := by
  induction front generalizing n with
  | nil => rfl
  | cons b rest ih =>
    rw [update] at ih ⊢
    rw [List.map_cons, room_cons, room_cons, ih]
    by_cases same : b.addr = addr <;> simp [Joins, same, MemoryBlock.isFree]

theorem behindRoom_append_cons (nodup : ((front ++ b :: rest).map (·.addr)).Nodup) :
    BehindRoom P (front ++ b :: rest) b ↔ 0 < room P 0 front := by
  constructor
  · rintro ⟨front', rest', cut, positive⟩
    obtain ⟨rfl, -⟩ := cut_unique nodup cut
    exact positive
  · exact fun positive => ⟨front, rest, rfl, positive⟩

end Room

/-! ## Merging -/

theorem places_mergeLoop (blocks : List MemoryBlock) :
    (places (mergeLoop none 0 blocks)).Sublist (places blocks) :=
  sublist_mergeLoop place fun _ _ => rfl

private theorem addr_notMem {front rest blocks : List MemoryBlock} {b : MemoryBlock}
    (nodup : ((front ++ b :: rest).map (·.addr)).Nodup) (sub : blocks ⊆ front ++ rest) :
    b.addr ∉ blocks.map (·.addr) := by
  obtain ⟨before, behind⟩ := addr_ne_of_cut nodup
  rintro member
  obtain ⟨c, listed, same⟩ := List.mem_map.mp member
  rcases List.mem_append.mp (sub listed) with inFront | inRest
  · exact before c inFront same
  · exact behind c inRest same

/-- Merging takes out the free blocks behind room. -/
theorem addr_mem_mergeLoop_iff {pBlock : Option MemoryBlock} {n : ℕ} {front rest : List MemoryBlock}
    {b : MemoryBlock} (nodup : ((pBlock.toList ++ front ++ b :: rest).map (·.addr)).Nodup) :
    b.addr ∈ (mergeLoop pBlock n (front ++ b :: rest)).map (·.addr) ↔
      (b.isFree = true → room (fun b => b.isFree) n front = 0) := by
  induction front generalizing pBlock n with
  | nil =>
    rw [List.append_nil] at nodup
    rw [List.nil_append, mergeLoop, room, List.foldl_nil]
    split_ifs with free starts
    · obtain ⟨length, others, opens⟩ := mergeLoop_some b (n + b.length) rest
      exact iff_of_true (by simp [opens]) fun _ => by omega
    · refine iff_of_false (fun member => ?_) fun zero => starts (by rw [zero free, Nat.zero_add])
      exact addr_notMem nodup (List.Subset.refl _) (addrs_mergeLoop.subset member)
    · exact iff_of_true (by simp) fun free' => absurd free' free
  | cons c front ih =>
    have opener : b.addr ∉ pBlock.toList.map (·.addr) :=
      addr_notMem nodup fun d member => by simp [member]
    have shorter {qBlock : Option MemoryBlock}
        (sub : (qBlock.toList ++ front).Sublist (pBlock.toList ++ c :: front)) :
        ((qBlock.toList ++ front ++ b :: rest).map (·.addr)).Nodup :=
      nodup.sublist ((sub.append_right _).map _)
    rw [List.cons_append, mergeLoop, room_cons]
    split_ifs with free starts
    · rw [List.map_append, List.mem_append, or_iff_right opener]
      exact ih (shorter (List.sublist_append_right _ _))
    · exact ih (shorter ((List.Sublist.refl _).append (List.sublist_cons_self c front)))
    · have apart : b.addr ≠ c.addr := by
        have := (addr_ne_of_cut nodup).1 c (by simp)
        exact this.symm
      have closed : b.addr ∉ (closeRun pBlock n).map (·.addr) := by
        cases pBlock with
        | none => exact List.not_mem_nil
        | some p => exact opener
      rw [List.map_append, List.mem_append, List.map_cons, List.mem_cons, or_iff_right closed,
        or_iff_right apart]
      exact ih (shorter ((List.sublist_cons_self c front).trans (List.sublist_append_right _ _)))

theorem addr_mem_merged_iff {front rest : List MemoryBlock} {b : MemoryBlock}
    (nodup : ((front ++ b :: rest).map (·.addr)).Nodup) :
    b.addr ∈ (mergeLoop none 0 (front ++ b :: rest)).map (·.addr) ↔
      (b.isFree = true → room (fun b => b.isFree) 0 front = 0) := addr_mem_mergeLoop_iff nodup

/-- What merging leaves, it leaves at its place. -/
theorem mem_places_mergeLoop {front rest : List MemoryBlock} {b : MemoryBlock}
    (nodup : ((front ++ b :: rest).map (·.addr)).Nodup)
    (idle : b.isFree = true → room (fun b => b.isFree) 0 front = 0) :
    (b.addr, b.offset) ∈ places (mergeLoop none 0 (front ++ b :: rest)) := by
  have kept := (addr_mem_merged_iff nodup).mpr idle
  obtain ⟨c, listed, same⟩ := List.mem_map.mp kept
  rw [← map_fst_places] at nodup
  have alike : (c.addr, c.offset) = (b.addr, b.offset) :=
    List.inj_on_of_nodup_map nodup ((places_mergeLoop _).subset (mem_places listed))
      (mem_places (List.mem_append_right front List.mem_cons_self)) same
  exact alike ▸ mem_places listed

/-- Merging leaves a node that is found, unless it is free behind room. Whether there is room may be
seen in the list as it was before the call. -/
theorem leads_mergeLoop_iff {front rest front' rest' : List MemoryBlock} {b c : MemoryBlock} {own : ℕ}
    (nodup : ((front ++ c :: rest).map (·.addr)).Nodup)
    (nodup' : ((front' ++ b :: rest').map (·.addr)).Nodup)
    (leads : Leads (places (front' ++ b :: rest')) b.addr)
    (same : 0 < room (fun b => b.isFree) 0 front' ↔ 0 < room (Joins own) 0 front) :
    Leads (places (mergeLoop none 0 (front' ++ b :: rest'))) b.addr ↔
      (b.isFree = true → ¬ BehindRoom (Joins own) (front ++ c :: rest) c) := by
  rw [behindRoom_append_cons nodup, ← same, Nat.not_lt, Nat.le_zero,
    ← addr_mem_merged_iff nodup', ← map_fst_places]
  rw [← map_fst_places] at nodup'
  exact ⟨Leads.mem, leads.sublist nodup' (places_mergeLoop _)⟩

/-- Used blocks stay, and are found as before. -/
theorem leads_mergeLoop_used {blocks : List MemoryBlock} {b : MemoryBlock}
    (nodup : (blocks.map (·.addr)).Nodup) (listed : b ∈ blocks) (used : b.state = true)
    (leads : Leads (places blocks) b.addr) : Leads (places (mergeLoop none 0 blocks)) b.addr :=
  leads_of_sublist nodup leads (places_mergeLoop _) (mem_mergeLoop_of_used listed used)

/-! ## What the calls leave -/

/-- The block once the block at the address is marked free. -/
def cleared (addr : ℕ) (b : MemoryBlock) : MemoryBlock :=
  if b.addr = addr then { b with state := false } else b

theorem addr_cleared (addr : ℕ) (b : MemoryBlock) : (cleared addr b).addr = b.addr := by
  rw [cleared]
  split <;> rfl

theorem offset_cleared (addr : ℕ) (b : MemoryBlock) : (cleared addr b).offset = b.offset := by
  rw [cleared]
  split <;> rfl

theorem isFree_cleared (addr : ℕ) (b : MemoryBlock) :
    (cleared addr b).isFree = true ↔ Joins addr b := by
  rw [cleared]
  split
  · next here => exact iff_of_true rfl (.inr here)
  · next apart => exact (or_iff_left apart).symm

theorem update_append_cons (addr : ℕ) (front rest : List MemoryBlock) (b : MemoryBlock) :
    update addr (fun b => { b with state := false }) (front ++ b :: rest) =
      update addr (fun b => { b with state := false }) front ++
        cleared addr b :: update addr (fun b => { b with state := false }) rest := by
  rw [update, List.map_append, List.map_cons]
  rfl

section Calls

variable {a : Allocator} {b c own : MemoryBlock} {N S : ℕ}

theorem leads_released_iff (nodup : (a.blocks.map (·.addr)).Nodup) (listed : c ∈ a.blocks)
    (leads : Leads (places a.blocks) c.addr) (addr : ℕ) :
    Leads (places (released a addr).mergeEmptyBlocks.blocks) c.addr ↔
      (Joins addr c → ¬ BehindRoom (Joins addr) a.blocks c) := by
  obtain ⟨front, rest, cut⟩ := List.append_of_mem listed
  have cut' := congrArg (update addr fun b => { b with state := false }) cut
  have nodup' := nodup
  rw [← addrs_update addr false, cut', update_append_cons] at nodup'
  rw [← places_update_state addr false, cut', update_append_cons, ← addr_cleared addr c] at leads
  rw [released, mergeEmptyBlocks, cut', update_append_cons, cut, ← addr_cleared addr c,
    ← isFree_cleared]
  exact leads_mergeLoop_iff (cut ▸ nodup) nodup' leads (by rw [room_update])

/-- Neither the mark nor the rest of a split block hides anything. -/
theorem leads_alloc_iff (valid : WellPlaced (· ≤ ·) S a) (listed : c ∈ a.blocks) :
    Leads (places (a.alloc N).2.blocks) c.addr ↔ Leads (places a.blocks) c.addr := by
  have nodup := (valid.alloc Placement.le N).nodup
  rcases found : allocLoop a.nextAddr N a.blocks with _ | ⟨blocks, addr⟩
  · rw [Allocator.alloc, found]
  have ran : (a.alloc N).2.blocks = blocks := by rw [Allocator.alloc, found]
  have ordered := valid.placed.pairwise
  obtain ⟨pre, b, post, cut, -, long, -, rfl⟩ := allocLoop_eq_some found
  rw [ran] at nodup ⊢
  rw [← map_fst_places] at nodup
  rw [cut] at ordered
  have before : places a.blocks = places (pre ++ [b] ++ post) := by simp [cut]
  have after :
      places (pre ++ { b with length := N, state := true } :: (remainder a.nextAddr N b ++ post)) =
      places (pre ++ [b] ++ remainder a.nextAddr N b ++ post) := by simp
  rw [after] at nodup ⊢
  rw [before]
  constructor
  · intro leads
    refine leads.sublist nodup ?_ ?_
    · rw [places_append, places_append (pre ++ [b] ++ remainder a.nextAddr N b),
        places_append (pre ++ [b])]
      exact (List.sublist_append_left _ _).append_right _
    · rw [← before]
      exact List.mem_map_of_mem (mem_places listed)
  · intro leads
    rw [remainder]
    split
    · next longer =>
      rw [List.append_assoc _ [_]]
      refine leads_insert leads fun d inPost _ => ?_
      have := (List.pairwise_cons.mp (List.pairwise_append.mp ordered).2.1).1 d inPost
      change b.offset + N ≠ d.offset
      omega
    · rwa [List.append_nil]

theorem leads_shrink_iff (valid : WellPlaced (· ≤ ·) S a) (present : own ∈ a.blocks)
    (longer : N < own.length) (listed : c ∈ a.blocks) (leads : Leads (places a.blocks) c.addr) :
    Leads (places (a.shrink own N).mergeEmptyBlocks.blocks) c.addr ↔
      (c.isFree = true → ¬ BehindRoom (Joins own.addr) a.blocks c) := by
  have nodup' := (valid.shrink Placement.le present longer).nodup
  have nodup := valid.nodup
  have ordered := valid.placed.pairwise
  obtain ⟨pre, post, cut, shrunk⟩ := shrink_blocks (N := N) valid.nodup present
  rw [cut] at nodup leads ordered listed ⊢
  rw [shrunk] at nodup'
  rw [mergeEmptyBlocks, shrunk]
  obtain ⟨before, behind⟩ := addr_ne_of_cut nodup
  have below := (List.pairwise_cons.mp (List.pairwise_append.mp ordered).2.1).1
  have leads' : Leads (places (pre ++ { own with length := N } ::
      .new a.nextAddr (own.offset + N) (own.length - N) :: post)) c.addr := by
    rw [List.append_cons]
    refine leads_insert (by simpa using leads) fun d inPost _ => ?_
    have := below d inPost
    change own.offset + N ≠ d.offset
    omega
  have plain {front : List MemoryBlock} (apart : ∀ d ∈ front, d.addr ≠ own.addr) (n : ℕ) :
      room (fun b => b.isFree) n front = room (Joins own.addr) n front :=
    room_congr (fun d member => (or_iff_left (apart d member)).symm) n
  rcases List.mem_append.mp listed with inPre | inRest
  · obtain ⟨front, rest, rfl⟩ := List.append_of_mem inPre
    rw [List.append_assoc, List.cons_append] at nodup nodup' leads' ⊢
    rw [List.append_assoc, List.cons_append]
    refine leads_mergeLoop_iff nodup nodup' leads' ?_
    rw [plain fun d member => before d (List.mem_append_left _ member)]
  · rcases List.mem_cons.mp inRest with rfl | inPost
    · refine leads_mergeLoop_iff nodup nodup' leads' ?_
      rw [plain before]
    · obtain ⟨front, rest, rfl⟩ := List.append_of_mem inPost
      have cutOff : pre ++ { own with length := N } ::
          .new a.nextAddr (own.offset + N) (own.length - N) :: (front ++ c :: rest) =
          pre ++ { own with length := N } ::
            .new a.nextAddr (own.offset + N) (own.length - N) :: front ++ c :: rest := by simp
      have cutOff' : pre ++ own :: (front ++ c :: rest) = pre ++ own :: front ++ c :: rest := by simp
      rw [cutOff] at nodup' leads' ⊢
      rw [cutOff'] at nodup ⊢
      refine leads_mergeLoop_iff nodup nodup' leads' ?_
      rw [room_append, room_append, room_cons, room_cons, room_cons,
        plain fun d member => behind d (List.mem_append_left _ member)]
      refine room_pos_congr ?_
      have unused :
          (MemoryBlock.new a.nextAddr (own.offset + N) (own.length - N)).isFree = true := rfl
      have cutPart : 0 < own.length - N := by omega
      rw [if_pos (show Joins own.addr own from .inr rfl), if_pos unused]
      exact iff_of_true (Nat.add_pos_right _ cutPart) (Nat.add_pos_right _ (by omega))

/-- A block that `defrag` moves starts where the one before it does only if that one is empty. -/
theorem leads_defrag_iff (valid : WellPlaced (· ≤ ·) S a) (listed : c ∈ a.blocks) :
    Leads (places a.defrag.blocks) c.addr ↔ c.state = true ∧
      ∀ front rest, a.blocks.filter (·.state) = front ++ c :: rest →
        ∀ d ∈ front.getLast?, 0 < d.length := by
  have nodup := (valid.defrag Placement.le).nodup
  have packed := defragLoop_eq a.pBuffer 0 0 a.blocks
  rw [Allocator.defrag] at nodup ⊢
  simp only [packed, Nat.zero_add] at nodup ⊢
  have cutAt {front rest : List MemoryBlock} (cut : a.blocks.filter (·.state) = front ++ c :: rest) :
      Leads (places (pack 0 (a.blocks.filter (·.state)) ++
        [.new a.nextAddr (total (a.blocks.filter (·.state))) (total (a.blocks.filter (·.isFree)))]))
        c.addr ↔ ∀ d ∈ front.getLast?, 0 < d.length := by
    rw [← map_fst_places] at nodup
    rw [cut, pack_append, pack, List.append_assoc, List.cons_append, places_append,
      places_cons] at nodup ⊢
    rw [leads_append_cons nodup, ← pack_ne_iff 0]
    exact List.forall_mem_map
  constructor
  · intro leads
    have member := leads.mem
    rw [map_fst_places, List.map_append, map_pack (·.addr) fun _ _ => rfl] at member
    have used : c ∈ a.blocks.filter (·.state) := by
      rcases List.mem_append.mp member with kept | last
      · obtain ⟨d, inUsed, same⟩ := List.mem_map.mp kept
        exact eq_of_addr valid.nodup (List.mem_filter.mp inUsed).1 listed same ▸ inUsed
      · have := valid.fresh c listed
        have : c.addr = a.nextAddr := List.mem_singleton.mp last
        omega
    exact ⟨(List.mem_filter.mp used).2, fun front rest cut => (cutAt cut).mp leads⟩
  · rintro ⟨used, apart⟩
    obtain ⟨front, rest, cut⟩ := List.append_of_mem (List.mem_filter.mpr ⟨listed, used⟩)
    exact (cutAt cut).mpr (apart front rest cut)

end Calls

end SphereMultithreading.Proofs.P1
