import Mathlib.Data.List.Nodup
import SphereMultithreading.Machine.Layout
import SphereMultithreading.Model.P1.Allocator

/-! # What each allocator operation does to the block list

Every operation rewrites the list around one node. The lemmas here say so once, with the list cut
at that node: `allocLoop_eq_some` for `alloc`, `shrink_blocks` and `grow_blocks` for the two
branches of `realloc`, and `mergeLoop` through the quantities it keeps. The search of `realloc` is
compared with `fitting`, which returns the first run of blocks that is long enough together with
what stands behind it.
-/

namespace SphereMultithreading.Proofs.P1

open Model.P1 Model.P1.Allocator Layout

/-- The added lengths of the blocks. -/
def total (blocks : List MemoryBlock) : ℕ := (blocks.map (·.length)).sum

@[simp] theorem total_nil : total [] = 0 := rfl

@[simp] theorem total_cons (b : MemoryBlock) (rest : List MemoryBlock) :
    total (b :: rest) = b.length + total rest := by simp [total]

@[simp] theorem total_append (first second : List MemoryBlock) :
    total (first ++ second) = total first + total second := by simp [total]

/-- Sorting the blocks into two heaps loses no length. -/
theorem total_filter_add (p q : MemoryBlock → Bool) (other : ∀ b, q b = !p b)
    (blocks : List MemoryBlock) :
    total (blocks.filter p) + total (blocks.filter q) = total blocks := by
  induction blocks with
  | nil => rfl
  | cons b rest ih =>
    rw [List.filter_cons, List.filter_cons, other, total_cons]
    cases p b <;> simp <;> omega

theorem total_eq_zero_iff {run : List MemoryBlock} : total run = 0 ↔ ∀ b ∈ run, b.length = 0 := by
  induction run with
  | nil => simp
  | cons b rest ih => simp [ih]

/-- Blocks laid out between two bounds, end to end for `=` and possibly with gaps for `≤`. -/
abbrev Placed (r : ℕ → ℕ → Prop) : ℕ → List MemoryBlock → ℕ → Prop :=
  Laid r MemoryBlock.offset MemoryBlock.length

/-! ## Cutting the list at a node -/

/-- Where addresses are distinct, no node beside a cut has the address of the node at the cut. -/
theorem addr_ne_of_cut {pre post : List MemoryBlock} {b : MemoryBlock}
    (nodup : ((pre ++ b :: post).map (·.addr)).Nodup) :
    (∀ c ∈ pre, c.addr ≠ b.addr) ∧ ∀ c ∈ post, c.addr ≠ b.addr := by
  simp only [List.map_append, List.map_cons, List.nodup_append, List.nodup_cons, List.mem_map,
    List.mem_cons, forall_exists_index, and_imp] at nodup
  obtain ⟨-, ⟨behind, -⟩, front⟩ := nodup
  refine ⟨?_, ?_⟩
  · intro c inPre
    exact front c.addr c inPre rfl b.addr (Or.inl rfl)
  · intro c inPost same
    exact behind ⟨c, inPost, same⟩

/-- So a list is cut at a node in one way. -/
theorem cut_unique {pre post pre' post' : List MemoryBlock} {b : MemoryBlock}
    (nodup : ((pre ++ b :: post).map (·.addr)).Nodup)
    (same : pre ++ b :: post = pre' ++ b :: post') : pre = pre' ∧ post = post' := by
  obtain ⟨front, behind⟩ := addr_ne_of_cut nodup
  have notBefore : b ∉ pre := fun member => front b member rfl
  have notBehind : b ∉ post := fun member => behind b member rfl
  obtain ⟨before, -, after⟩ := (List.append_cons_inj_of_notMem notBefore notBehind).mp same
  exact ⟨before, after⟩

/-- A listed node is the first with its key where keys are distinct. -/
theorem find?_key {blocks : List MemoryBlock} {b : MemoryBlock} (key : MemoryBlock → ℕ)
    (nodup : (blocks.map key).Nodup) (member : b ∈ blocks) :
    blocks.find? (key · = key b) = some b := by
  cases found : blocks.find? (key · = key b) with
  | none => simpa using List.find?_eq_none.mp found b member
  | some c =>
    have same : key c = key b := by simpa using List.find?_some found
    exact congrArg some (List.inj_on_of_nodup_map nodup (List.mem_of_find?_eq_some found) member same)

/-- A listed node is what its address designates. -/
theorem find?_addr {blocks : List MemoryBlock} {b : MemoryBlock}
    (nodup : (blocks.map (·.addr)).Nodup) (member : b ∈ blocks) :
    blocks.find? (·.addr = b.addr) = some b :=
  find?_key (·.addr) nodup member

theorem eq_of_addr {blocks : List MemoryBlock} {b c : MemoryBlock}
    (nodup : (blocks.map (·.addr)).Nodup) (hb : b ∈ blocks) (hc : c ∈ blocks)
    (same : b.addr = c.addr) : b = c :=
  List.inj_on_of_nodup_map nodup hb hc same

theorem update_of_ne {blocks : List MemoryBlock} {addr : ℕ} (f : MemoryBlock → MemoryBlock)
    (absent : ∀ c ∈ blocks, c.addr ≠ addr) : update addr f blocks = blocks := by
  rw [update, List.map_congr_left (fun c member => if_neg (absent c member)), List.map_id']

theorem update_cut {pre post : List MemoryBlock} {b : MemoryBlock} (f : MemoryBlock → MemoryBlock)
    (front : ∀ c ∈ pre, c.addr ≠ b.addr) (behind : ∀ c ∈ post, c.addr ≠ b.addr) :
    update b.addr f (pre ++ b :: post) = pre ++ f b :: post := by
  have left := update_of_ne f front
  have right := update_of_ne f behind
  simp only [update] at left right ⊢
  rw [List.map_append, List.map_cons, left, right, if_pos rfl]

/-- Marking a block changes no address. -/
theorem addrs_update (addr : ℕ) (state : Bool) (blocks : List MemoryBlock) :
    (update addr (fun b => { b with state := state }) blocks).map (·.addr) =
      blocks.map (·.addr) := by
  rw [update, List.map_map]
  refine List.map_congr_left fun b _ => ?_
  rw [Function.comp_apply]
  split <;> rfl

theorem total_update_state (addr : ℕ) (state : Bool) (blocks : List MemoryBlock) :
    total (update addr (fun b => { b with state := state }) blocks) = total blocks := by
  rw [total, total, update, List.map_map]
  refine congrArg List.sum (List.map_congr_left fun b _ => ?_)
  rw [Function.comp_apply]
  split <;> rfl

theorem insertAfter_cut {pre post : List MemoryBlock} {addr : ℕ} {b block : MemoryBlock}
    (front : ∀ c ∈ pre, c.addr ≠ addr) (here : b.addr = addr) :
    insertAfter addr block (pre ++ b :: post) = pre ++ b :: block :: post := by
  induction pre with
  | nil => simp [insertAfter, here]
  | cons c rest ih =>
    rw [List.cons_append, insertAfter, if_neg (front c List.mem_cons_self),
      ih (fun d member => front d (List.mem_cons_of_mem c member)), List.cons_append]

theorem eraseMerged_cut {pre post : List MemoryBlock} {own addr : ℕ} {b : MemoryBlock}
    (front : ∀ c ∈ pre, c.addr ≠ addr) (here : b.addr = addr) :
    eraseMerged own addr (pre ++ b :: post) =
      pre ++ b :: post.filter (fun c => ¬ Joins own c) := by
  induction pre with
  | nil => simp [eraseMerged, here]
  | cons c rest ih =>
    rw [List.cons_append, eraseMerged, if_neg (front c List.mem_cons_self),
      ih (fun d member => front d (List.mem_cons_of_mem c member)), List.cons_append]

/-! ## `alloc` -/

/-- What is left of a split block. -/
def remainder (fresh N : ℕ) (b : MemoryBlock) : List MemoryBlock :=
  if N < b.length then [.new fresh (b.offset + N) (b.length - N)] else []

/-- `alloc` marks one free block that is long enough and cuts it to size. -/
theorem allocLoop_eq_some {fresh N addr : ℕ} {blocks result : List MemoryBlock}
    (success : allocLoop fresh N blocks = some (result, addr)) :
    ∃ pre b post, blocks = pre ++ b :: post ∧ b.isFree = true ∧ N ≤ b.length ∧ addr = b.addr ∧
      result = pre ++ { b with length := N, state := true } :: (remainder fresh N b ++ post) := by
  induction blocks generalizing result addr with
  | nil => simp [allocLoop] at success
  | cons b rest ih =>
    rw [allocLoop] at success
    split at success
    · next fits =>
      refine ⟨[], b, rest, rfl, fits.1, fits.2, ?_⟩
      split at success
      · next longer =>
        cases success
        simp [remainder, longer]
      · next exact' =>
        cases success
        have same : b.length = N := Nat.le_antisymm (Nat.not_lt.mp exact') fits.2
        simp [remainder, ← same]
    · obtain ⟨⟨found, addr'⟩, loop, same⟩ := Option.map_eq_some_iff.mp success
      cases same
      obtain ⟨pre, c, post, rfl, free, long, rfl, rfl⟩ := ih loop
      exact ⟨b :: pre, c, post, rfl, free, long, rfl, rfl⟩

/-- It takes the first that is free and long enough. -/
theorem find?_of_allocLoop {fresh N addr : ℕ} {blocks result : List MemoryBlock}
    (success : allocLoop fresh N blocks = some (result, addr)) :
    ∃ b, blocks.find? (fun b => b.isFree ∧ N ≤ b.length) = some b ∧ b.addr = addr := by
  induction blocks generalizing result addr with
  | nil => simp [allocLoop] at success
  | cons b rest ih =>
    rw [allocLoop] at success
    split at success
    · next fits =>
      refine ⟨b, List.find?_cons_of_pos (by simpa using fits), ?_⟩
      split at success <;> cases success <;> rfl
    · next unfit =>
      obtain ⟨⟨found, addr'⟩, loop, same⟩ := Option.map_eq_some_iff.mp success
      cases same
      rw [List.find?_cons_of_neg (by simpa using unfit)]
      exact ih loop

/-- `alloc` throws only when no free block is long enough. -/
theorem allocLoop_eq_none {fresh N : ℕ} {blocks : List MemoryBlock} :
    allocLoop fresh N blocks = none ↔ ∀ b ∈ blocks, b.isFree = true → b.length < N := by
  induction blocks with
  | nil => simp [allocLoop]
  | cons b rest ih =>
    rw [allocLoop]
    split
    · next fits =>
      refine iff_of_false (by split <;> simp) fun none => ?_
      exact absurd (none b List.mem_cons_self fits.1) (Nat.not_lt.mpr fits.2)
    · next short =>
      rw [Option.map_eq_none_iff, ih, List.forall_mem_cons]
      refine (and_iff_right fun free => ?_).symm
      by_contra long
      exact short ⟨free, Nat.not_lt.mp long⟩

/-! ## `merge_empty_blocks` -/

/-- The states of the merging loop: no run is open and nothing is accumulated, or the block that
opened the run is free and not longer than what was accumulated since. -/
def OpenRun : Option MemoryBlock → ℕ → Prop
  | none, lengthTotal => lengthTotal = 0
  | some b, lengthTotal => b.isFree = true ∧ b.length ≤ lengthTotal

/-- A new run opens only while the former one is empty, and closing that one changes nothing. -/
theorem OpenRun.closeRun_zero {pBlock : Option MemoryBlock} (opened : OpenRun pBlock 0) :
    closeRun pBlock 0 = pBlock.toList := by
  cases pBlock with
  | none => rfl
  | some b =>
    have empty : b.length = 0 := Nat.le_zero.mp opened.2
    simp [closeRun, ← empty]

/-- Only an open run is continued. -/
theorem OpenRun.exists_block {pBlock : Option MemoryBlock} {lengthTotal n : ℕ}
    (opened : OpenRun pBlock lengthTotal) (continues : ¬ lengthTotal + n = n) :
    ∃ p, pBlock = some p ∧ OpenRun (some p) (lengthTotal + n) := by
  cases pBlock with
  | none =>
    obtain rfl : lengthTotal = 0 := opened
    exact absurd (Nat.zero_add n) continues
  | some p => exact ⟨p, rfl, opened.1, Nat.le_add_right_of_le opened.2⟩

/-- Merging keeps blocks laid out: a run is replaced by one block of its total length. -/
theorem placed_mergeLoop {r : ℕ → ℕ → Prop} (placement : Placement r) {lo hi : ℕ}
    {pBlock : Option MemoryBlock} {lengthTotal : ℕ} {blocks : List MemoryBlock}
    (opened : OpenRun pBlock lengthTotal)
    (placed : Placed r lo (closeRun pBlock lengthTotal ++ blocks) hi) :
    Placed r lo (mergeLoop pBlock lengthTotal blocks) hi := by
  induction blocks generalizing lo pBlock lengthTotal with
  | nil => simpa [mergeLoop] using placed
  | cons b rest ih =>
    rw [mergeLoop]
    split
    · next free =>
      split
      · next starts =>
        obtain rfl : lengthTotal = 0 := by omega
        rw [opened.closeRun_zero] at placed
        obtain ⟨mid, front, behind⟩ := (laid_append placement).mp placed
        refine (laid_append placement).mpr ⟨mid, front, ih ⟨free, by omega⟩ ?_⟩
        simpa [closeRun] using behind
      · next continues =>
        obtain ⟨p, rfl, extended⟩ := opened.exists_block continues
        obtain ⟨first, second, tail⟩ := placed
        refine ih extended ⟨first, tail.lower placement ?_⟩
        simpa only [Nat.add_assoc] using placement.add_right b.length second
    · obtain ⟨mid, front, behind⟩ := (laid_append placement).mp placed
      exact (laid_append placement).mpr ⟨mid, front, behind.1, ih rfl behind.2⟩

/-- Merging leaves a block where there was one. -/
theorem mergeLoop_ne_nil {pBlock : Option MemoryBlock} {lengthTotal : ℕ} {blocks : List MemoryBlock}
    (opened : OpenRun pBlock lengthTotal) (nonempty : pBlock.toList ++ blocks ≠ []) :
    mergeLoop pBlock lengthTotal blocks ≠ [] := by
  induction blocks generalizing pBlock lengthTotal with
  | nil => cases pBlock <;> simp [mergeLoop, closeRun] at nonempty ⊢
  | cons b rest ih =>
    rw [mergeLoop]
    split
    · next free =>
      split
      · next starts =>
        have reopened : OpenRun (some b) (lengthTotal + b.length) := ⟨free, by omega⟩
        exact List.append_ne_nil_of_right_ne_nil _ (ih reopened (by simp))
      · next continues =>
        obtain ⟨p, rfl, extended⟩ := opened.exists_block continues
        exact ih extended (by simp)
    · simp

/-- Merging takes nodes out and changes lengths only. -/
theorem sublist_mergeLoop {β : Type*} (f : MemoryBlock → β)
    (blind : ∀ b length, f { b with length := length } = f b) {pBlock : Option MemoryBlock}
    {lengthTotal : ℕ} {blocks : List MemoryBlock} :
    ((mergeLoop pBlock lengthTotal blocks).map f).Sublist ((pBlock.toList ++ blocks).map f) := by
  have closed (pBlock : Option MemoryBlock) (n : ℕ) :
      (closeRun pBlock n).map f = pBlock.toList.map f := by
    cases pBlock with
    | none => rfl
    | some p => exact congrArg (fun b => [b]) (blind p n)
  induction blocks generalizing pBlock lengthTotal with
  | nil => rw [mergeLoop, closed, List.append_nil]
  | cons b rest ih =>
    rw [mergeLoop]
    split
    · split
      · rw [List.map_append, List.map_append]
        exact (List.Sublist.refl _).append ih
      · refine ih.trans ?_
        rw [List.map_append, List.map_append]
        exact (List.Sublist.refl _).append ((List.sublist_cons_self b rest).map _)
    · rw [List.map_append, List.map_append, List.map_cons, List.map_cons, closed]
      exact (List.Sublist.refl _).append (ih.cons_cons (f b))

theorem addrs_mergeLoop {pBlock : Option MemoryBlock} {lengthTotal : ℕ} {blocks : List MemoryBlock} :
    ((mergeLoop pBlock lengthTotal blocks).map (·.addr)).Sublist
      ((pBlock.toList ++ blocks).map (·.addr)) := sublist_mergeLoop (·.addr) fun _ _ => rfl

/-- Merging adds up the lengths it merges. -/
theorem total_mergeLoop {pBlock : Option MemoryBlock} {lengthTotal : ℕ} {blocks : List MemoryBlock}
    (opened : OpenRun pBlock lengthTotal) :
    total (mergeLoop pBlock lengthTotal blocks) = lengthTotal + total blocks := by
  have closed {pBlock : Option MemoryBlock} {n : ℕ} (opened : OpenRun pBlock n) :
      total (closeRun pBlock n) = n := by
    cases pBlock with
    | none => exact (show n = 0 from opened).symm
    | some p => simp [closeRun]
  induction blocks generalizing pBlock lengthTotal with
  | nil => rw [mergeLoop, closed opened, total_nil, Nat.add_zero]
  | cons b rest ih =>
    rw [mergeLoop, total_cons]
    split
    · next free =>
      split
      · next starts =>
        obtain rfl : lengthTotal = 0 := by omega
        have reopened : OpenRun (some b) (0 + b.length) := ⟨free, by omega⟩
        rw [← opened.closeRun_zero, total_append, closed opened, ih reopened]
        omega
      · next continues =>
        obtain ⟨p, rfl, extended⟩ := opened.exists_block continues
        rw [ih extended]
        omega
    · have restarted : OpenRun none 0 := rfl
      rw [total_append, closed opened, total_cons, ih restarted]
      omega

/-- Merging leaves the used blocks as they are. -/
theorem used_mergeLoop {pBlock : Option MemoryBlock} {lengthTotal : ℕ} {blocks : List MemoryBlock}
    (opened : OpenRun pBlock lengthTotal) :
    (mergeLoop pBlock lengthTotal blocks).filter (·.state) = blocks.filter (·.state) := by
  have closed (n : ℕ) {pBlock : Option MemoryBlock} {m : ℕ} (opened : OpenRun pBlock m) :
      (closeRun pBlock n).filter (·.state) = [] := by
    cases pBlock with
    | none => rfl
    | some p => simpa [closeRun, MemoryBlock.isFree] using opened.1
  induction blocks generalizing pBlock lengthTotal with
  | nil => rw [mergeLoop, closed _ opened, List.filter_nil]
  | cons b rest ih =>
    rw [mergeLoop]
    split
    · next free =>
      have unused : b.state = false := by simpa [MemoryBlock.isFree] using free
      rw [List.filter_cons_of_neg (by simp [unused])]
      split
      · next starts =>
        obtain rfl : lengthTotal = 0 := by omega
        have reopened : OpenRun (some b) (0 + b.length) := ⟨free, by omega⟩
        rw [← opened.closeRun_zero, List.filter_append, closed _ opened, ih reopened,
          List.nil_append]
      · next continues =>
        obtain ⟨p, rfl, extended⟩ := opened.exists_block continues
        exact ih extended
    · have restarted : OpenRun none 0 := rfl
      rw [List.filter_append, closed _ opened, List.nil_append, List.filter_cons, List.filter_cons,
        ih restarted]

theorem mem_mergeLoop_of_used {blocks : List MemoryBlock} {b : MemoryBlock} (listed : b ∈ blocks)
    (used : b.state = true) : b ∈ mergeLoop none 0 blocks := by
  have inUsed : b ∈ (mergeLoop none 0 blocks).filter (·.state) := by
    rw [used_mergeLoop (show OpenRun none 0 from rfl)]
    exact List.mem_filter.mpr ⟨listed, used⟩
  exact (List.mem_filter.mp inUsed).1

/-! ## `defrag` -/

/-- Blocks moved next to each other from an offset on. -/
def pack : ℕ → List MemoryBlock → List MemoryBlock
  | _, [] => []
  | offset, b :: rest => { b with offset := offset } :: pack (offset + b.length) rest

theorem placed_pack (offset : ℕ) (blocks : List MemoryBlock) :
    Placed (· = ·) offset (pack offset blocks) (offset + total blocks) := by
  induction blocks generalizing offset with
  | nil => rfl
  | cons b rest ih =>
    refine ⟨rfl, ?_⟩
    rw [total_cons, ← Nat.add_assoc]
    exact ih (offset + b.length)

theorem pack_append (offset : ℕ) (first second : List MemoryBlock) :
    pack offset (first ++ second) = pack offset first ++ pack (offset + total first) second := by
  induction first generalizing offset with
  | nil => rfl
  | cons b rest ih => rw [List.cons_append, pack, pack, ih, total_cons, List.cons_append, Nat.add_assoc]

/-- Only the last of the packed blocks can start where they end, and only when it is empty. -/
theorem pack_ne_iff (offset : ℕ) (blocks : List MemoryBlock) :
    (∀ c ∈ pack offset blocks, c.offset ≠ offset + total blocks) ↔
      ∀ d ∈ blocks.getLast?, 0 < d.length := by
  rcases List.eq_nil_or_concat blocks with rfl | ⟨front, d, rfl⟩
  · exact iff_of_true (by simp [pack]) (by simp)
  rw [List.concat_eq_append, pack_append, total_append, total_cons, total_nil]
  constructor
  · intro apart e last
    obtain rfl : d = e := by simpa using last
    have := apart { d with offset := offset + total front } (by simp [pack])
    dsimp only at this
    omega
  · intro positive c member
    have positive := positive d (by simp)
    rcases List.mem_append.mp member with inFront | isLast
    · have placed := Laid.of_eq Placement.le (placed_pack offset front)
      have := (placed.bounds.2 c inFront).2
      omega
    · obtain rfl : c = { d with offset := offset + total front } := by simpa [pack] using isLast
      dsimp only
      omega

/-- Packing changes offsets only. -/
theorem map_pack {β : Type*} (f : MemoryBlock → β)
    (blind : ∀ b offset, f { b with offset := offset } = f b) (offset : ℕ)
    (blocks : List MemoryBlock) : (pack offset blocks).map f = blocks.map f := by
  induction blocks generalizing offset with
  | nil => rfl
  | cons b rest ih => rw [pack, List.map_cons, List.map_cons, blind, ih]

/-- `defrag` packs the used blocks and adds up the free ones. -/
theorem defragLoop_eq (buffer : ℕ → UInt8) (blockLength blockOffset : ℕ)
    (blocks : List MemoryBlock) :
    (defragLoop buffer blockLength blockOffset blocks).2 =
      (pack blockOffset (blocks.filter (·.state)), blockOffset + total (blocks.filter (·.state)),
        blockLength + total (blocks.filter (·.isFree))) := by
  induction blocks generalizing buffer blockLength blockOffset with
  | nil => rfl
  | cons b rest ih =>
    rw [defragLoop]
    cases used : b.state with
    | false =>
      have free : b.isFree = true := by simp [MemoryBlock.isFree, used]
      rw [if_pos free, ih, List.filter_cons_of_neg (by simp [used]), List.filter_cons_of_pos free,
        total_cons, Nat.add_assoc]
    | true =>
      have taken : ¬ b.isFree = true := by simp [MemoryBlock.isFree, used]
      rw [if_neg taken]
      simp only [ih, List.filter_cons_of_pos used, List.filter_cons_of_neg taken, pack, total_cons,
        Nat.add_assoc, used]

end SphereMultithreading.Proofs.P1
