import SphereMultithreading.Machine.Stretch
import SphereMultithreading.Proofs.P1.Blocks

/-! # How `merge_empty_blocks` takes a list apart

A used block separates what is before it from what is behind it. Merging a part of the list first does
not change what merging the whole list gives.
-/

namespace SphereMultithreading.Proofs.P1

open Machine Model.P1 Model.P1.Allocator

variable {pBlock : Option MemoryBlock} {lengthTotal : ℕ} {blocks first rest : List MemoryBlock}
  {b p : MemoryBlock}

/-- With nothing accumulated every free block opens a run. -/
theorem mergeLoop_start (free : b.isFree = true) :
    mergeLoop pBlock 0 (b :: rest) = pBlock.toList ++ mergeLoop (some b) b.length rest := by
  rw [mergeLoop, if_pos free, if_pos (Nat.zero_add _), Nat.zero_add]

theorem mergeLoop_continue (free : b.isFree = true) (positive : 0 < lengthTotal) :
    mergeLoop pBlock lengthTotal (b :: rest) = mergeLoop pBlock (lengthTotal + b.length) rest := by
  rw [mergeLoop, if_pos free, if_neg (by omega)]

/-- An empty block behind a free one with some length goes without a trace. -/
theorem mergeLoop_skip (free : b.isFree = true) (positive : 0 < b.length) (free' : p.isFree = true)
    (empty : p.length = 0) :
    mergeLoop pBlock lengthTotal (b :: p :: rest) = mergeLoop pBlock lengthTotal (b :: rest) := by
  have grown : 0 < lengthTotal + b.length := Nat.add_pos_right _ positive
  have opened (rest : List MemoryBlock) : mergeLoop pBlock lengthTotal (b :: rest) =
      if lengthTotal + b.length = b.length then
        pBlock.toList ++ mergeLoop (some b) (lengthTotal + b.length) rest
      else mergeLoop pBlock (lengthTotal + b.length) rest := by
    rw [mergeLoop, if_pos free]
  rw [opened, opened, mergeLoop_continue free' grown, mergeLoop_continue free' grown, empty,
    Nat.add_zero]

theorem mergeLoop_used (used : b.state = true) :
    mergeLoop pBlock lengthTotal (first ++ b :: rest) =
      mergeLoop pBlock lengthTotal first ++ b :: mergeLoop none 0 rest := by
  induction first generalizing pBlock lengthTotal with
  | nil => rw [List.nil_append, mergeLoop, mergeLoop, if_neg (by simp [MemoryBlock.isFree, used])]
  | cons c first ih =>
    rw [List.cons_append, mergeLoop, mergeLoop]
    split_ifs
    · rw [ih, List.append_assoc]
    · exact ih
    · rw [ih, List.append_assoc, List.cons_append]

/-- The block that opened the run comes first, with some length. -/
theorem mergeLoop_some (p : MemoryBlock) (lengthTotal : ℕ) (blocks : List MemoryBlock) :
    ∃ length rest, mergeLoop (some p) lengthTotal blocks = { p with length := length } :: rest := by
  induction blocks generalizing lengthTotal with
  | nil => exact ⟨lengthTotal, [], rfl⟩
  | cons b rest ih =>
    rw [mergeLoop]
    split_ifs
    · exact ⟨p.length, _, rfl⟩
    · exact ih _
    · exact ⟨lengthTotal, _, rfl⟩

/-- Once something is accumulated, the length of the block that opened the run is not looked at. -/
theorem mergeLoop_setLength (positive : 0 < lengthTotal) (length : ℕ) :
    mergeLoop (some { p with length := length }) lengthTotal blocks =
      mergeLoop (some p) lengthTotal blocks := by
  induction blocks generalizing lengthTotal with
  | nil => rfl
  | cons b rest ih =>
    rw [mergeLoop, mergeLoop]
    split_ifs
    · omega
    · exact ih (Nat.add_pos_left positive _)
    · rfl

/-- Then a run is merged to its end. -/
theorem mergeLoop_free (positive : 0 < lengthTotal) (free : ∀ b ∈ blocks, b.isFree = true) :
    mergeLoop pBlock lengthTotal blocks = closeRun pBlock (lengthTotal + total blocks) := by
  induction blocks generalizing lengthTotal with
  | nil => rfl
  | cons b rest ih =>
    rw [mergeLoop, if_pos (free b List.mem_cons_self), if_neg (by omega),
      ih (Nat.add_pos_left positive _) fun c member => free c (List.mem_cons_of_mem b member),
      total_cons, Nat.add_assoc]

/-- A nonempty free block behind a used one stays, and takes in those behind it. -/
theorem mem_mergeLoop (began : ∀ c ∈ first.getLast?, c.state = true) (free : b.isFree = true) :
    ∃ length, { b with length := length } ∈ mergeLoop none 0 (first ++ b :: rest) := by
  obtain ⟨length, others, opens⟩ := mergeLoop_some b b.length rest
  have here : { b with length := length } ∈ mergeLoop none 0 (b :: rest) := by
    rw [mergeLoop_start free, opens]
    simp
  refine ⟨length, ?_⟩
  rcases List.eq_nil_or_concat first with rfl | ⟨first, c, rfl⟩
  · exact here
  · rw [List.concat_eq_append, List.append_assoc, List.singleton_append, mergeLoop_used (began c (by simp))]
    exact List.mem_append_right _ (List.mem_cons_of_mem c here)

/-- A closed run is opened again by its block. -/
theorem mergeLoop_closeRun (opened : OpenRun pBlock lengthTotal) :
    mergeLoop none 0 (closeRun pBlock lengthTotal ++ blocks) = mergeLoop pBlock lengthTotal blocks := by
  cases pBlock with
  | none =>
    obtain rfl : lengthTotal = 0 := opened
    rfl
  | some p =>
    obtain ⟨free, short⟩ := opened
    have free' : ({ p with length := lengthTotal } : MemoryBlock).isFree = true := free
    refine (mergeLoop_start free').trans ?_
    rcases Nat.eq_zero_or_pos lengthTotal with rfl | positive
    · rw [show { p with length := 0 } = p by rw [← Nat.le_zero.mp short], Nat.le_zero.mp short]
      rfl
    · exact mergeLoop_setLength positive lengthTotal

/-- What is merged already may stand in front. -/
theorem mergeLoop_absorb (opened : OpenRun pBlock lengthTotal) :
    mergeLoop none 0 (mergeLoop pBlock lengthTotal first ++ rest) =
      mergeLoop pBlock lengthTotal (first ++ rest) := by
  induction first generalizing pBlock lengthTotal with
  | nil => exact mergeLoop_closeRun opened
  | cons b first ih =>
    rw [List.cons_append, mergeLoop, mergeLoop]
    split_ifs with free starts
    · obtain rfl : lengthTotal = 0 := by omega
      have reopened : OpenRun (some b) (0 + b.length) := ⟨free, by omega⟩
      cases pBlock with
      | none => exact ih reopened
      | some p =>
        -- an empty block is left in front of the run
        obtain ⟨length, others, begins⟩ := mergeLoop_some b (0 + b.length) first
        have free' : ({ b with length := length } : MemoryBlock).isFree = true := free
        have next : mergeLoop (some p) 0 (mergeLoop (some b) (0 + b.length) first ++ rest) =
            p :: mergeLoop none 0 (mergeLoop (some b) (0 + b.length) first ++ rest) := by
          rw [begins, List.cons_append, mergeLoop_start free', mergeLoop_start free']
          rfl
        change mergeLoop none 0 (p :: (mergeLoop (some b) (0 + b.length) first ++ rest)) = _
        rw [mergeLoop_start opened.1, Nat.le_zero.mp opened.2, next, ih reopened]
        rfl
    · obtain ⟨p, rfl, extended⟩ := opened.exists_block starts
      exact ih extended
    · have used : b.state = true := by simpa [MemoryBlock.isFree] using free
      rw [List.append_assoc, List.cons_append, mergeLoop_used used]
      have closed : mergeLoop none 0 (closeRun pBlock lengthTotal ++ []) =
          mergeLoop pBlock lengthTotal [] := mergeLoop_closeRun opened
      rw [List.append_nil, mergeLoop] at closed
      have restarted : OpenRun none 0 := rfl
      rw [closed, ih restarted]

/-- Lists that are merged alike are merged alike behind any other list. -/
theorem mergeLoop_congr {rest' : List MemoryBlock}
    (alike : ∀ pBlock lengthTotal, mergeLoop pBlock lengthTotal rest = mergeLoop pBlock lengthTotal rest')
    (pBlock : Option MemoryBlock) (lengthTotal : ℕ) (first : List MemoryBlock) :
    mergeLoop pBlock lengthTotal (first ++ rest) = mergeLoop pBlock lengthTotal (first ++ rest') := by
  induction first generalizing pBlock lengthTotal with
  | nil => exact alike pBlock lengthTotal
  | cons b first ih =>
    rw [List.cons_append, List.cons_append, mergeLoop, mergeLoop]
    split_ifs
    · rw [ih]
    · exact ih _ _
    · rw [ih]

/-- What is merged already may stand behind. -/
theorem mergeLoop_merged (opened : OpenRun pBlock lengthTotal) (qBlock : Option MemoryBlock) (n : ℕ) :
    mergeLoop qBlock n (mergeLoop pBlock lengthTotal blocks) =
      mergeLoop qBlock n (closeRun pBlock lengthTotal ++ blocks) := by
  induction blocks generalizing pBlock lengthTotal qBlock n with
  | nil => rw [mergeLoop, List.append_nil]
  | cons b rest ih =>
    rw [mergeLoop]
    split_ifs with free starts
    · obtain rfl : lengthTotal = 0 := by omega
      have reopened : OpenRun (some b) (0 + b.length) := ⟨free, by omega⟩
      rw [opened.closeRun_zero]
      refine mergeLoop_congr (fun qBlock n => ?_) qBlock n _
      rw [ih reopened, Nat.zero_add]
      rfl
    · obtain ⟨p, rfl, extended⟩ := opened.exists_block starts
      rw [ih extended]
      have positive : 0 < lengthTotal := by omega
      have free' (length : ℕ) : ({ p with length := length } : MemoryBlock).isFree = true := opened.1
      change mergeLoop qBlock n ({ p with length := lengthTotal + b.length } :: rest) =
        mergeLoop qBlock n ({ p with length := lengthTotal } :: b :: rest)
      rcases Nat.eq_zero_or_pos n with rfl | accumulated
      · rw [mergeLoop_start (free' _), mergeLoop_start (free' _), mergeLoop_continue free positive,
          mergeLoop_setLength (Nat.add_pos_left positive _) (lengthTotal + b.length),
          mergeLoop_setLength (Nat.add_pos_left positive _) lengthTotal]
      · rw [mergeLoop_continue (free' _) accumulated, mergeLoop_continue (free' _) accumulated,
          mergeLoop_continue free (Nat.add_pos_left accumulated _), Nat.add_assoc]
    · refine mergeLoop_congr (fun qBlock n => ?_) qBlock n _
      have used : b.state = true := by simpa [MemoryBlock.isFree] using free
      have restarted : OpenRun none 0 := rfl
      rw [← List.nil_append (b :: mergeLoop none 0 rest), ← List.nil_append (b :: rest),
        mergeLoop_used used, mergeLoop_used used, ih restarted]
      rfl

/-- Merging first on either side of a block changes nothing. -/
theorem mergeLoop_around (first rest : List MemoryBlock) (b : MemoryBlock) :
    mergeLoop none 0 (mergeLoop none 0 first ++ b :: mergeLoop none 0 rest) =
      mergeLoop none 0 (first ++ b :: rest) := by
  have restarted : OpenRun none 0 := rfl
  have behind : _ = mergeLoop none 0 (_ ++ rest) := mergeLoop_congr (mergeLoop_merged restarted) none 0 (first ++ [b])
  rw [List.append_assoc, List.append_assoc] at behind
  exact (mergeLoop_absorb restarted).trans behind

end SphereMultithreading.Proofs.P1
