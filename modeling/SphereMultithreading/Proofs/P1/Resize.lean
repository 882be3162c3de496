import SphereMultithreading.Machine.Stretch
import SphereMultithreading.Proofs.P1.Blocks

/-! # The search and the growing branch of `realloc`

`fitting` is the run of blocks the search is for: the first maximal run of free blocks, the block
being resized counting as free, whose lengths add up to the request. `candidateLoop_eq` shows that
the code's loop returns the first nonempty block of that run and the length of the run, and
`grow_blocks` what the growing branch makes of the list around it.
-/

namespace SphereMultithreading.Proofs.P1

open Machine Model.P1 Model.P1.Allocator Layout

/-- The first run of joining blocks of total length at least `N`, and the blocks behind it. The
first argument is the run that ends where the list starts. -/
def fitting (own N : ℕ) : List MemoryBlock → List MemoryBlock →
    Option (List MemoryBlock × List MemoryBlock)
  | run, [] => if N ≤ total run then some (run, []) else none
  | run, b :: rest =>
      if Joins own b then fitting own N (run ++ [b]) rest
      else if N ≤ total run then some (run, b :: rest)
      else fitting own N [] rest

/-- The address of the first block of a run that is not empty. -/
def leader (run : List MemoryBlock) : Option ℕ := (run.find? (0 < ·.length)).map (·.addr)

private theorem leader_append (run : List MemoryBlock) (b : MemoryBlock)
    (nonempty : 0 < total (run ++ [b])) :
    leader (run ++ [b]) = if total run = 0 then some b.addr else leader run := by
  rw [leader, List.find?_append]
  split
  · next empty =>
    have none : run.find? (0 < ·.length) = none := by
      rw [List.find?_eq_none]
      intro c member
      simp [total_eq_zero_iff.mp empty c member]
    have positive : 0 < b.length := by simpa [empty] using nonempty
    simp [none, positive]
  · next full =>
    cases found : run.find? (0 < ·.length) with
    | some c => simp [leader, found]
    | none =>
      refine absurd (total_eq_zero_iff.mpr fun c member => ?_) full
      simpa using List.find?_eq_none.mp found c member

/-- The search returns the first nonempty block of the fitting run with the run's length, and a
shorter length when there is no such run. -/
theorem candidateLoop_eq {own N : ℕ} {candidate : Option ℕ} {run blocks : List MemoryBlock}
    (leads : 0 < total run → candidate = leader run) (positive : 0 < N) :
    (∀ fit after, fitting own N run blocks = some (fit, after) →
      candidateLoop own N candidate (total run) blocks = (leader fit, total fit)) ∧
    (fitting own N run blocks = none →
      (candidateLoop own N candidate (total run) blocks).2 < N) := by
  induction blocks generalizing candidate run with
  | nil =>
    simp only [fitting, candidateLoop]
    split
    · next fits => simp [leads (by omega)]
    · next short => simpa using short
  | cons b rest ih =>
    simp only [fitting, candidateLoop]
    split
    · next joins =>
      have leads' : 0 < total (run ++ [b]) →
          (if total run = 0 then some b.addr else candidate) = leader (run ++ [b]) := by
        intro nonempty
        rw [leader_append run b nonempty]
        split
        · rfl
        · next full => exact leads (Nat.pos_of_ne_zero full)
      simpa using ih leads'
    · split
      · next fits => simp [leads (by omega)]
      · exact ih (show 0 < total [] → none = leader [] by simp)

/-- The fitting run is a part of the list, made of joining blocks, long enough, with a block that does
not join or an end of the list on either side. -/
theorem fitting_eq_some {own N : ℕ} {run blocks fit after : List MemoryBlock}
    (joins : ∀ b ∈ run, Joins own b) (success : fitting own N run blocks = some (fit, after)) :
    N ≤ total fit ∧ (∀ b ∈ fit, Joins own b) ∧ (∀ b ∈ after.head?, ¬ Joins own b) ∧
      ∃ before, run ++ blocks = before ++ (fit ++ after) ∧ ∀ b ∈ before.getLast?, ¬ Joins own b := by
  induction blocks generalizing run with
  | nil =>
    rw [fitting] at success
    split at success
    · next fits => cases success; exact ⟨fits, joins, by simp, [], rfl, by simp⟩
    · contradiction
  | cons b rest ih =>
    rw [fitting] at success
    split at success
    · next joined =>
      have all : ∀ c ∈ run ++ [b], Joins own c := by
        simpa [or_imp, forall_and] using ⟨joins, joined⟩
      obtain ⟨fits, joins', ended, before, cut, began⟩ := ih all success
      exact ⟨fits, joins', ended, before, by simpa using cut, began⟩
    · next apart =>
      split at success
      · next fits => cases success; exact ⟨fits, joins, by simpa using apart, [], rfl, by simp⟩
      · have restarted : ∀ c ∈ ([] : List MemoryBlock), Joins own c := by simp
        obtain ⟨fits, joins', ended, before, cut, began⟩ := ih restarted success
        refine ⟨fits, joins', ended, run ++ b :: before, by simpa using cut, ?_⟩
        rw [List.getLast?_append_of_ne_nil _ (List.cons_ne_nil b before)]
        cases before with
        | nil => simpa using apart
        | cons c before => simpa using began

/-- The search fails exactly if every run is too short. -/
theorem fitting_eq_none_iff {own N : ℕ} {run blocks : List MemoryBlock}
    (joins : ∀ b ∈ run, Joins own b) : fitting own N run blocks = none ↔
      ∀ stretch, IsStretch (Joins own) stretch (run ++ blocks) → total stretch < N := by
  induction blocks generalizing run with
  | nil =>
    rw [List.append_nil, fitting]
    simp only [isStretch_of_all joins, forall_eq]
    split <;> simp <;> omega
  | cons b rest ih =>
    rw [fitting]
    split
    · next joined =>
      have all : ∀ c ∈ run ++ [b], Joins own c := by
        simpa [or_imp, forall_and] using ⟨joins, joined⟩
      rw [List.append_cons run b rest]
      exact ih all
    · next apart =>
      have restarted : ∀ c ∈ ([] : List MemoryBlock), Joins own c := by simp
      simp only [isStretch_append_cons joins apart, or_imp, forall_and, forall_eq]
      split
      · next fits => simp; omega
      · next short =>
        rw [ih restarted, List.nil_append]
        exact (and_iff_right (Nat.not_le.mp short)).symm

/-- A long enough run, cut at its first nonempty block. -/
theorem exists_leader {run : List MemoryBlock} (nonempty : 0 < total run) :
    ∃ empty lead rest, run = empty ++ lead :: rest ∧ leader run = some lead.addr ∧
      total run = lead.length + total rest := by
  cases found : run.find? (0 < ·.length) with
  | none =>
    have zero : total run = 0 := total_eq_zero_iff.mpr fun c member => by
      simpa using List.find?_eq_none.mp found c member
    omega
  | some lead =>
    obtain ⟨-, empty, rest, rfl, zero⟩ := List.find?_eq_some_iff_append.mp found
    have front : total empty = 0 := total_eq_zero_iff.mpr fun c member => by
      simpa using zero c member
    exact ⟨empty, lead, rest, rfl, by simp [leader, found], by simp [front]⟩

/-- The list around the run, cut at its first nonempty block. -/
structure RunAt (blocks : List MemoryBlock) (own : ℕ) (lead : MemoryBlock)
    (pre mid after : List MemoryBlock) : Prop where
  cut : blocks = pre ++ lead :: (mid ++ after)
  joins : ∀ c ∈ lead :: mid, Joins own c
  nonempty : 0 < lead.length
  began : ∃ before empties, pre = before ++ empties ∧ (∀ c ∈ before.getLast?, ¬ Joins own c) ∧
    ∀ c ∈ empties, c.length = 0

theorem RunAt.of_fitting {a : Allocator} {own lead : MemoryBlock} {N : ℕ}
    {pre mid after fit : List MemoryBlock} (nodup : (a.blocks.map (·.addr)).Nodup)
    (cut : a.blocks = pre ++ lead :: (mid ++ after)) (joins : ∀ c ∈ lead :: mid, Joins own.addr c)
    (fits : fitting own.addr N [] a.blocks = some (fit, after)) (leads : leader fit = some lead.addr) :
    RunAt a.blocks own.addr lead pre mid after ∧ lead ∈ fit ∧ total fit = lead.length + total mid := by
  obtain ⟨-, -, -, before, cut', began⟩ := fitting_eq_some (by simp) fits
  rw [List.nil_append] at cut'
  obtain ⟨first, found, same⟩ := Option.map_eq_some_iff.mp leads
  obtain ⟨nonempty, empties, rest, rfl, empty⟩ := List.find?_eq_some_iff_append.mp found
  obtain rfl : first = lead := eq_of_addr nodup (by simp [cut']) (by simp [cut]) same
  rw [cut] at nodup cut'
  have regrouped : before ++ (empties ++ first :: rest ++ after) =
      before ++ empties ++ first :: (rest ++ after) := by simp
  obtain ⟨around, run⟩ := cut_unique nodup (cut'.trans regrouped)
  obtain rfl := List.append_cancel_right run
  have zero : ∀ c ∈ empties, c.length = 0 := fun c member => by simpa using empty c member
  refine ⟨⟨cut, joins, by simpa using nonempty, before, empties, around, began, zero⟩, by simp, ?_⟩
  rw [total_append, total_cons, total_eq_zero_iff.mpr zero, Nat.zero_add]

/-! ## The two branches -/

/-- The shrinking branch cuts the end off the block. -/
theorem shrink_blocks {a : Allocator} {own : MemoryBlock} {N : ℕ}
    (nodup : (a.blocks.map (·.addr)).Nodup) (member : own ∈ a.blocks) :
    ∃ pre post, a.blocks = pre ++ own :: post ∧
      (a.shrink own N).blocks = pre ++ { own with length := N } ::
        .new a.nextAddr (own.offset + N) (own.length - N) :: post := by
  obtain ⟨pre, post, cut⟩ := List.append_of_mem member
  rw [cut] at nodup
  obtain ⟨front, behind⟩ := addr_ne_of_cut nodup
  refine ⟨pre, post, cut, ?_⟩
  rw [shrink, cut]
  dsimp only
  rw [update_cut _ front behind]
  exact insertAfter_cut front rfl

/-- The growing branch turns the candidate into the resized block and drops the joining blocks
behind it, those of the run and those of the whole rest of the list. The resized block ends up
free exactly if it was the candidate itself. -/
theorem grow_blocks {a : Allocator} {own lead : MemoryBlock} {N : ℕ}
    {pre mid after : List MemoryBlock} (nodup : (a.blocks.map (·.addr)).Nodup)
    (cut : a.blocks = pre ++ lead :: (mid ++ after)) (joins : ∀ b ∈ mid, Joins own.addr b) (n : ℕ) :
    (a.grow own lead n N).blocks =
      update own.addr (fun b => { b with state := false }) pre ++
        { lead with length := N, state := decide (lead.addr ≠ own.addr) } ::
        .new a.nextAddr (lead.offset + N) (n - N) ::
        after.filter (fun c => ¬ Joins own.addr c) := by
  rw [cut] at nodup
  obtain ⟨front, behind⟩ := addr_ne_of_cut nodup
  have merged : mid.filter (fun c => ¬ Joins own.addr c) = [] :=
    List.filter_eq_nil_iff.mpr fun c inMid => by simpa using joins c inMid
  have foreign : ∀ c ∈ after.filter (fun c => ¬ Joins own.addr c), c.addr ≠ own.addr := by
    intro c inAfter same
    simp [Joins, same] at inAfter
  have behind' : ∀ c ∈ after.filter (fun c => ¬ Joins own.addr c), c.addr ≠ lead.addr :=
    fun c inAfter => behind c (List.mem_append_right mid (List.mem_filter.mp inAfter).1)
  have front' : ∀ c ∈ update own.addr (fun b => { b with state := false }) pre,
      c.addr ≠ lead.addr := by
    intro c updated
    obtain ⟨d, inPre, rfl⟩ := List.mem_map.mp updated
    have apart := front d inPre
    split <;> exact apart
  have rest := update_of_ne (fun b => { b with state := false }) foreign
  rw [grow]
  dsimp only
  rw [cut, eraseMerged_cut front rfl, List.filter_append, merged, List.nil_append,
    update_cut _ front behind']
  simp only [update] at rest front' ⊢
  rw [List.map_append, List.map_cons, rest, insertAfter_cut front' (by split <;> rfl)]
  by_cases same : lead.addr = own.addr <;> simp [same]

/-- What `realloc` does with a listed block: `own` is the first block at its offset. -/
theorem realloc_cases {a : Allocator} {b own : MemoryBlock} (N : ℕ)
    (nodup : (a.blocks.map (·.addr)).Nodup) (member : b ∈ a.blocks)
    (found : a.findBlock b.offset = some own) :
    (own.length = N ∧ a.realloc ⟨some b.addr⟩ N = some (.ok (), ⟨some b.addr⟩, a)) ∨
    (N < own.length ∧ a.realloc ⟨some b.addr⟩ N =
      some (.ok (), ⟨some b.addr⟩, (a.shrink own N).mergeEmptyBlocks)) ∨
    (own.length < N ∧ fitting own.addr N [] a.blocks = none ∧ a.realloc ⟨some b.addr⟩ N =
      some (.error ⟨.NoMemory, "ERROR in realloc, no memory!\n"⟩, ⟨some b.addr⟩, a)) ∨
    (own.length < N ∧ ∃ fit pre lead mid after,
      fitting own.addr N [] a.blocks = some (fit, after) ∧ leader fit = some lead.addr ∧
      a.blocks = pre ++ lead :: (mid ++ after) ∧ (∀ c ∈ lead :: mid, Joins own.addr c) ∧
      total fit = lead.length + total mid ∧ N ≤ total fit ∧ a.realloc ⟨some b.addr⟩ N =
        some (.ok (), ⟨some lead.addr⟩, (a.grow own lead (total fit) N).mergeEmptyBlocks)) := by
  have designated : a.block? b.addr = some b := find?_addr nodup member
  simp only [realloc, designated, found, Option.bind_eq_bind, Option.bind_some]
  rcases Nat.lt_trichotomy own.length N with short | same | long
  · rw [if_neg (by omega), if_neg (by omega)]
    have empty : 0 < total [] → (none : Option ℕ) = leader [] := by simp
    obtain ⟨hit, miss⟩ := @candidateLoop_eq own.addr N none [] a.blocks empty (by omega)
    rw [total_nil] at hit miss
    cases fits : fitting own.addr N [] a.blocks with
    | none =>
      refine Or.inr (Or.inr (Or.inl ⟨short, rfl, ?_⟩))
      rw [if_pos (miss fits)]
    | some result =>
      obtain ⟨fit, after⟩ := result
      obtain ⟨enough, joins, -, before, cut, -⟩ := fitting_eq_some (by simp) fits
      obtain ⟨front, lead, mid, rfl, leads, sum⟩ := exists_leader (show 0 < total fit by omega)
      refine Or.inr (Or.inr (Or.inr ⟨short, front ++ lead :: mid, before ++ front, lead, mid, after,
        rfl, leads, by simpa using cut, fun c inRun => joins c (List.mem_append_right front inRun),
        sum, enough, ?_⟩))
      have listed : lead ∈ a.blocks := by
        rw [← List.nil_append a.blocks, cut]
        simp
      have designates : a.block? lead.addr = some lead := find?_addr nodup listed
      rw [hit _ _ fits, if_neg (by omega)]
      simp only [leads, Option.bind_some, designates]
  · exact Or.inl ⟨same, by rw [if_pos same]⟩
  · exact Or.inr (Or.inl ⟨long, by rw [if_neg (by omega), if_pos long]⟩)

end SphereMultithreading.Proofs.P1
