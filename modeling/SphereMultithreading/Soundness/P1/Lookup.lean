import SphereMultithreading.Machine.Run
import SphereMultithreading.Proofs.P1.Growth
import SphereMultithreading.Proofs.P1.Owners

/-! # When `find_block` finds the Pointer's own block

The lookup goes by offset and takes the first match, so an empty block hides what is behind it at its
offset. Such blocks come from requests for nothing, from a run that fits exactly, and from `defrag`,
which moves a block behind an empty one to where that one is. And a Pointer's block is not found once
merging erases it, which happens where a live Pointer designates a free block. `KeepsFound` says of each
call when it does neither.
-/

namespace SphereMultithreading.Soundness.P1

open Machine Layout Model.P1 Model.P1.Allocator Proofs.P1

/-- `find_block` of the Pointer returns the node the Pointer designates. -/
def FindsOwn (a : Allocator) (p : Pointer) : Prop :=
  ∃ b, p.pBlock.bind a.block? = some b ∧ a.findBlock b.offset = some b

/-- Growing moves the block to one in front of which none has its offset, and of every other live
Pointer neither erases the block nor puts an empty one before it. -/
def GrowsClear (s : Session) (i N : ℕ) (b lead : MemoryBlock) (fit after : List MemoryBlock) : Prop :=
  (lead ≠ b → ¬ Hidden s.allocator.blocks lead) ∧
    ∀ j k c, j ≠ i → Names s j k c →
      (Joins b.addr c → c ∉ after ∧ ¬ BehindRoom (Joins b.addr) s.allocator.blocks c) ∧
        (lead ≠ b → total fit = N → c.offset ≠ lead.offset + N)

/-- No empty block comes to stand in front of a live Pointer's block at its offset, and none that a
live Pointer designates is erased. -/
def KeepsFound (s : Session) : Call → Prop
  | .alloc N | .reallocNull N => ∀ b,
      s.allocator.blocks.find? (fun b => b.isFree ∧ N ≤ b.length) = some b →
        ¬ Hidden s.allocator.blocks b
  | .free i => ∃ h b, Names s i h b ∧ ∀ j k c, j ≠ i → Names s j k c →
      Joins b.addr c → ¬ BehindRoom (Joins b.addr) s.allocator.blocks c
  | .realloc i N => ∃ h b, Names s i h b ∧
      (N < b.length → ∀ j k c, Names s j k c →
        c.isFree = true → ¬ BehindRoom (Joins b.addr) s.allocator.blocks c) ∧
      (b.length < N → ∀ fit after lead,
        fitting b.addr N [] s.allocator.blocks = some (fit, after) → lead ∈ fit →
          leader fit = some lead.addr → GrowsClear s i N b lead fit after)
  | .defrag => ∀ j k c, Names s j k c → c.state = true ∧ ∀ front rest,
      s.allocator.blocks.filter (·.state) = front ++ c :: rest → ∀ d ∈ front.getLast?, 0 < d.length
  | .freeNull => True

theorem findsOwn_some_iff {a : Allocator} {addr : ℕ} (nodup : (a.blocks.map (·.addr)).Nodup) :
    FindsOwn a ⟨some addr⟩ ↔ Leads (places a.blocks) addr := by
  constructor
  · rintro ⟨b, designated, found⟩
    obtain ⟨listed, rfl⟩ := block?_eq_some designated
    exact (leads_places_iff nodup listed).mpr found
  · intro leads
    have member := leads.mem
    rw [map_fst_places] at member
    obtain ⟨b, listed, rfl⟩ := List.mem_map.mp member
    exact ⟨b, find?_addr nodup listed, (leads_places_iff nodup listed).mp leads⟩

/-- The invariant: blocks in order, and every live Pointer finds its own. -/
private structure Findable (S : ℕ) (s : Session) : Prop where
  valid : WellPlaced (· ≤ ·) S s.allocator
  finds : ∀ h ∈ s.live, FindsOwn s.allocator h.pointer

namespace Findable

variable {S : ℕ} {s t : Session} {call : Call}

private theorem real (found : Findable S s) : ∀ h ∈ s.live, h.pointer.pBlock.isSome := by
  intro h member
  obtain ⟨b, designated, -⟩ := found.finds h member
  obtain ⟨addr, same, -⟩ := Option.bind_eq_some_iff.mp designated
  exact Option.isSome_iff_exists.mpr ⟨addr, same⟩

private theorem exists_names (found : Findable S s) {i : ℕ} {h : LivePointer}
    (live : s.live[i]? = some h) : ∃ b, Names s i h b ∧ Leads (places s.allocator.blocks) b.addr := by
  obtain ⟨b, designated, same⟩ := found.finds h (List.mem_of_getElem? live)
  obtain ⟨addr, here, designated⟩ := Option.bind_eq_some_iff.mp designated
  obtain ⟨listed, rfl⟩ := block?_eq_some designated
  have leads := (leads_places_iff found.valid.nodup listed).mpr same
  exact ⟨b, ⟨live, listed, congrArg Pointer.mk here⟩, leads⟩

private theorem leads (found : Findable S s) {i : ℕ} {h : LivePointer} {b : MemoryBlock}
    (names : Names s i h b) : Leads (places s.allocator.blocks) b.addr := by
  have finds := found.finds h (List.mem_of_getElem? names.live)
  rw [names.designates] at finds
  exact (findsOwn_some_iff found.valid.nodup).mp finds

private theorem unique (found : Findable S s) {i : ℕ} {h k : LivePointer} {b c : MemoryBlock}
    (names : Names s i h b) (names' : Names s i k c) : h = k ∧ b = c := by
  obtain rfl := Option.some.inj (names.live.symm.trans names'.live)
  exact ⟨rfl, eq_of_addr found.valid.nodup names.listed names'.listed
    (by simpa [names.designates] using names'.designates)⟩

/-- What a change of the blocks means for some of the live Pointers. -/
private theorem finds_iff (found : Findable S s) {a : Allocator} (nodup : (a.blocks.map (·.addr)).Nodup)
    {Q : MemoryBlock → Prop} (spared : ∀ c ∈ s.allocator.blocks,
      Leads (places s.allocator.blocks) c.addr → (Leads (places a.blocks) c.addr ↔ Q c))
    (among : ℕ → Prop) :
    (∀ j k, among j → s.live[j]? = some k → FindsOwn a k.pointer) ↔
      ∀ j k c, among j → Names s j k c → Q c := by
  constructor
  · intro finds j k c chosen names
    have own := finds j k chosen names.live
    rw [names.designates, findsOwn_some_iff nodup] at own
    exact (spared c names.listed (found.leads names)).mp own
  · intro kept j k chosen live
    obtain ⟨c, names, leads⟩ := found.exists_names live
    rw [names.designates, findsOwn_some_iff nodup]
    exact (spared c names.listed leads).mpr (kept j k c chosen names)

private theorem finds_all_iff (found : Findable S s) {a : Allocator}
    (nodup : (a.blocks.map (·.addr)).Nodup) {Q : MemoryBlock → Prop} (spared : ∀ c ∈ s.allocator.blocks,
      Leads (places s.allocator.blocks) c.addr → (Leads (places a.blocks) c.addr ↔ Q c)) :
    (∀ h ∈ s.live, FindsOwn a h.pointer) ↔ ∀ j k c, Names s j k c → Q c := by
  have all := found.finds_iff nodup spared fun _ => True
  simp only [true_imp_iff] at all
  rw [← all]
  constructor
  · exact fun finds j k live => finds k (List.mem_of_getElem? live)
  · intro finds h member
    obtain ⟨j, live⟩ := List.mem_iff_getElem?.mp member
    exact finds j h live

private theorem forall_eraseIdx {P : LivePointer → Prop} (i : ℕ) (live : List LivePointer) :
    (∀ h ∈ live.eraseIdx i, P h) ↔ ∀ j k, j ≠ i → live[j]? = some k → P k := by
  simp only [List.mem_eraseIdx_iff_getElem?]
  constructor
  · intro all j k apart at_
    exact all k ⟨j, apart, at_⟩
  · rintro all k ⟨j, apart, at_⟩
    exact all j k apart at_

private theorem forall_set {P : LivePointer → Prop} {i : ℕ} {live : List LivePointer} {h : LivePointer}
    (at_ : live[i]? = some h) (h' : LivePointer) :
    (∀ k ∈ live.set i h', P k) ↔ P h' ∧ ∀ j k, j ≠ i → live[j]? = some k → P k := by
  rw [← forall_eraseIdx, ← List.forall_mem_cons]
  exact forall_congr' fun k => imp_congr_left (set_perm at_ h').mem_iff

private theorem forall_set_pointer {P : Pointer → Prop} {i : ℕ} {live : List LivePointer}
    {h : LivePointer} (at_ : live[i]? = some h) (N : ℕ) :
    (∀ k ∈ live.set i ⟨h.pointer, N⟩, P k.pointer) ↔ ∀ k ∈ live, P k.pointer := by
  rw [forall_set (P := fun k => P k.pointer) at_]
  constructor
  · rintro ⟨own, rest⟩ k member
    obtain ⟨j, live⟩ := List.mem_iff_getElem?.mp member
    rcases eq_or_ne j i with rfl | apart
    · obtain rfl := Option.some.inj (at_.symm.trans live)
      exact own
    · exact rest j k apart live
  · intro all
    exact ⟨all h (List.mem_of_getElem? at_), fun j k _ live => all k (List.mem_of_getElem? live)⟩

/-- A call that hands out a Pointer takes the first block that fits. -/
private theorem alloc_iff (found : Findable S s) {N addr : ℕ} {blocks : List MemoryBlock}
    (success : allocLoop s.allocator.nextAddr N s.allocator.blocks = some (blocks, addr)) :
    (∀ h ∈ s.live ++ [⟨⟨some addr⟩, N⟩], FindsOwn (s.allocator.alloc N).2 h.pointer) ↔
      ∀ b, s.allocator.blocks.find? (fun b => b.isFree ∧ N ≤ b.length) = some b →
        ¬ Hidden s.allocator.blocks b := by
  have nodup := (found.valid.alloc Placement.le N).nodup
  obtain ⟨b, first, rfl⟩ := find?_of_allocLoop success
  have listed := List.mem_of_find?_eq_some first
  have before : ∀ h ∈ s.live, FindsOwn (s.allocator.alloc N).2 h.pointer := by
    intro h member
    obtain ⟨j, live⟩ := List.mem_iff_getElem?.mp member
    obtain ⟨c, names, leads⟩ := found.exists_names live
    rw [names.designates, findsOwn_some_iff nodup, leads_alloc_iff found.valid names.listed]
    exact leads
  rw [List.forall_mem_append, and_iff_right before, List.forall_mem_singleton, findsOwn_some_iff nodup,
    leads_alloc_iff found.valid listed, leads_iff_not_hidden found.valid.nodup listed, first]
  simp

private theorem grow_iff (found : Findable S s) {i N : ℕ} {h : LivePointer} {b lead : MemoryBlock}
    {fit pre mid after : List MemoryBlock} (names : Names s i h b) (shorter : b.length < N)
    (fits : fitting b.addr N [] s.allocator.blocks = some (fit, after))
    (leads : leader fit = some lead.addr) (cut : s.allocator.blocks = pre ++ lead :: (mid ++ after))
    (joins : ∀ c ∈ lead :: mid, Joins b.addr c) (enough : N ≤ lead.length + total mid) :
    (∀ h ∈ s.live.set i ⟨⟨some lead.addr⟩, N⟩,
      FindsOwn (s.allocator.grow b lead (lead.length + total mid) N).mergeEmptyBlocks h.pointer) ↔
      GrowsClear s i N b lead fit after := by
  obtain ⟨run, -, sum⟩ := RunAt.of_fitting found.valid.nodup cut joins fits leads
  have positive : 0 < N := by omega
  have nodup := ((found.valid.grow Placement.le cut run.joins_mid enough
    fun _ _ _ => Nat.le_add_right _ _).mergeEmptyBlocks Placement.le).nodup
  rw [forall_set names.live, findsOwn_some_iff nodup,
    leads_grow_lead_iff found.valid run enough positive (found.leads names),
    found.finds_iff nodup (fun c listed leads =>
      leads_grow_iff found.valid run enough positive names.listed listed leads) (· ≠ i),
    GrowsClear, sum]

/-- Where nothing is handed out, no block fits. -/
private theorem find?_eq_none {N : ℕ}
    (fails : s.step (.alloc N) = some s ∨ s.step (.reallocNull N) = some s) :
    s.allocator.blocks.find? (fun b => b.isFree ∧ N ≤ b.length) = none := by
  cases success : allocLoop s.allocator.nextAddr N s.allocator.blocks with
  | none =>
    refine List.find?_eq_none.mpr fun b listed => ?_
    have := allocLoop_eq_none.mp success b listed
    simpa using this
  | some result =>
    have ran : s.allocator.alloc N = (.ok ⟨some result.2⟩, (s.allocator.alloc N).2) := by
      rw [Allocator.alloc, success]
    have longer : ∀ a : Allocator, some (Session.mk a (s.live ++ [⟨⟨some result.2⟩, N⟩])) ≠ some s := by
      intro a same
      have := congrArg (fun s : Session => s.live.length) (Option.some.inj same)
      simp at this
    rcases fails with stepped | stepped
    · rw [Session.step, ran] at stepped
      exact absurd stepped (longer _)
    · simp only [Session.step, Allocator.realloc] at stepped
      rw [ran] at stepped
      exact absurd stepped (longer _)

private theorem own_eq (found : Findable S s) {i : ℕ} {h : LivePointer} {b own : MemoryBlock}
    (names : Names s i h b) (hit : s.allocator.findBlock b.offset = some own) : own = b := by
  have first := (leads_places_iff found.valid.nodup names.listed).mp (found.leads names)
  exact Option.some.inj (hit.symm.trans first)

/-- A step keeps every Pointer's own block to be found exactly if the call meets the condition. -/
private theorem step_iff (stepped : s.step call = some t) (found : Findable S s) :
    (∀ h ∈ t.live, FindsOwn t.allocator h.pointer) ↔ KeepsFound s call := by
  have nodup := found.valid.nodup
  have change := step_change nodup found.real stepped
  cases change with
  | alloc success | reallocNull success => exact found.alloc_iff success
  | allocFails N =>
    refine iff_of_true found.finds fun b first => ?_
    rw [find?_eq_none (.inl stepped)] at first
    contradiction
  | reallocNullFails N =>
    refine iff_of_true found.finds fun b first => ?_
    rw [find?_eq_none (.inr stepped)] at first
    contradiction
  | @free i h b names =>
    have nodup' : ((released s.allocator b.addr).mergeEmptyBlocks.blocks.map (·.addr)).Nodup :=
      ((found.valid.setState b.addr false).mergeEmptyBlocks Placement.le).nodup
    refine (forall_eraseIdx i s.live).trans ((found.finds_iff nodup' (fun c listed leads =>
      leads_released_iff nodup listed leads b.addr) (· ≠ i)).trans ?_)
    constructor
    · exact fun spared => ⟨h, b, names, spared⟩
    · rintro ⟨k, c, names', spared⟩
      obtain ⟨rfl, rfl⟩ := found.unique names names'
      exact spared
  | @same i N h b own names hit equal =>
    obtain rfl := found.own_eq names hit
    refine iff_of_true ((forall_set names.live _).mpr ⟨?_, fun j k _ live => ?_⟩)
      ⟨h, own, names, fun _ => by omega, fun _ => by omega⟩
    · exact found.finds h (List.mem_of_getElem? names.live)
    · exact found.finds k (List.mem_of_getElem? live)
  | @shrink i N h b own names hit longer =>
    obtain rfl := found.own_eq names hit
    have nodup' : ((s.allocator.shrink own N).mergeEmptyBlocks.blocks.map (·.addr)).Nodup :=
      ((found.valid.shrink Placement.le names.listed longer).mergeEmptyBlocks Placement.le).nodup
    refine (forall_set_pointer names.live N).trans ((found.finds_all_iff nodup' fun c listed leads =>
      leads_shrink_iff found.valid names.listed longer listed leads).trans ?_)
    constructor
    · exact fun spared => ⟨h, own, names, fun _ => spared, fun _ => by omega⟩
    · rintro ⟨k, c, names', spared, -⟩
      obtain ⟨rfl, rfl⟩ := found.unique names names'
      exact spared longer
  | @reallocFails i N h b own names hit shorter none =>
    obtain rfl := found.own_eq names hit
    refine iff_of_true found.finds ⟨h, own, names, fun _ => by omega, fun _ fit after lead fits => ?_⟩
    rw [none] at fits
    contradiction
  | @grow i N h b own lead fit pre mid after names hit shorter fits leads cut joins enough =>
    obtain rfl := found.own_eq names hit
    refine (found.grow_iff names shorter fits leads cut joins enough).trans ?_
    constructor
    · intro clear
      refine ⟨h, own, names, fun _ => by omega, fun _ fit' after' lead' fits' inFit leads' => ?_⟩
      obtain ⟨rfl, rfl⟩ : fit' = fit ∧ after' = after := by simpa [fits, eq_comm] using fits'
      obtain ⟨-, -, -, before, around, -⟩ := fitting_eq_some (by simp) fits
      have same : lead'.addr = lead.addr := Option.some.inj (leads'.symm.trans leads)
      rw [List.nil_append] at around
      obtain rfl := eq_of_addr nodup (by simp [around, inFit]) (by simp [cut]) same
      exact clear
    · rintro ⟨k, c, names', -, clear⟩
      obtain ⟨rfl, rfl⟩ := found.unique names names'
      exact clear shorter fit after lead fits (RunAt.of_fitting nodup cut joins fits leads).2.1 leads
  | defrag =>
    have nodup' := (found.valid.defrag Placement.le).nodup
    exact found.finds_all_iff nodup' fun c listed _ => leads_defrag_iff found.valid listed
  | freeNull => exact iff_of_true found.finds trivial

end Findable

/-- A sequence of calls goes through, with `find_block` of every live Pointer returning its own block
after each of them, exactly if every call meets the condition. -/
theorem finds_own_iff (buffer : ℕ → UInt8) (S : ℕ) (calls : List Call) :
    ((∃ s, run Session.step (.new buffer S) calls = some s) ∧
      Throughout Session.step (fun s => ∀ h ∈ s.live, FindsOwn s.allocator h.pointer)
        (.new buffer S) calls) ↔
    Guarded Session.step KeepsFound (.new buffer S) calls := by
  have initial : Findable S (.new buffer S) := ⟨.new Placement.le buffer S, by simp [Session.new]⟩
  have kept : ∀ s call t, s.step call = some t → Findable S s → KeepsFound s call → Findable S t := by
    intro s call t stepped found keeps
    have valid : WellPlaced (· ≤ ·) S t.allocator :=
      (step_change found.valid.nodup found.real stepped).wellPlaced Placement.le found.valid
        fun _ _ _ _ _ _ _ _ _ _ _ _ _ _ _ => by omega
    exact ⟨valid, (found.step_iff stepped).mpr keeps⟩
  constructor
  · rintro ⟨⟨s, success⟩, finds⟩
    exact (throughout_iff_guarded (fun _ found => found.finds) kept
      (fun _ _ _ stepped found finds => (found.step_iff stepped).mp finds) success initial).mp finds
  · intro guarded
    have progress : ∀ s call, Findable S s → KeepsFound s call →
        ∃ t, s.step call = some t ∧ Findable S t := by
      intro s call found keeps
      obtain ⟨t, stepped⟩ : ∃ t, s.step call = some t := step_defined found.valid.nodup (by
        rintro i N (rfl | rfl)
        · obtain ⟨h, b, names, -⟩ := keeps
          exact ⟨h, b, names⟩
        · obtain ⟨h, b, names, -⟩ := keeps
          exact ⟨h, b, names⟩)
      exact ⟨t, stepped, kept s call t stepped found keeps⟩
    obtain ⟨reached, visited⟩ := run_of_guarded progress guarded initial
    exact ⟨reached, visited.imp fun _ found => found.finds⟩

/-- Behind a block of length 0 the next block handed out is not found. -/
theorem finds_own_fails :
    ¬ ∀ (buffer : ℕ → UInt8) (S : ℕ) (calls : List Call) (s : Session),
      run Session.step (.new buffer S) calls = some s →
        ∀ h ∈ s.live, FindsOwn s.allocator h.pointer := by
  intro holds
  obtain ⟨b, designated, found⟩ :=
    holds (fun _ => 0) 10 [.alloc 0, .alloc 5] _ rfl ⟨⟨some 1⟩, 5⟩ (by decide)
  obtain rfl : ⟨1, 0, 5, true⟩ = b := Option.some.inj designated
  exact absurd found (by decide)

end SphereMultithreading.Soundness.P1
