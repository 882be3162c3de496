import SphereMultithreading.Model.P1.Session
import SphereMultithreading.Proofs.P1.Placement

/-! # Everything a call can do

`Change` lists the outcomes of the public calls, thrown errors included, and `step_change` shows
that a session's step is one of them. Every invariant of sessions is then a case analysis over
`Change` and needs neither the code of the calls nor their loops.
-/

namespace SphereMultithreading.Proofs.P1

open Model.P1 Model.P1.Allocator Layout

/-- The `i`-th live Pointer designates the listed block. -/
structure Names (s : Session) (i : ℕ) (h : LivePointer) (b : MemoryBlock) : Prop where
  live : s.live[i]? = some h
  listed : b ∈ s.allocator.blocks
  designates : h.pointer = ⟨some b.addr⟩

/-- The Pointer designates the used block. -/
def Designates (a : Allocator) (p : Pointer) (b : MemoryBlock) : Prop :=
  b ∈ a.blocks ∧ b.state = true ∧ p = ⟨some b.addr⟩

/-- The block is marked free, as `free` does before it merges. -/
def released (a : Allocator) (addr : ℕ) : Allocator :=
  { a with blocks := update addr (fun b => { b with state := false }) a.blocks }

/-- The outcomes of a call. In those of `realloc`, `own` is the block `find_block` returns. -/
inductive Change (s : Session) : Call → Session → Prop
  | alloc {N addr : ℕ} {blocks : List MemoryBlock}
      (found : allocLoop s.allocator.nextAddr N s.allocator.blocks = some (blocks, addr)) :
      Change s (.alloc N) ⟨(s.allocator.alloc N).2, s.live ++ [⟨⟨some addr⟩, N⟩]⟩
  | allocFails (N : ℕ) : Change s (.alloc N) s
  | free {i : ℕ} {h : LivePointer} {b : MemoryBlock} (names : Names s i h b) :
      Change s (.free i) ⟨(released s.allocator b.addr).mergeEmptyBlocks, s.live.eraseIdx i⟩
  | same {i N : ℕ} {h : LivePointer} {b own : MemoryBlock} (names : Names s i h b)
      (found : s.allocator.findBlock b.offset = some own) (equal : own.length = N) :
      Change s (.realloc i N) ⟨s.allocator, s.live.set i ⟨h.pointer, N⟩⟩
  | shrink {i N : ℕ} {h : LivePointer} {b own : MemoryBlock} (names : Names s i h b)
      (found : s.allocator.findBlock b.offset = some own) (longer : N < own.length) :
      Change s (.realloc i N)
        ⟨(s.allocator.shrink own N).mergeEmptyBlocks, s.live.set i ⟨h.pointer, N⟩⟩
  | reallocFails {i N : ℕ} {h : LivePointer} {b own : MemoryBlock} (names : Names s i h b)
      (found : s.allocator.findBlock b.offset = some own) (shorter : own.length < N)
      (none : fitting own.addr N [] s.allocator.blocks = none) : Change s (.realloc i N) s
  | grow {i N : ℕ} {h : LivePointer} {b own lead : MemoryBlock}
      {fit pre mid after : List MemoryBlock} (names : Names s i h b)
      (found : s.allocator.findBlock b.offset = some own) (shorter : own.length < N)
      (fits : fitting own.addr N [] s.allocator.blocks = some (fit, after))
      (leads : leader fit = some lead.addr)
      (cut : s.allocator.blocks = pre ++ lead :: (mid ++ after))
      (joins : ∀ c ∈ lead :: mid, Joins own.addr c) (enough : N ≤ lead.length + total mid) :
      Change s (.realloc i N)
        ⟨(s.allocator.grow own lead (lead.length + total mid) N).mergeEmptyBlocks,
          s.live.set i ⟨⟨some lead.addr⟩, N⟩⟩
  | defrag : Change s .defrag ⟨s.allocator.defrag, s.live⟩
  | freeNull : Change s .freeNull s
  | reallocNull {N addr : ℕ} {blocks : List MemoryBlock}
      (found : allocLoop s.allocator.nextAddr N s.allocator.blocks = some (blocks, addr)) :
      Change s (.reallocNull N) ⟨(s.allocator.alloc N).2, s.live ++ [⟨⟨some addr⟩, N⟩]⟩
  | reallocNullFails (N : ℕ) : Change s (.reallocNull N) s

theorem alloc_cases (a : Allocator) (N : ℕ) :
    (∃ blocks addr, allocLoop a.nextAddr N a.blocks = some (blocks, addr) ∧
      a.alloc N = (.ok ⟨some addr⟩, (a.alloc N).2)) ∨
    a.alloc N = (.error ⟨.NoMemory, "ERROR in alloc, no memory!\n"⟩, a) := by
  rw [Allocator.alloc]
  split
  · exact Or.inr rfl
  · next blocks addr found => exact Or.inl ⟨blocks, addr, found, rfl⟩

/-- A pointer that can be read designates a listed block. -/
theorem block?_eq_some {a : Allocator} {addr : ℕ} {b : MemoryBlock} (read : a.block? addr = some b) :
    b ∈ a.blocks ∧ addr = b.addr :=
  ⟨List.mem_of_find?_eq_some read, by simpa [eq_comm] using List.find?_some read⟩

/-- `free` of a Pointer that can be read. -/
theorem free_of_block? {a : Allocator} {addr : ℕ} {b : MemoryBlock} (read : a.block? addr = some b) :
    a.free ⟨some addr⟩ = some (.ok (), ⟨none⟩, (released a addr).mergeEmptyBlocks) := by
  simp only [Allocator.free, read, Option.bind_eq_bind, Option.bind_some, released]

private theorem set_self {s : Session} {i : ℕ} {h : LivePointer} (live : s.live[i]? = some h) :
    s.live.set i h = s.live := by
  obtain ⟨bound, rfl⟩ := List.getElem?_eq_some_iff.mp live
  exact List.set_getElem_self bound

private theorem realloc_change {s t : Session} {i N : ℕ}
    (nodup : (s.allocator.blocks.map (·.addr)).Nodup)
    (real : ∀ h ∈ s.live, h.pointer.pBlock.isSome)
    (stepped : s.step (.realloc i N) = some t) : Change s (.realloc i N) t := by
  simp only [Session.step, Option.bind_eq_bind, Option.bind_eq_some_iff] at stepped
  obtain ⟨h, live, ⟨result, q, a⟩, called, stepped⟩ := stepped
  obtain ⟨⟨pBlock⟩, requested⟩ := h
  obtain ⟨addr, rfl⟩ := Option.isSome_iff_exists.mp (real _ (List.mem_of_getElem? live))
  have read := called
  simp only [Allocator.realloc, Option.bind_eq_bind, Option.bind_eq_some_iff] at read
  obtain ⟨b, designated, own, found, -⟩ := read
  obtain ⟨listed, rfl⟩ := block?_eq_some designated
  have names : Names s i ⟨⟨some b.addr⟩, requested⟩ b := ⟨live, listed, rfl⟩
  rcases realloc_cases N nodup listed found with ⟨equal, ran⟩ | ⟨longer, ran⟩ |
    ⟨shorter, none, ran⟩ | ⟨shorter, fit, pre, lead, mid, after, fits, leads, cut, joins, sum,
      enough, ran⟩ <;> rw [called] at ran <;> cases ran <;> cases stepped
  · exact .same names found equal
  · exact .shrink names found longer
  · rw [set_self live]
    exact .reallocFails names found shorter none
  · rw [sum] at enough ⊢
    exact .grow names found shorter fits leads cut joins enough

/-- A step of a session is one of the listed outcomes. -/
theorem step_change {s t : Session} {call : Call}
    (nodup : (s.allocator.blocks.map (·.addr)).Nodup)
    (real : ∀ h ∈ s.live, h.pointer.pBlock.isSome) (stepped : s.step call = some t) :
    Change s call t := by
  cases call with
  | alloc N =>
    rcases alloc_cases s.allocator N with ⟨blocks, addr, found, ran⟩ | ran <;>
      rw [Session.step, ran] at stepped <;> cases stepped
    · exact .alloc found
    · exact .allocFails N
  | free i =>
    simp only [Session.step, Option.bind_eq_bind, Option.bind_eq_some_iff] at stepped
    obtain ⟨h, live, ⟨result, q, a⟩, called, stepped⟩ := stepped
    obtain ⟨⟨pBlock⟩, requested⟩ := h
    obtain ⟨addr, rfl⟩ := Option.isSome_iff_exists.mp (real _ (List.mem_of_getElem? live))
    simp only [Allocator.free, Option.bind_eq_bind, Option.bind_eq_some_iff] at called
    obtain ⟨b, designated, called⟩ := called
    obtain ⟨listed, rfl⟩ := block?_eq_some designated
    cases called
    cases stepped
    exact .free ⟨live, listed, rfl⟩
  | realloc i N => exact realloc_change nodup real stepped
  | defrag => cases stepped; exact .defrag
  | freeNull => cases stepped; exact .freeNull
  | reallocNull N =>
    simp only [Session.step, Allocator.realloc] at stepped
    rcases alloc_cases s.allocator N with ⟨blocks, addr, found, ran⟩ | ran <;>
      rw [ran] at stepped <;> cases stepped
    · exact .reallocNull found
    · exact .reallocNullFails N

/-- Live Pointers stay non-null. -/
theorem Change.real {s t : Session} {call : Call} (change : Change s call t)
    (real : ∀ h ∈ s.live, h.pointer.pBlock.isSome) : ∀ h ∈ t.live, h.pointer.pBlock.isSome := by
  have replaced {i : ℕ} {h h' : LivePointer} {a : Allocator} (live : s.live[i]? = some h)
      (known : h'.pointer.pBlock.isSome) :
      ∀ k ∈ (Session.mk a (s.live.set i h')).live, k.pointer.pBlock.isSome := by
    intro k member
    rcases List.mem_or_eq_of_mem_set member with old | rfl
    · exact real k old
    · exact known
  cases change with
  | alloc | reallocNull =>
    intro k member
    rcases List.mem_append.mp member with old | new
    · exact real k old
    · obtain rfl := List.mem_singleton.mp new
      rfl
  | free => exact fun k member => real k (List.mem_of_mem_eraseIdx member)
  | same names | shrink names =>
    have known := real _ (List.mem_of_getElem? names.live)
    exact replaced names.live known
  | grow names => exact replaced names.live rfl
  | allocFails | reallocFails | defrag | freeNull | reallocNullFails => exact real

/-- A call keeps the layout when growing drops only blocks that it may drop. -/
theorem Change.wellPlaced {r : ℕ → ℕ → Prop} (placement : Placement r) {S : ℕ} {s t : Session}
    {call : Call} (change : Change s call t) (valid : WellPlaced r S s.allocator)
    (droppable : ∀ i N h b own fit after, call = .realloc i N → Names s i h b →
      s.allocator.findBlock b.offset = some own → own.length < N →
      fitting own.addr N [] s.allocator.blocks = some (fit, after) →
      ∀ late ∈ after, Joins own.addr late → r late.offset (late.offset + late.length)) :
    WellPlaced r S t.allocator := by
  cases change with
  | alloc | reallocNull => exact valid.alloc placement _
  | free => exact (valid.setState _ false).mergeEmptyBlocks placement
  | shrink names found longer =>
    exact (valid.shrink placement (List.mem_of_find?_eq_some found) longer).mergeEmptyBlocks placement
  | grow names found shorter fits leads cut joins enough =>
    refine (valid.grow placement cut (fun c member => joins c (List.mem_cons_of_mem _ member))
      enough ?_).mergeEmptyBlocks placement
    exact droppable _ _ _ _ _ _ _ rfl names found shorter fits
  | defrag => exact valid.defrag placement
  | same | allocFails | reallocFails | freeNull | reallocNullFails => exact valid

/-- A call on live Pointers whose blocks are listed is defined. -/
theorem step_defined {s : Session} {call : Call} (nodup : (s.allocator.blocks.map (·.addr)).Nodup)
    (listed : ∀ i N, call = .free i ∨ call = .realloc i N → ∃ h b, Names s i h b) :
    ∃ t, s.step call = some t := by
  cases call with
  | alloc N =>
    rcases alloc_cases s.allocator N with ⟨blocks, addr, -, ran⟩ | ran <;>
      rw [Session.step, ran] <;> exact ⟨_, rfl⟩
  | free i =>
    obtain ⟨h, b, live, listed, designates⟩ := listed i 0 (.inl rfl)
    have designated : s.allocator.block? b.addr = some b := find?_addr nodup listed
    simp [Session.step, live, Allocator.free, designates, designated]
  | realloc i N =>
    obtain ⟨h, b, live, listed, designates⟩ := listed i N (.inr rfl)
    have present : (s.allocator.findBlock b.offset).isSome :=
      List.find?_isSome.mpr ⟨b, listed, by simp⟩
    obtain ⟨own, found⟩ := Option.isSome_iff_exists.mp present
    simp only [Session.step, live, designates, Option.bind_eq_bind, Option.bind_some]
    rcases realloc_cases N nodup listed found with ⟨-, ran⟩ | ⟨-, ran⟩ | ⟨-, -, ran⟩ |
      ⟨-, _, _, _, _, _, -, -, -, -, -, -, ran⟩ <;> rw [ran] <;> exact ⟨_, rfl⟩
  | defrag => exact ⟨_, rfl⟩
  | freeNull => exact ⟨_, rfl⟩
  | reallocNull N =>
    simp only [Session.step, Allocator.realloc]
    rcases alloc_cases s.allocator N with ⟨blocks, addr, -, ran⟩ | ran <;>
      rw [ran] <;> exact ⟨_, rfl⟩

end SphereMultithreading.Proofs.P1
