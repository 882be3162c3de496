import SphereMultithreading.Proofs.P1.Calls

/-! # When the allocator throws

Every call throws when it must and only then, and a call that throws has done nothing.
-/

namespace SphereMultithreading.Soundness.P1

open Machine Model.P1 Model.P1.Allocator Proofs.P1

def thrown {α : Type} : Except AllocError α → Option AllocErrorType
  | .error e => some e.type
  | .ok _ => none

/-- A call on a Pointer throws this error under this condition, without effect, and no other one. -/
def ThrowsWhen (a : Allocator) (p : Pointer)
    (outcome : Option (Except AllocError Unit × Pointer × Allocator)) (type : AllocErrorType)
    (condition : Prop) : Prop :=
  ∃ result q t, outcome = some (result, q, t) ∧
    (∀ e, thrown result = some e ↔ e = type ∧ condition) ∧ (thrown result ≠ none → q = p ∧ t = a)

/-- No free block is long enough. -/
def NoRoom (a : Allocator) (N : ℕ) : Prop := ∀ b ∈ a.blocks, b.isFree = true → b.length < N

structure Failures (a : Allocator) : Prop where
  alloc : ∀ N, (∀ e, thrown (a.alloc N).1 = some e ↔ e = .NoMemory ∧ NoRoom a N) ∧
    (thrown (a.alloc N).1 ≠ none → (a.alloc N).2 = a)
  reallocNull : ∀ N, ThrowsWhen a ⟨none⟩ (a.realloc ⟨none⟩ N) .NoMemory (NoRoom a N)
  realloc : ∀ b ∈ a.blocks, ∀ N, ThrowsWhen a ⟨some b.addr⟩ (a.realloc ⟨some b.addr⟩ N) .NoMemory
    (b.length < N ∧ ∀ run, IsStretch (Joins b.addr) run a.blocks → total run < N)
  free : ∀ p, p = ⟨none⟩ ∨ (∃ b ∈ a.blocks, p = ⟨some b.addr⟩) →
    ThrowsWhen a p (a.free p) .InvalidFree (p.pBlock = none)

variable {S : ℕ} {a : Allocator}

theorem throwsWhen_ok {outcome : Option (Except AllocError Unit × Pointer × Allocator)}
    {type : AllocErrorType} {condition : Prop} {p q : Pointer} {t : Allocator}
    (returns : outcome = some (.ok (), q, t)) (never : ¬ condition) :
    ThrowsWhen a p outcome type condition :=
  ⟨.ok (), q, t, returns, by simp [thrown, never], by simp [thrown]⟩

theorem throwsWhen_error {outcome : Option (Except AllocError Unit × Pointer × Allocator)}
    {type : AllocErrorType} {condition : Prop} {p : Pointer} {message : String}
    (throws : outcome = some (.error ⟨type, message⟩, p, a)) (holds : condition) :
    ThrowsWhen a p outcome type condition :=
  ⟨_, p, a, throws, by simp [thrown, holds, eq_comm], fun _ => ⟨rfl, rfl⟩⟩

/-- `alloc` throws without effect, or returns a Pointer. -/
theorem alloc_outcome (a : Allocator) (N : ℕ) :
    (NoRoom a N ∧ a.alloc N = (.error ⟨.NoMemory, "ERROR in alloc, no memory!\n"⟩, a)) ∨
      (¬ NoRoom a N ∧ ∃ p t, a.alloc N = (.ok p, t)) := by
  rw [NoRoom, ← @allocLoop_eq_none a.nextAddr, Allocator.alloc]
  split
  · next none => exact .inl ⟨none, rfl⟩
  · next blocks addr found => exact .inr ⟨by simp [found], _, _, rfl⟩

theorem realloc_throwsWhen (nodup : (a.blocks.map (·.addr)).Nodup)
    (distinct : (a.blocks.map (·.offset)).Nodup) {b : MemoryBlock} (listed : b ∈ a.blocks) (N : ℕ) :
    ThrowsWhen a ⟨some b.addr⟩ (a.realloc ⟨some b.addr⟩ N) .NoMemory
      (b.length < N ∧ ∀ run, IsStretch (Joins b.addr) run a.blocks → total run < N) := by
  have found : a.findBlock b.offset = some b := find?_key (·.offset) distinct listed
  have search : fitting b.addr N [] a.blocks = none ↔
      ∀ run, IsStretch (Joins b.addr) run a.blocks → total run < N := fitting_eq_none_iff (by simp)
  rw [← search]
  rcases realloc_cases N nodup listed found with ⟨same, ran⟩ | ⟨longer, ran⟩ |
    ⟨shorter, short, ran⟩ | ⟨-, _, _, _, _, _, fits, -, -, -, -, -, ran⟩
  · exact throwsWhen_ok ran fun ⟨shorter, _⟩ => by omega
  · exact throwsWhen_ok ran fun ⟨shorter, _⟩ => by omega
  · exact throwsWhen_error ran ⟨shorter, short⟩
  · exact throwsWhen_ok ran fun ⟨_, short⟩ => by simp [fits] at short

/-- In every layout with distinct offsets. -/
theorem failures_exact (valid : WellPlaced (· = ·) S a) (distinct : (a.blocks.map (·.offset)).Nodup) :
    Failures a where
  alloc := by
    intro N
    rcases alloc_outcome a N with ⟨room, ran⟩ | ⟨room, p, t, ran⟩ <;> rw [ran]
    · exact ⟨by simp [thrown, room, eq_comm], fun _ => rfl⟩
    · exact ⟨by simp [thrown, room], by simp [thrown]⟩
  reallocNull := by
    intro N
    rcases alloc_outcome a N with ⟨room, ran⟩ | ⟨room, p, t, ran⟩
    · exact throwsWhen_error (by rw [Allocator.realloc, ran]) room
    · exact throwsWhen_ok (by rw [Allocator.realloc, ran]) room
  realloc := fun b listed N => realloc_throwsWhen valid.nodup distinct listed N
  free := by
    rintro p (rfl | ⟨b, listed, rfl⟩)
    · exact throwsWhen_error rfl rfl
    · exact throwsWhen_ok (free_of_block? (find?_addr valid.nodup listed)) (by simp)

/-- A used block of 5 bytes and a free one of 3. -/
def halves : Allocator := ⟨fun _ => 0, [⟨0, 0, 5, true⟩, ⟨1, 5, 3, false⟩], 2⟩

theorem failures_exact_halves : Failures halves :=
  @failures_exact 8 halves ⟨by simp [halves], by simp [halves], by decide, by decide⟩ (by decide)

end SphereMultithreading.Soundness.P1
