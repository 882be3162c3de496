import Mathlib.Data.List.Nodup
import Mathlib.Data.List.Perm.Subperm
import Mathlib.Data.List.Sigma

/-! # Tables of descriptors

The open descriptors of a process, with what they stand for. A new one gets the lowest free number.
-/

namespace SphereMultithreading.Machine

/-- The lowest number from `first` on that is not used. -/
def lowestFree (first : ℕ) (used : List ℕ) : ℕ :=
  ((List.range' first (used.length + 1)).find? fun fd => fd ∉ used).getD first

theorem lowestFree_notMem (first : ℕ) (used : List ℕ) : lowestFree first used ∉ used := by
  rw [lowestFree]
  cases found : (List.range' first (used.length + 1)).find? fun fd => fd ∉ used with
  | some fd => simpa using List.find?_some found
  | none =>
    -- more numbers than used ones
    have all : List.range' first (used.length + 1) ⊆ used := by
      intro fd member
      simpa using List.find?_eq_none.mp found fd member
    have room := (List.subperm_of_subset List.nodup_range' all).length_le
    rw [List.length_range'] at room
    omega

/-- A table with one descriptor closed. -/
theorem lookup_closed {α : Type*} (table : List (ℕ × α)) (fd other : ℕ) :
    (table.filter fun entry => entry.1 ≠ fd).lookup other =
      if other = fd then none else table.lookup other := by
  induction table with
  | nil => simp
  | cons entry rest ih =>
    obtain ⟨number, value⟩ := entry
    by_cases gone : number = fd
    · rw [List.filter_cons_of_neg (by simpa using gone), ih, gone]
      by_cases same : other = fd
      · rw [if_pos same, if_pos same]
      · rw [if_neg same, if_neg same, List.lookup_cons, beq_false_of_ne same]
    · rw [List.filter_cons_of_pos (by simpa using gone), List.lookup_cons, List.lookup_cons, ih]
      by_cases here : other = number
      · simp [here, gone]
      · rw [beq_false_of_ne here]

/-- A table with one more descriptor. -/
theorem lookup_opened {α : Type*} (table : List (ℕ × α)) (fd other : ℕ) (value : α) :
    ((fd, value) :: table).lookup other = if other = fd then some value else table.lookup other := by
  rw [List.lookup_cons]
  by_cases same : other = fd
  · rw [if_pos same, beq_iff_eq.mpr same]
  · rw [if_neg same, beq_false_of_ne same]

theorem mem_of_lookup {α : Type*} {table : List (ℕ × α)} {fd : ℕ} {value : α}
    (found : table.lookup fd = some value) : (fd, value) ∈ table := by
  obtain ⟨before, after, rfl, -⟩ := List.lookup_eq_some_iff.mp found
  exact List.mem_append_right _ (List.mem_cons_self ..)

theorem mem_map_of_lookup {α : Type*} {table : List (ℕ × α)} {fd : ℕ} {value : α}
    (found : table.lookup fd = some value) : value ∈ table.map Prod.snd :=
  List.mem_map_of_mem (mem_of_lookup found)

/-- Two descriptors of one thing are the same. -/
theorem eq_of_lookup {α : Type*} {table : List (ℕ × α)} (once : (table.map Prod.snd).Nodup)
    {fd other : ℕ} {value : α} (found : table.lookup fd = some value)
    (found' : table.lookup other = some value) : fd = other :=
  congrArg Prod.fst (List.inj_on_of_nodup_map once (mem_of_lookup found) (mem_of_lookup found') rfl)

/-- All descriptors stand for all there is. -/
theorem filterMap_lookup {α : Type*} {table : List (ℕ × α)} (once : (table.map Prod.fst).Nodup) :
    (table.map Prod.fst).filterMap (fun fd => table.lookup fd) = table.map Prod.snd := by
  induction table with
  | nil => rfl
  | cons entry rest ih =>
    obtain ⟨fd, value⟩ := entry
    obtain ⟨absent, once⟩ := List.nodup_cons.mp once
    have others : (rest.map Prod.fst).filterMap (fun other => ((fd, value) :: rest).lookup other) =
        (rest.map Prod.fst).filterMap (fun other => rest.lookup other) := by
      apply List.filterMap_congr
      intro other member
      have differ : other ≠ fd := fun same => absent (same ▸ member)
      rw [lookup_opened, if_neg differ]
    rw [List.map_cons, List.map_cons, List.filterMap_cons, lookup_opened, if_pos rfl, others, ih once]

end SphereMultithreading.Machine
