import Mathlib.Data.Finset.Sort
import SphereMultithreading.Machine.Descriptors

/-! # Descriptors held under keys

Descriptors are opened one after the other and each is stored under a key, where a later one takes the
place of an earlier one. In the end those stored under some of the keys are closed. Then all that were
opened are closed exactly when no key was used twice and each key used is one of those.
-/

namespace SphereMultithreading.Machine

variable {κ : Type*} [DecidableEq κ]

/-- The number of a new descriptor. -/
def newDescriptor (table : Finset ℕ) : ℕ := lowestFree 0 (table.sort (· ≤ ·))

theorem newDescriptor_notMem (table : Finset ℕ) : newDescriptor table ∉ table := by
  have free := lowestFree_notMem 0 (table.sort (· ≤ ·))
  rwa [Finset.mem_sort] at free

/-- The open descriptors, and those stored under the keys. -/
@[ext]
structure Holders (κ : Type*) where
  table : Finset ℕ
  held : κ → Option ℕ

namespace Holders

def acquire (s : Holders κ) (key : κ) : Holders κ where
  table := insert (newDescriptor s.table) s.table
  held := Function.update s.held key (some (newDescriptor s.table))

def acquireAll (s : Holders κ) (keys : List κ) : Holders κ := keys.foldl acquire s

/-- What is left after closing the descriptors of some keys. -/
def closed (s : Holders κ) (keys : List κ) : List ℕ := keys.filterMap s.held

/-- The descriptors stored are distinct ones of those that were opened. -/
structure Holds (before : Finset ℕ) (keys : List κ) (s : Holders κ) : Prop where
  kept : before ⊆ s.table
  card : (s.table \ before).card = keys.length
  opened : ∀ key fd, s.held key = some fd → fd ∈ s.table \ before
  injective : ∀ key key' fd, s.held key = some fd → s.held key' = some fd → key = key'
  isSome : ∀ key, (s.held key).isSome ↔ key ∈ keys

variable {before : Finset ℕ} {keys : List κ} {s : Holders κ}

omit [DecidableEq κ] in
theorem holds_nil (before : Finset ℕ) : Holds before ([] : List κ) ⟨before, fun _ => none⟩ where
  kept := Finset.Subset.refl _
  card := by simp
  opened := by rintro key fd ⟨⟩
  injective := by rintro key key' fd ⟨⟩
  isSome := by simp

theorem held_acquire (s : Holders κ) (key other : κ) : (s.acquire key).held other =
    if other = key then some (newDescriptor s.table) else s.held other :=
  Function.update_apply ..

theorem Holds.acquire (holds : Holds before keys s) (key : κ) :
    Holds before (keys ++ [key]) (s.acquire key) := by
  have fresh := newDescriptor_notMem s.table
  have new : newDescriptor s.table ∉ before := fun member => fresh (holds.kept member)
  have more : (s.acquire key).table \ before =
      insert (newDescriptor s.table) (s.table \ before) :=
    Finset.insert_sdiff_of_notMem _ new
  refine ⟨holds.kept.trans (Finset.subset_insert ..), ?_, ?_, ?_, ?_⟩
  · rw [more, Finset.card_insert_of_notMem (fun member => fresh (Finset.mem_sdiff.mp member).1),
      holds.card, List.length_append]
    rfl
  · intro other fd stored
    rw [more, Finset.mem_insert]
    rw [held_acquire] at stored
    split at stored
    · exact .inl (Option.some.inj stored).symm
    · exact .inr (holds.opened other fd stored)
  · intro one other fd stored stored'
    have old {k : κ} (found : s.held k = some (newDescriptor s.table)) : False :=
      fresh (Finset.mem_sdiff.mp (holds.opened k _ found)).1
    rw [held_acquire] at stored stored'
    split at stored <;> split at stored'
    · next same same' => exact same.trans same'.symm
    · cases stored
      exact (old stored').elim
    · cases stored'
      exact (old stored).elim
    · exact holds.injective one other fd stored stored'
  · intro other
    rw [held_acquire, List.mem_append, List.mem_singleton]
    split
    · next same => simp [same]
    · next differ => rw [holds.isSome, or_iff_left differ]

theorem holds_acquireAll (before : Finset ℕ) (keys : List κ) :
    Holds before keys (acquireAll ⟨before, fun _ => none⟩ keys) := by
  induction keys using List.reverseRecOn with
  | nil => exact holds_nil before
  | append_singleton keys key ih =>
    rw [acquireAll, List.foldl_append]
    exact ih.acquire key

omit [DecidableEq κ] in
/-- No descriptor is closed twice. -/
theorem Holds.nodup_closed (holds : Holds before keys s) {ends : List κ} (once : ends.Nodup) :
    (s.closed ends).Nodup :=
  once.filterMap fun key key' fd stored stored' => holds.injective key key' fd stored stored'

theorem Holds.length_closed (holds : Holds before keys s) (ends : List κ) :
    (s.closed ends).length = (ends.filter (· ∈ keys)).length := by
  rw [closed]
  induction ends with
  | nil => rfl
  | cons key ends ih =>
    have used := holds.isSome key
    cases stored : s.held key with
    | none =>
      rw [stored] at used
      rw [List.filterMap_cons_none stored, List.filter_cons_of_neg (by simpa using used), ih]
    | some fd =>
      rw [stored] at used
      rw [List.filterMap_cons_some stored, List.filter_cons_of_pos (by simpa using used),
        List.length_cons, List.length_cons, ih]

/-- A list without repetitions covers another one only if that has none either. -/
theorem length_le_filter_iff {ends : List κ} (once : ends.Nodup) :
    keys.length ≤ (ends.filter (· ∈ keys)).length ↔ keys.Nodup ∧ keys ⊆ ends := by
  constructor
  · intro enough
    have covered : (ends.filter (· ∈ keys)).Subperm keys :=
      List.subperm_of_subset (once.filter _) fun key member => by
        simpa using (List.mem_filter.mp member).2
    have same := covered.perm_of_length_le enough
    exact ⟨same.nodup_iff.mp (once.filter _), fun key member =>
      (List.mem_filter.mp (same.mem_iff.mpr member)).1⟩
  · rintro ⟨distinct, within⟩
    refine (List.subperm_of_subset distinct fun key member => ?_).length_le
    exact List.mem_filter.mpr ⟨within member, by simpa using member⟩

/-- Closing restores the table exactly when every key was used once at most and is closed if it was
used. -/
theorem Holds.restored_iff (holds : Holds before keys s) {ends : List κ} (once : ends.Nodup) :
    s.table \ (s.closed ends).toFinset = before ↔ keys.Nodup ∧ keys ⊆ ends := by
  have within : (s.closed ends).toFinset ⊆ s.table \ before := by
    intro fd member
    obtain ⟨key, -, stored⟩ := List.mem_filterMap.mp (List.mem_toFinset.mp member)
    exact holds.opened key fd stored
  have size : (s.closed ends).toFinset.card = (ends.filter (· ∈ keys)).length := by
    rw [List.toFinset_card_of_nodup (holds.nodup_closed once), holds.length_closed]
  rw [← length_le_filter_iff once, ← size, ← holds.card]
  constructor
  · intro restored
    refine Finset.card_le_card fun fd member => ?_
    obtain ⟨isOpen, new⟩ := Finset.mem_sdiff.mp member
    by_contra left
    exact new (restored ▸ Finset.mem_sdiff.mpr ⟨isOpen, left⟩)
  · intro enough
    rw [Finset.eq_of_subset_of_card_le within enough, Finset.sdiff_sdiff_eq_self holds.kept]

end Holders

end SphereMultithreading.Machine
