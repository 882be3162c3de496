import Mathlib

/-! # Finite maps of bounded size

A finite map that never holds more than `capacity` keys. A new key is refused when the map is full;
replacing the value of a key and erasing one are always possible.
-/

namespace SphereMultithreading

/-- A finite map with at most `capacity` keys. -/
structure BoundedMap (κ ν : Type*) (capacity : ℕ) where
  map : Finmap fun _ : κ => ν
  bounded : map.keys.card ≤ capacity

namespace BoundedMap

variable {κ ν : Type*} {capacity : ℕ} [DecidableEq κ]

def empty : BoundedMap κ ν capacity := ⟨∅, Nat.zero_le capacity⟩

def lookup (m : BoundedMap κ ν capacity) (k : κ) : Option ν := m.map.lookup k

def size (m : BoundedMap κ ν capacity) : ℕ := m.map.keys.card

def erase (m : BoundedMap κ ν capacity) (k : κ) : BoundedMap κ ν capacity where
  map := m.map.erase k
  bounded := by
    rw [Finmap.keys_erase]
    exact (Finset.card_erase_le).trans m.bounded

theorem keys_insert (map : Finmap fun _ : κ => ν) (k : κ) (v : ν) :
    (map.insert k v).keys = insert k map.keys := by
  ext j
  rw [Finmap.mem_keys, Finmap.mem_insert, Finset.mem_insert, Finmap.mem_keys]

/-- Inserts or overwrites; `none` when the key is new and the map is full. -/
def insert? (m : BoundedMap κ ν capacity) (k : κ) (v : ν) : Option (BoundedMap κ ν capacity) :=
  if room : k ∈ m.map ∨ m.size < capacity then
    some
      { map := m.map.insert k v
        bounded := by
          rw [keys_insert]
          rcases room with present | room
          · rw [Finset.insert_eq_of_mem (Finmap.mem_keys.mpr present)]
            exact m.bounded
          · exact (Finset.card_insert_le k _).trans room }
  else none

@[simp] theorem lookup_empty (k : κ) : (empty : BoundedMap κ ν capacity).lookup k = none :=
  Finmap.lookup_empty k

theorem lookup_eq_none {m : BoundedMap κ ν capacity} {k : κ} : m.lookup k = none ↔ k ∉ m.map :=
  Finmap.lookup_eq_none

theorem mem_keys {m : BoundedMap κ ν capacity} {k : κ} :
    k ∈ m.map.keys ↔ (m.lookup k).isSome := by
  rw [Finmap.mem_keys, lookup, Finmap.lookup_isSome]

theorem lookup_erase (m : BoundedMap κ ν capacity) (k j : κ) :
    (m.erase k).lookup j = if j = k then none else m.lookup j := by
  split
  · next same => rw [same]; exact Finmap.lookup_erase k m.map
  · next apart => exact Finmap.lookup_erase_ne apart

theorem lookup_insert? {m n : BoundedMap κ ν capacity} {k : κ} {v : ν}
    (success : m.insert? k v = some n) (j : κ) :
    n.lookup j = if j = k then some v else m.lookup j := by
  rw [insert?] at success
  split at success
  · cases success
    split
    · next same => rw [same]; exact Finmap.lookup_insert m.map
    · next apart => exact Finmap.lookup_insert_of_ne m.map apart
  · contradiction

/-- A present key can be overwritten. -/
theorem insert?_of_lookup {m : BoundedMap κ ν capacity} {k : κ} {u : ν} (v : ν)
    (present : m.lookup k = some u) : ∃ n, m.insert? k v = some n := by
  have member : k ∈ m.map := Finmap.mem_of_lookup_eq_some present
  rw [insert?, dif_pos (Or.inl member)]
  exact ⟨_, rfl⟩

/-- An absent key is refused exactly when the map is full. -/
theorem insert?_eq_none_iff {m : BoundedMap κ ν capacity} {k : κ} (v : ν)
    (absent : m.lookup k = none) : m.insert? k v = none ↔ m.size = capacity := by
  have bounded : m.size ≤ capacity := m.bounded
  rw [insert?]
  split
  · next room =>
    have room := room.resolve_left (lookup_eq_none.mp absent)
    exact iff_of_false (by simp) (by omega)
  · next full =>
    have full : ¬ m.size < capacity := fun room => full (Or.inr room)
    exact iff_of_true rfl (by omega)

/-- Keys can be taken out of a map in any way. -/
theorem exists_restrict (m : BoundedMap κ ν capacity) (keep : κ → Prop) : ∃ n : BoundedMap κ ν capacity,
    ∀ k, (keep k → n.lookup k = m.lookup k) ∧ (¬ keep k → n.lookup k = none) := by
  have removed (ks : List κ) : ∃ n : BoundedMap κ ν capacity, ∀ k,
      n.lookup k = if k ∈ ks then none else m.lookup k := by
    induction ks with
    | nil => exact ⟨m, by simp⟩
    | cons j ks ih =>
      obtain ⟨n, others⟩ := ih
      refine ⟨n.erase j, fun k => ?_⟩
      rw [lookup_erase, others]
      split_ifs <;> simp_all
  classical
  obtain ⟨n, holds⟩ := removed (m.map.keys.toList.filter fun k => ¬ keep k)
  refine ⟨n, fun k => ⟨fun kept => ?_, fun dropped => ?_⟩⟩
  · rw [holds, if_neg (by simp [kept])]
  · rw [holds]
    split
    · rfl
    · next absent =>
      rw [lookup_eq_none, ← Finmap.mem_keys]
      simpa [dropped] using absent

end BoundedMap

end SphereMultithreading
