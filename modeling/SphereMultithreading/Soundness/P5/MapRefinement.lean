import SphereMultithreading.Machine.Run
import SphereMultithreading.Model.P5.HashTable
import SphereMultithreading.Proofs.HashTable

/-! # The table of p5 is a bounded map

`mapStep` is what the operations are for: a finite map of at most `BUFFER_SIZE` keys. One call of
the table is simulated by one step of the map, with the same result or exception, and so is every
sequence of calls on the memory laid out by `shared_memory_set`.
-/

namespace SphereMultithreading.Soundness.P5

open Machine Model.HashTable Model.HashTable.Memory Model.P5 Model.P5.HashTable Proofs.HashTable

/-- The map the table stands for. -/
abbrev Contents := BoundedMap ℤ ℤ bufferSize

/-- The calls on the map: an absent key cannot be read or deleted, and no new key can be set while
the map is full. -/
def mapStep (map : Contents) : Call → Reply × Contents
  | .set key value =>
      match map.insert? key value with
      | some map => (.ok none, map)
      | none => (.error noMemory, map)
  | .get key =>
      match map.lookup key with
      | some value => (.ok (some value), map)
      | none => (.error noKey, map)
  | .del key =>
      match map.lookup key with
      | some _ => (.ok none, map.erase key)
      | none => (.error noKey, map)

section Simulation

variable {m : HashTable} {map : Contents} (represents : Represents m map) (key value : ℤ)
include represents

private theorem set_simulates : ∃ next,
    m.step (.set key value) = some ((mapStep map (.set key value)).1, next) ∧
      Represents next (mapStep map (.set key value)).2 := by
  rcases represents.findNode_cases key with ⟨found, absent⟩ | ⟨p, found, proper, own, present⟩
  · have full := represents.getNodeFree_eq_none_iff.trans
      (BoundedMap.insert?_eq_none_iff value absent).symm
    cases taken : m.getNodeFree with
    | none =>
      have refused := full.mp taken
      refine ⟨m, ?_, ?_⟩
      · simp [HashTable.step, HashTable.set, found, taken, mapStep, refused, Except.map]
      · simpa [mapStep, refused] using represents
    | some result =>
      obtain ⟨p, m₁⟩ := result
      cases inserted : map.insert? key value with
      | none => rw [full.mpr inserted] at taken; contradiction
      | some map' =>
        refine ⟨((m₁.setKey p key).setData p value).pushFront p (getHash key), ?_, ?_⟩
        · simp [HashTable.step, HashTable.set, found, taken, mapStep, inserted, Except.map]
        · simp only [mapStep, inserted]
          exact represents.insert absent taken (by simp) (by simp)
            (entry_fill m₁ (ne_null_of_getNodeFree m taken) key value) inserted
  · obtain ⟨map', inserted⟩ := BoundedMap.insert?_of_lookup value present
    refine ⟨m.setData p value, ?_, ?_⟩
    · simp [HashTable.step, HashTable.set, found, proper, mapStep, inserted, Except.map]
    · simp only [mapStep, inserted]
      exact represents.overwrite found proper (by simp) (by simp)
        (own ▸ entry_setData m proper value) inserted

private theorem get_simulates : ∃ next,
    m.step (.get key) = some ((mapStep map (.get key)).1, next) ∧
      Represents next (mapStep map (.get key)).2 := by
  rcases represents.findNode_cases key with ⟨found, absent⟩ | ⟨p, found, proper, -, present⟩
  · refine ⟨m, ?_, ?_⟩
    · simp [HashTable.step, HashTable.get, found, mapStep, absent, Except.map]
    · simpa [mapStep, absent] using represents
  · refine ⟨m, ?_, ?_⟩
    · simp [HashTable.step, HashTable.get, found, proper, mapStep, present, Except.map]
    · simpa [mapStep, present] using represents

private theorem del_simulates : ∃ next,
    m.step (.del key) = some ((mapStep map (.del key)).1, next) ∧
      Represents next (mapStep map (.del key)).2 := by
  rcases represents.findNode_cases key with ⟨found, absent⟩ | ⟨p, found, proper, -, present⟩
  · refine ⟨m, ?_, ?_⟩
    · simp [HashTable.step, HashTable.del, found, mapStep, absent, Except.map]
    · simpa [mapStep, absent] using represents
  · refine ⟨m.setNodeFree p, ?_, ?_⟩
    · simp [HashTable.step, HashTable.del, found, proper, mapStep, present, Except.map]
    · simpa [mapStep, present] using represents.setNodeFree found proper

end Simulation

/-- A call of the table does what it does on the map. -/
theorem step_simulates (m : HashTable) (map : Contents) (call : Call)
    (represents : Represents m map) : ∃ next,
      m.step call = some ((mapStep map call).1, next) ∧ Represents next (mapStep map call).2 := by
  cases call with
  | set key value => exact set_simulates represents key value
  | get key => exact get_simulates represents key
  | del key => exact del_simulates represents key

/-- From the laid out memory on, every sequence of calls is answered as by an empty map, and the
table holds the contents of the map at the end of it. -/
theorem table_refines_map (memory : HashTable) (calls : List Call) : ∃ last,
    replay HashTable.step memory.sharedMemorySet calls =
        some ((replies mapStep .empty calls).1, last) ∧
      Represents last (replies mapStep .empty calls).2 :=
  replay_simulates step_simulates (represents_sharedMemorySet memory) calls

end SphereMultithreading.Soundness.P5
