import SphereMultithreading.Machine.Run
import SphereMultithreading.Model.P6.HashTable
import SphereMultithreading.Proofs.HashTable

/-! # The table of p6 is a bounded map whose entries expire

`mapStep` is what the operations are for: a finite map of at most `BUFFER_SIZE` keys to a value,
its time to live and the time it dies. Reading an entry in time postpones its death; touching an
expired one removes it. An entry that nobody touches stays, and takes room, whether it expired or
not. The readings of the clock need not be ordered.
-/

namespace SphereMultithreading.Soundness.P6

open Machine Model.HashTable Model.HashTable.Memory Model.P6 Model.P6.HashTable Proofs.HashTable

/-- The map the table stands for. -/
abbrev Contents := BoundedMap ℤ Entry bufferSize

/-- A call on the map at a time. -/
def mapStep (map : Contents) : Call × ℤ → Reply × Contents
  | (.set key ttl value, now) =>
      match map.insert? key ⟨value, ttl, now + ttl⟩ with
      | some map => (.ok none, map)
      | none => (.error noMemory, map)
  | (.get key, now) =>
      match map.lookup key with
      | some e =>
          if now ≤ e.tDeath then
            (.ok (some e.value), (map.insert? key { e with tDeath := now + e.ttl }).getD map)
          else (.error notExists, map.erase key)
      | none => (.error noKey, map)
  | (.del key, now) =>
      match map.lookup key with
      | some e =>
          if now ≤ e.tDeath then (.ok none, map.erase key) else (.error notExists, map.erase key)
      | none => (.error noKey, map)

/-- A call of the table that reads the same time throughout. -/
def tableStep (m : HashTable) (action : Call × ℤ) : Option (Reply × HashTable) :=
  m.call (fun _ => action.2) action.1

/-- The setters of `set` fill a node. -/
private theorem setTtl_setValue (m : HashTable) (now ttl value : ℤ) {p : ℤ} (proper : p ≠ null) :
    setTtl (setValue m p value) now p ttl = m.setData p ⟨value, ttl, now + ttl⟩ := by
  rw [setTtl, setValue, data_setData m proper, setData_setData]

section Simulation

variable {m : HashTable} {map : Contents} (represents : Represents m map) (key ttl value now : ℤ)
include represents

private theorem set_simulates : ∃ next,
    tableStep m (.set key ttl value, now) =
        some ((mapStep map (.set key ttl value, now)).1, next) ∧
      Represents next (mapStep map (.set key ttl value, now)).2 := by
  rcases represents.findNode_cases key with ⟨found, absent⟩ | ⟨p, found, proper, own, present⟩
  · have full := represents.getNodeFree_eq_none_iff.trans
      (BoundedMap.insert?_eq_none_iff (⟨value, ttl, now + ttl⟩ : Entry) absent).symm
    cases taken : m.getNodeFree with
    | none =>
      have refused := full.mp taken
      refine ⟨m, ?_, ?_⟩
      · simp [tableStep, call, HashTable.set, found, taken, mapStep, refused, Except.map]
      · simpa [mapStep, refused] using represents
    | some result =>
      obtain ⟨p, m₁⟩ := result
      have proper := ne_null_of_getNodeFree m taken
      cases inserted : map.insert? key ⟨value, ttl, now + ttl⟩ with
      | none => rw [full.mpr inserted] at taken; contradiction
      | some map' =>
        refine ⟨((m₁.setKey p key).setData p ⟨value, ttl, now + ttl⟩).pushFront p (getHash key),
          ?_, ?_⟩
        · simp [tableStep, call, HashTable.set, found, taken, setTtl_setValue, proper, mapStep,
            inserted, Except.map]
        · simp only [mapStep, inserted]
          exact represents.insert absent taken (by simp) (by simp) (entry_fill m₁ proper key _) inserted
  · obtain ⟨map', inserted⟩ := BoundedMap.insert?_of_lookup (⟨value, ttl, now + ttl⟩ : Entry) present
    refine ⟨m.setData p ⟨value, ttl, now + ttl⟩, ?_, ?_⟩
    · simp [tableStep, call, HashTable.set, found, proper, setTtl_setValue, mapStep, inserted,
        Except.map]
    · simp only [mapStep, inserted]
      exact represents.overwrite found proper (by simp) (by simp)
        (own ▸ entry_setData m proper _) inserted

private theorem get_simulates : ∃ next,
    tableStep m (.get key, now) = some ((mapStep map (.get key, now)).1, next) ∧
      Represents next (mapStep map (.get key, now)).2 := by
  rcases represents.findNode_cases key with ⟨found, absent⟩ | ⟨p, found, proper, own, present⟩
  · refine ⟨m, ?_, ?_⟩
    · simp [tableStep, call, HashTable.get, found, mapStep, absent, Except.map]
    · simpa [mapStep, absent] using represents
  · by_cases alive : now ≤ (m.pData p).data.tDeath
    · obtain ⟨map', inserted⟩ := BoundedMap.insert?_of_lookup
        { (m.pData p).data with tDeath := now + (m.pData p).data.ttl } present
      refine ⟨m.setTtl now p (m.pData p).data.ttl, ?_, ?_⟩
      · have value := data_setData m proper
          { (m.pData p).data with tDeath := now + (m.pData p).data.ttl }
        simp [tableStep, call, HashTable.get, found, proper, isExpired, alive, mapStep, present,
          Except.map, setTtl, value]
      · simp only [mapStep, present, if_pos alive, inserted, Option.getD_some]
        exact represents.overwrite found proper (by simp [setTtl]) (by simp [setTtl])
          (own ▸ entry_setData m proper _) inserted
    · refine ⟨m.setNodeFree p, ?_, ?_⟩
      · simp [tableStep, call, HashTable.get, found, proper, isExpired, alive, mapStep, present,
          Except.map]
      · simpa [mapStep, present, alive] using represents.setNodeFree found proper

private theorem del_simulates : ∃ next,
    tableStep m (.del key, now) = some ((mapStep map (.del key, now)).1, next) ∧
      Represents next (mapStep map (.del key, now)).2 := by
  rcases represents.findNode_cases key with ⟨found, absent⟩ | ⟨p, found, proper, -, present⟩
  · refine ⟨m, ?_, ?_⟩
    · simp [tableStep, call, HashTable.del, found, mapStep, absent, Except.map]
    · simpa [mapStep, absent] using represents
  · refine ⟨m.setNodeFree p, ?_, ?_⟩
    · by_cases alive : now ≤ (m.pData p).data.tDeath <;>
        simp [tableStep, call, HashTable.del, found, proper, isExpired, alive, mapStep, present,
          Except.map]
    · have removed : (mapStep map (.del key, now)).2 = map.erase key := by
        simp only [mapStep, present]
        split <;> rfl
      rw [removed]
      exact represents.setNodeFree found proper

end Simulation

/-- A call of the table does what it does on the map. -/
theorem step_simulates (m : HashTable) (map : Contents) (action : Call × ℤ)
    (represents : Represents m map) : ∃ next,
      tableStep m action = some ((mapStep map action).1, next) ∧
        Represents next (mapStep map action).2 := by
  obtain ⟨call, now⟩ := action
  cases call with
  | set key ttl value => exact set_simulates represents key ttl value now
  | get key => exact get_simulates represents key now
  | del key => exact del_simulates represents key now

/-- From the laid out memory on, every sequence of calls at any times is answered as by an empty
map, and the table holds the contents of the map at the end of it. -/
theorem table_refines_expiring_map (memory : HashTable) (actions : List (Call × ℤ)) : ∃ last,
    replay tableStep memory.sharedMemorySet actions =
        some ((replies mapStep .empty actions).1, last) ∧
      Represents last (replies mapStep .empty actions).2 :=
  replay_simulates step_simulates (represents_sharedMemorySet memory) actions

end SphereMultithreading.Soundness.P6
