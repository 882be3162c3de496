import SphereMultithreading.Proofs.P5.Permits
import SphereMultithreading.Soundness.P5.MapRefinement

/-! # The table of the running p5 system

A call of the table is one step of the system, so the shared memory stands for a map in every
state, and no call runs for ever.
-/

namespace SphereMultithreading.Soundness.P5

open Machine Model.HashTable Model.P5 Model.P5.HashTable Proofs.HashTable System

variable {capacity : ℕ} {s t : System} {a : Action}

/-- A new shared memory segment. -/
def zeroed : Model.P5.HashTable := ⟨fun _ => 0, fun _ => ⟨0, 0, 0, 0⟩⟩

def Represented (s : System) : Prop := ∃ map, Represents s.table map

theorem represented_init (memory : Model.P5.HashTable) : Represented (init memory) :=
  ⟨.empty, represents_sharedMemorySet memory⟩

theorem represented_step (stepped : s.step capacity a = some t) (represented : Represented s) :
    Represented t := by
  rcases step_table stepped with same | ⟨w, parcel, reply, -, -, answered⟩
  · rw [Represented, same]
    exact represented
  · obtain ⟨map, represents⟩ := represented
    obtain ⟨next, answered', represents'⟩ := step_simulates s.table map _ represents
    obtain ⟨-, rfl⟩ := Prod.mk.inj (Option.some.inj (answered.symm.trans answered'))
    exact ⟨_, represents'⟩

/-- A worker in its call gets an answer. -/
theorem call_enabled (represented : Represented s) {w : Fin numWorkers} {parcel : Parcel}
    (position : s.workers w = .call parcel) : ∃ t, s.step capacity (.call w) = some t := by
  obtain ⟨map, represents⟩ := represented
  obtain ⟨next, answered, -⟩ := step_simulates s.table map parcel.message.call represents
  exact ⟨_, call_eq_some.mpr ⟨parcel, _, next, position, answered, rfl⟩⟩

end SphereMultithreading.Soundness.P5
