import Mathlib

/-! # Entries that expire

A store has entries with a deadline. Somebody who asks at a time sees those that are still in time, so
two stores are alike from a time on when they have the same ones then. What has expired can be removed
at any moment, or stay.
-/

namespace SphereMultithreading.Machine.Expiring

variable {κ ε τ : Type*} [LinearOrder τ] {deadline : ε → τ}

/-- The entries that are in time. -/
def since (deadline : ε → τ) (now : τ) (store : κ → Option ε) : κ → Option ε :=
  fun k => (store k).filter fun e => now ≤ deadline e

/-- Nobody can tell the stores apart from a time on. -/
def Alike (deadline : ε → τ) (now : τ) (first second : κ → Option ε) : Prop :=
  since deadline now first = since deadline now second

variable {now later : τ} {store first second : κ → Option ε} {k : κ} {e : ε}

theorem since_eq_some : since deadline now store k = some e ↔ store k = some e ∧ now ≤ deadline e := by
  simp [since, Option.filter_eq_some_iff]

theorem since_eq_none : since deadline now store k = none ↔ ∀ e, store k = some e → deadline e < now := by
  simp [since, Option.filter_eq_none_iff]

theorem since_since (order : now ≤ later) :
    since deadline later (since deadline now store) = since deadline later store := by
  funext k
  ext e
  simp only [since_eq_some]
  constructor
  · rintro ⟨⟨stored, -⟩, alive⟩
    exact ⟨stored, alive⟩
  · rintro ⟨stored, alive⟩
    exact ⟨⟨stored, le_trans order alive⟩, alive⟩

namespace Alike

theorem mono (alike : Alike deadline now first second) (order : now ≤ later) :
    Alike deadline later first second := by
  have later_of_now (store : κ → Option ε) :
      since deadline later (since deadline now store) = since deadline later store :=
    since_since order
  rw [Alike, ← later_of_now first, alike, later_of_now second]

theorem trans {third : κ → Option ε} (left : Alike deadline now first second)
    (right : Alike deadline now second third) : Alike deadline now first third :=
  Eq.trans left right

theorem since_left (alike : Alike deadline now first second) :
    Alike deadline now (since deadline now first) second :=
  (since_since le_rfl).trans alike

/-- The same is written to both stores. -/
theorem update [DecidableEq κ] (alike : Alike deadline now first second) (k : κ) (entry : Option ε) :
    Alike deadline now (Function.update first k entry) (Function.update second k entry) := by
  funext j
  rcases eq_or_ne j k with rfl | differ
  · simp [since]
  · have same := congrFun alike j
    simpa [since, differ] using same

end Alike

/-- A store is like one with fewer entries when those missing have expired. -/
theorem alike_of_gone
    (gone : ∀ k, second k = first k ∨ second k = none ∧ ∀ e, first k = some e → deadline e < now) :
    Alike deadline now first second := by
  funext k
  rcases gone k with same | ⟨missing, expired⟩
  · rw [since, since, same]
  · rw [since_eq_none.mpr expired, since, missing]
    rfl

end SphereMultithreading.Machine.Expiring
