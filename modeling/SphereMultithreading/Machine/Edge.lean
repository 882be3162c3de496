import Mathlib.Data.List.Basic

/-! # Edge-triggered queues

An edge-triggered queue is announced when something arrives, and not again while something is left
in it: whoever takes the announcement has to look after all that is pending.
-/

namespace SphereMultithreading.Machine

variable {α : Type*}

/-- What is pending, and whether it is announced. -/
structure Edge (α : Type*) where
  pending : List α
  announced : Bool
deriving DecidableEq, Repr

namespace Edge

def empty : Edge α := ⟨[], false⟩

def arrive (e : Edge α) (items : List α) : Edge α := ⟨e.pending ++ items, true⟩

/-- The announcement is taken. -/
def deliver (e : Edge α) : Edge α := { e with announced := false }

def drop (e : Edge α) (n : ℕ) : Edge α := { e with pending := e.pending.drop n }

/-- Something pending is announced, or somebody looks after it. -/
def Covered (e : Edge α) (busy : Prop) : Prop := e.pending ≠ [] → e.announced = true ∨ busy

theorem covered_empty (busy : Prop) : (empty : Edge α).Covered busy := fun pending => absurd rfl pending

theorem covered_arrive (e : Edge α) (items : List α) (busy : Prop) : (e.arrive items).Covered busy :=
  fun _ => .inl rfl

theorem covered_busy (e : Edge α) {busy : Prop} (here : busy) : e.Covered busy := fun _ => .inr here

theorem Covered.imp {e : Edge α} {busy busy' : Prop} (covered : e.Covered busy)
    (same : busy → busy') : e.Covered busy' :=
  fun pending => (covered pending).imp id same

end Edge

end SphereMultithreading.Machine
