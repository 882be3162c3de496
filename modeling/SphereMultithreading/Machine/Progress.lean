import SphereMultithreading.Machine.Run
import Mathlib

/-! # Running some processes until they stop

Actions that lower a measure can be taken only finitely often, so a machine that takes no others
comes to a state in which none of them is enabled. A machine that is never stuck before its end comes to
its end.
-/

namespace SphereMultithreading.Machine

variable {σ α : Type*}

/-- Actions that keep an invariant and lower a measure lead to a state where none is enabled. -/
theorem exists_stuck {step : σ → α → Option σ} {guard : σ → α → Prop} {I : σ → Prop}
    {measure : σ → ℕ} (kept : ∀ s a t, guard s a → step s a = some t → I s → I t)
    (lowered : ∀ s a t, guard s a → step s a = some t → I s → measure t < measure s) (s : σ)
    (initial : I s) : ∃ actions t, Guarded step guard s actions ∧ run step s actions = some t ∧ I t ∧
      ∀ a, guard t a → step t a = none := by
  by_cases stuck : ∀ a, guard s a → step s a = none
  · exact ⟨[], s, trivial, rfl, initial, stuck⟩
  · push Not at stuck
    obtain ⟨a, may, enabled⟩ := stuck
    obtain ⟨next, stepped⟩ := Option.ne_none_iff_exists'.mp enabled
    have := lowered s a next may stepped initial
    obtain ⟨actions, t, within, success, last, none⟩ :=
      exists_stuck kept lowered next (kept s a next may stepped initial)
    refine ⟨a :: actions, t, ⟨may, fun other stepped' => ?_⟩, run_cons_eq_some.mpr ⟨next, stepped, success⟩,
      last, none⟩
    obtain rfl := Option.some.inj (stepped.symm.trans stepped')
    exact within
termination_by measure s

section Completion

variable {step : σ → α → Option σ} {guard : σ → α → Prop} {I final : σ → Prop} {measure : σ → ℕ}

/-- A run takes no more steps than the measure allows. -/
theorem length_run_le (kept : ∀ s a t, step s a = some t → I s → I t)
    (lowered : ∀ s a t, step s a = some t → I s → measure t < measure s) {s t : σ}
    {actions : List α} (success : run step s actions = some t) (initial : I s) :
    actions.length + measure t ≤ measure s := by
  induction actions generalizing s with
  | nil =>
    cases success
    simp
  | cons a rest ih =>
    obtain ⟨next, stepped, suffix⟩ := run_cons_eq_some.mp success
    have shorter := ih suffix (kept s a next stepped initial)
    have := lowered s a next stepped initial
    rw [List.length_cons]
    omega

/-- From wherever it is, a machine that has some guarded step before its end can come to it by such steps. -/
theorem exists_final (kept : ∀ s a t, step s a = some t → I s → I t)
    (lowered : ∀ s a t, step s a = some t → I s → measure t < measure s)
    (progress : ∀ s, I s → ¬final s → ∃ a t, guard s a ∧ step s a = some t) {s : σ} (initial : I s) :
    ∃ actions t, Guarded step guard s actions ∧ run step s actions = some t ∧ I t ∧ final t := by
  obtain ⟨actions, t, guarded, success, last, stuck⟩ := @exists_stuck _ _ step guard I measure
    (fun s a t _ => kept s a t) (fun s a t _ => lowered s a t) s initial
  refine ⟨actions, t, guarded, success, last, ?_⟩
  by_contra unfinished
  obtain ⟨a, next, may, stepped⟩ := progress t last unfinished
  cases (stuck a may).symm.trans stepped

end Completion

end SphereMultithreading.Machine
