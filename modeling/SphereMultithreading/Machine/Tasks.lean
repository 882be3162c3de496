import Mathlib
import SphereMultithreading.Machine.Run

/-! # Tasks over a shared memory

A task reads and writes a shared memory, and forks pairs of tasks that it waits for. The tasks that
exist at a time take their steps in any order. When the two tasks of every fork keep to cells of their
own, no step changes what executing the rest in sequence leads to, nor the number of steps that takes
beyond counting down.
-/

namespace SphereMultithreading.Machine

inductive Task (ι V : Type*) where
  | done
  | read (i : ι) (next : V → Task ι V)
  | write (i : ι) (v : V) (next : Task ι V)
  | fork (left right next : Task ι V)

namespace Task

variable {ι V : Type*} [DecidableEq ι] {t t' : Task ι V} {m m' : ι → V} {R : Set ι}

/-- One after the other, the left task of a fork first. -/
def eval : Task ι V → (ι → V) → ι → V
  | done, m => m
  | read i next, m => (next (m i)).eval m
  | write i v next, m => next.eval (Function.update m i v)
  | fork left right next, m => next.eval (right.eval (left.eval m))

/-- The number of steps, the end of a wait being one. -/
def steps : Task ι V → (ι → V) → ℕ
  | done, _ => 0
  | read i next, m => (next (m i)).steps m + 1
  | write i v next, m => next.steps (Function.update m i v) + 1
  | fork left right next, m =>
      left.steps m + right.steps (left.eval m) + next.steps (right.eval (left.eval m)) + 1

/-- A step of one of the tasks that exist; the path leads to it through the forks, `true` to the
right. -/
def step : Task ι V × (ι → V) → List Bool → Option (Task ι V × (ι → V))
  | (read i next, m), [] => some (next (m i), m)
  | (write i v next, m), [] => some (next, Function.update m i v)
  | (fork done done next, m), [] => some (next, m)
  | (fork left right next, m), false :: path =>
      (step (left, m) path).map fun (left, m) => (fork left right next, m)
  | (fork left right next, m), true :: path =>
      (step (right, m) path).map fun (right, m) => (fork left right next, m)
  | _, _ => none

/-- The cell that a task is about to read or write. -/
def cell : Task ι V → List Bool → Option ι
  | read i _, [] => some i
  | write i _ _, [] => some i
  | fork left _ _, false :: path => left.cell path
  | fork _ right _, true :: path => right.cell path
  | _, _ => none

/-- All cells the task touches are in the set, and the two tasks of each fork have none in common. -/
inductive Confined : Set ι → Task ι V → Prop where
  | done {R : Set ι} : Confined R done
  | read {R : Set ι} {i : ι} {next : V → Task ι V} :
      i ∈ R → (∀ v, Confined R (next v)) → Confined R (read i next)
  | write {R : Set ι} {i : ι} {v : V} {next : Task ι V} :
      i ∈ R → Confined R next → Confined R (write i v next)
  | fork {R R₁ R₂ : Set ι} {left right next : Task ι V} :
      Confined R₁ left → Confined R₂ right → Disjoint R₁ R₂ → R₁ ⊆ R → R₂ ⊆ R →
      Confined R next → Confined R (fork left right next)

/-! ## What a confined task does not touch -/

theorem Confined.eval_apply (confined : Confined R t) {i : ι} (outside : i ∉ R) (m : ι → V) :
    t.eval m i = m i := by
  induction confined generalizing m with
  | done => rfl
  | read _ _ ih => exact ih _ outside m
  | write inside _ ih =>
    rw [eval, ih outside, Function.update_of_ne]
    rintro rfl
    exact outside inside
  | fork _ _ _ sub₁ sub₂ _ left right next =>
    rw [eval, next outside, right fun member => outside (sub₂ member),
      left fun member => outside (sub₁ member)]

/-- A write elsewhere might as well have come later. -/
theorem Confined.update (confined : Confined R t) {i : ι} (outside : i ∉ R) (v : V) (m : ι → V) :
    t.eval (Function.update m i v) = Function.update (t.eval m) i v ∧
      t.steps (Function.update m i v) = t.steps m := by
  induction confined generalizing m with
  | done => exact ⟨rfl, rfl⟩
  | @read R j next inside _ ih =>
    have differ : j ≠ i := fun equal => outside (equal ▸ inside)
    have same : Function.update m i v j = m j := Function.update_of_ne differ ..
    obtain ⟨evals, counts⟩ := ih (m j) outside m
    rw [eval, steps, same, evals, counts]
    exact ⟨rfl, rfl⟩
  | @write R j w next inside _ ih =>
    have differ : i ≠ j := fun equal => outside (equal ▸ inside)
    obtain ⟨evals, counts⟩ := ih outside (Function.update m j w)
    rw [eval, steps, Function.update_comm differ, evals, counts]
    exact ⟨rfl, rfl⟩
  | fork _ _ _ sub₁ sub₂ _ left right next =>
    obtain ⟨evals₁, counts₁⟩ := left (fun member => outside (sub₁ member)) m
    obtain ⟨evals₂, counts₂⟩ := right (fun member => outside (sub₂ member)) _
    obtain ⟨evals₃, counts₃⟩ := next outside _
    rw [eval, steps, evals₁, evals₂, evals₃, counts₁, counts₂, counts₃]
    exact ⟨rfl, rfl⟩

/-! ## The next accesses -/

omit [DecidableEq ι] in
theorem Confined.cell_mem (confined : Confined R t) {path : List Bool} {i : ι}
    (next : t.cell path = some i) : i ∈ R := by
  induction confined generalizing path with
  | done => cases next
  | read inside _ _ | write inside _ _ =>
    cases path <;> cases next
    exact inside
  | fork _ _ _ sub₁ sub₂ _ ih₁ ih₂ _ =>
    rcases path with _ | ⟨_ | _, path⟩
    · cases next
    · exact sub₁ (ih₁ next)
    · exact sub₂ (ih₂ next)

omit [DecidableEq ι] in
/-- Two tasks that exist at the same time are about to touch different cells. -/
theorem Confined.cell_ne (confined : Confined R t) {path path' : List Bool} (differ : path ≠ path')
    {i : ι} (next : t.cell path = some i) : t.cell path' ≠ some i := by
  induction confined generalizing path path' with
  | done => cases next
  | read _ _ _ | write _ _ _ =>
    cases path <;> cases next
    cases path' with
    | nil => exact (differ rfl).elim
    | cons _ _ => exact fun other => by cases other
  | fork left right disjoint _ _ _ ih₁ ih₂ _ =>
    rcases path with _ | ⟨_ | _, path⟩ <;> rcases path' with _ | ⟨_ | _, path'⟩ <;>
      try (first | cases next | exact fun other => by cases other)
    · exact ih₁ (fun same => differ (congrArg _ same)) next
    · exact fun other => Set.disjoint_left.mp disjoint (left.cell_mem next) (right.cell_mem other)
    · exact fun other => Set.disjoint_left.mp disjoint (left.cell_mem other) (right.cell_mem next)
    · exact ih₂ (fun same => differ (congrArg _ same)) next

/-! ## Steps -/

theorem step_read {i : ι} {next : V → Task ι V} {path : List Bool} {s : Task ι V × (ι → V)}
    (stepped : step (read i next, m) path = some s) : path = [] ∧ s = (next (m i), m) := by
  cases path with
  | nil => exact ⟨rfl, (Option.some.inj stepped).symm⟩
  | cons _ _ => cases stepped

theorem step_write {i : ι} {v : V} {next : Task ι V} {path : List Bool} {s : Task ι V × (ι → V)}
    (stepped : step (write i v next, m) path = some s) :
    path = [] ∧ s = (next, Function.update m i v) := by
  cases path with
  | nil => exact ⟨rfl, (Option.some.inj stepped).symm⟩
  | cons _ _ => cases stepped

/-- The wait ends, or one of the two tasks takes a step. -/
theorem step_fork {left right next : Task ι V} {path : List Bool} {s : Task ι V × (ι → V)}
    (stepped : step (fork left right next, m) path = some s) :
    (path = [] ∧ left = done ∧ right = done ∧ s = (next, m)) ∨
      (∃ rest left' m', path = false :: rest ∧ step (left, m) rest = some (left', m') ∧
        s = (fork left' right next, m')) ∨
      ∃ rest right' m', path = true :: rest ∧ step (right, m) rest = some (right', m') ∧
        s = (fork left right' next, m') := by
  rcases path with _ | ⟨_ | _, rest⟩
  · left
    cases left <;> cases right <;> simp_all [step]
  · right; left
    rw [step] at stepped
    obtain ⟨⟨left', m'⟩, inner, same⟩ := Option.map_eq_some_iff.mp stepped
    exact ⟨rest, left', m', rfl, inner, same.symm⟩
  · right; right
    rw [step] at stepped
    obtain ⟨⟨right', m'⟩, inner, same⟩ := Option.map_eq_some_iff.mp stepped
    exact ⟨rest, right', m', rfl, inner, same.symm⟩

/-- What a step does to the memory: nothing, or a write to a cell of the set. -/
def Effect (R : Set ι) (change : (ι → V) → ι → V) : Prop :=
  change = id ∨ ∃ i ∈ R, ∃ v, change = fun m => Function.update m i v

theorem Effect.mono {R' : Set ι} {change : (ι → V) → ι → V} (effect : Effect R change)
    (sub : R ⊆ R') : Effect R' change :=
  effect.imp_right fun ⟨i, inside, v, same⟩ => ⟨i, sub inside, v, same⟩

/-- A step depends on the cells of the set only, and changes no other. -/
theorem Confined.step_local (confined : Confined R t) {path : List Bool}
    (stepped : step (t, m) path = some (t', m')) :
    Confined R t' ∧ ∃ change, Effect R change ∧
      ∀ n, (∀ i ∈ R, n i = m i) → step (t, n) path = some (t', change n) := by
  induction confined generalizing path t' m' with
  | done => cases path <;> cases stepped
  | @read R i next inside rest =>
    obtain ⟨rfl, same⟩ := step_read stepped
    cases same
    refine ⟨rest _, id, .inl rfl, fun n agree => ?_⟩
    rw [← agree i inside]
    rfl
  | @write R i v next inside rest =>
    obtain ⟨rfl, same⟩ := step_write stepped
    cases same
    exact ⟨rest, _, .inr ⟨i, inside, v, rfl⟩, fun n _ => rfl⟩
  | @fork R R₁ R₂ left right next confined₁ confined₂ disjoint sub₁ sub₂ rest ih₁ ih₂ _ =>
    obtain ⟨rfl, rfl, rfl, same⟩ | ⟨path, left', m₁, rfl, inner, same⟩ |
      ⟨path, right', m₁, rfl, inner, same⟩ := step_fork stepped
    · cases same
      exact ⟨rest, id, .inl rfl, fun n _ => rfl⟩
    · cases same
      obtain ⟨confined', change, effect, elsewhere⟩ := ih₁ inner
      refine ⟨.fork confined' confined₂ disjoint sub₁ sub₂ rest, change, effect.mono sub₁, ?_⟩
      intro n agree
      rw [step, elsewhere n fun i inside => agree i (sub₁ inside)]
      rfl
    · cases same
      obtain ⟨confined', change, effect, elsewhere⟩ := ih₂ inner
      refine ⟨.fork confined₁ confined' disjoint sub₁ sub₂ rest, change, effect.mono sub₂, ?_⟩
      intro n agree
      rw [step, elsewhere n fun i inside => agree i (sub₂ inside)]
      rfl

/-- An effect elsewhere might as well have come later. -/
theorem Confined.effect {R' : Set ι} (confined : Confined R t) (disjoint : Disjoint R R')
    {change : (ι → V) → ι → V} (effect : Effect R' change) (m : ι → V) :
    t.eval (change m) = change (t.eval m) ∧ t.steps (change m) = t.steps m := by
  obtain rfl | ⟨i, inside, v, rfl⟩ := effect
  · exact ⟨rfl, rfl⟩
  · exact confined.update (disjoint.notMem_of_mem_right inside) v m

/-- A step leaves the rest to be executed with the same result. -/
theorem Confined.eval_step (confined : Confined R t) {path : List Bool}
    (stepped : step (t, m) path = some (t', m')) :
    t'.eval m' = t.eval m ∧ t'.steps m' + 1 = t.steps m := by
  induction confined generalizing path t' m m' with
  | done => cases path <;> cases stepped
  | read _ _ _ =>
    obtain ⟨rfl, same⟩ := step_read stepped
    cases same
    exact ⟨rfl, rfl⟩
  | write _ _ _ =>
    obtain ⟨rfl, same⟩ := step_write stepped
    cases same
    exact ⟨rfl, rfl⟩
  | @fork R R₁ R₂ left right next confined₁ confined₂ disjoint sub₁ sub₂ rest ih₁ ih₂ _ =>
    obtain ⟨rfl, rfl, rfl, same⟩ | ⟨path, left', m₁, rfl, inner, same⟩ |
      ⟨path, right', m₁, rfl, inner, same⟩ := step_fork stepped
    · cases same
      simp [eval, steps]
    · cases same
      obtain ⟨evals, counts⟩ := ih₁ inner
      rw [eval, eval, steps, steps, evals]
      exact ⟨rfl, by omega⟩
    · cases same
      -- the step of the right task is taken where the left one has not finished
      obtain ⟨-, change, effect, elsewhere⟩ := confined₂.step_local inner
      have here := elsewhere m fun _ _ => rfl
      cases here.symm.trans inner
      have after : step (right, left.eval m) path = some (right', change (left.eval m)) :=
        elsewhere _ fun i inside => confined₁.eval_apply (disjoint.notMem_of_mem_right inside) m
      obtain ⟨evals, counts⟩ := ih₂ after
      obtain ⟨moved, same⟩ := confined₁.effect disjoint effect m
      rw [eval, eval, steps, steps, moved, evals, same]
      exact ⟨rfl, by omega⟩

/-- Some task can go on until all are done. -/
theorem exists_step (unfinished : t ≠ done) (m : ι → V) :
    ∃ path s, step (t, m) path = some s := by
  induction t with
  | done => exact absurd rfl unfinished
  | read i next => exact ⟨[], _, rfl⟩
  | write i v next => exact ⟨[], _, rfl⟩
  | fork left right next ih₁ ih₂ _ =>
    by_cases doneLeft : left = done
    · by_cases doneRight : right = done
      · subst doneLeft doneRight
        exact ⟨[], _, rfl⟩
      · obtain ⟨path, s, stepped⟩ := ih₂ doneRight
        exact ⟨true :: path, _, by rw [step, stepped]; rfl⟩
    · obtain ⟨path, s, stepped⟩ := ih₁ doneLeft
      exact ⟨false :: path, _, by rw [step, stepped]; rfl⟩

/-! ## Schedules -/

/-- Every schedule leaves the rest to be executed with the same result, in the steps that are left. -/
theorem Confined.eval_run (confined : Confined R t) {schedule : List (List Bool)}
    (success : run step (t, m) schedule = some (t', m')) :
    Confined R t' ∧ t'.eval m' = t.eval m ∧ t'.steps m' + schedule.length = t.steps m := by
  induction schedule generalizing t m with
  | nil =>
    cases success
    exact ⟨confined, rfl, rfl⟩
  | cons path schedule ih =>
    obtain ⟨⟨t₁, m₁⟩, stepped, suffix⟩ := run_cons_eq_some.mp success
    obtain ⟨confined₁, -⟩ := confined.step_local stepped
    obtain ⟨evals, counts⟩ := confined.eval_step stepped
    obtain ⟨confined', evals', counts'⟩ := ih confined₁ suffix
    refine ⟨confined', evals'.trans evals, ?_⟩
    rw [List.length_cons]
    omega

/-- Whatever has happened so far, the tasks can go on, and when they are done they have done what the
sequential execution does. -/
theorem Confined.complete (confined : Confined R t) (m : ι → V) :
    ∃ schedule, run step (t, m) schedule = some (Task.done, t.eval m) := by
  induction count : t.steps m generalizing t m with
  | zero =>
    by_cases finished : t = Task.done
    · subst finished
      exact ⟨[], rfl⟩
    · obtain ⟨path, ⟨t', m'⟩, stepped⟩ := exists_step finished m
      obtain ⟨-, counts⟩ := confined.eval_step stepped
      omega
  | succ n ih =>
    by_cases finished : t = Task.done
    · subst finished
      cases count
    · obtain ⟨path, ⟨t', m'⟩, stepped⟩ := exists_step finished m
      obtain ⟨evals, counts⟩ := confined.eval_step stepped
      obtain ⟨schedule, success⟩ := ih (confined.step_local stepped).1 m' (by omega)
      refine ⟨path :: schedule, run_cons_eq_some.mpr ⟨_, stepped, ?_⟩⟩
      rw [success, evals]

end Task

end SphereMultithreading.Machine
