import SphereMultithreading.Proofs.P6.Sections

/-! # What the section semaphores of p6 exclude

`sem_down` of a worker posts where it should wait, and the index it posts runs to 31 where the
array has 8 semaphores. No operation of the protocol ever waits for another process, so two
processes stay out of one section only by the order in which they happen to come: exactly when
each of them finds the semaphore of its section at its initial value.
-/

namespace SphereMultithreading.Soundness.P6

open Model.P6 Model.HashTable HashTable Machine Machine.Permits Sections

variable {n : ℕ}

/-- No worker is about to use an index past the semaphores, and no two processes are in one
section. -/
structure Excluded (s : Sections n) : Prop where
  inRange : ∀ w query, s.workers w = .down query → query.semId < numSections
  apart : ∀ p q i, s.inside p = some i → s.inside q = some i → p = q

/-- The query taken has the index of a semaphore, and the section entered has its semaphore at
the initial value. -/
structure Undisturbed (s : Sections n) (a : Action n) : Prop where
  inRange : ∀ w query, a = .query w query → query.semId < numSections
  initial : ∀ p i, Enters s a p i → s.sems i = 1

/-- When no two processes share a section, a semaphore at its initial value belongs to a section
that nobody is in. -/
theorem nobody_inside {s : Sections n} (excluded : Excluded s) (accounted : Accounted s)
    {i : Fin numSections} (initial : s.sems i = 1) (p : Process n) : s.inside p ≠ some i := by
  intro position
  have others : ∀ q, q ≠ p → count (s.held q) i = 0 := by
    intro q differ
    rw [count_held, if_neg]
    intro together
    exact differ (excluded.apart q p i together position)
  have left := accounted.value_of_alone p others
  rw [count_held, if_pos position] at left
  rcases p with _ | w <;> simp only [taken] at left <;> omega

/-- Processes stay apart when the one that moves comes into a section nobody is in. -/
private theorem apart_of_moves {s t : Sections n} {p : Process n} {x : Option (Fin numSections)}
    (moves : Moves s t p x) (excluded : Excluded s)
    (entered : ∀ i, x = some i → s.inside p = some i ∨ ∀ q, s.inside q ≠ some i) :
    ∀ q r i, t.inside q = some i → t.inside r = some i → q = r := by
  -- whoever meets the moved process in its section was there before, and so was the process
  have meets : ∀ q i, t.inside p = some i → t.inside q = some i → p = q := by
    intro q i moved position
    by_contra differ
    rw [moves.inside, Function.update_of_ne (Ne.symm differ)] at position
    rw [moves.inside, Function.update_self] at moved
    rcases entered i moved with before | nobody
    · exact differ (excluded.apart p q i before position)
    · exact nobody q position
  intro q r i first second
  by_cases movedFirst : q = p
  · subst movedFirst
    exact meets r i first second
  · by_cases movedSecond : r = p
    · subst movedSecond
      exact (meets q i second first).symm
    · rw [moves.inside, Function.update_of_ne movedFirst] at first
      rw [moves.inside, Function.update_of_ne movedSecond] at second
      exact excluded.apart q r i first second

theorem excluded_step {s t : Sections n} {a : Action n} (stepped : s.step a = some t)
    (excluded : Excluded s) (accounted : Accounted s) (undisturbed : Undisturbed s a) :
    Excluded t := by
  constructor
  · intro w query position
    rcases step_down stepped position with before | taken
    · exact excluded.inRange w query before
    · exact undisturbed.inRange w query taken
  · obtain ⟨p, x, moves, outcome⟩ := step_moves stepped
    apply apart_of_moves moves excluded
    rintro i rfl
    rcases outcome with absurd | same | ⟨j, equal, enters⟩
    · cases absurd
    · exact .inl same.symm
    · cases equal
      exact .inr (nobody_inside excluded accounted (undisturbed.initial p i enters))

/-- A step after which no section is shared found nobody in the section it entered, and so its
semaphore at the initial value. -/
theorem undisturbed_of_excluded {s t : Sections n} {a : Action n} (stepped : s.step a = some t)
    (accounted : Accounted s) (excluded : Excluded t) : Undisturbed s a := by
  constructor
  · rintro w query rfl
    obtain ⟨-, rfl⟩ := query_eq_some.mp stepped
    apply excluded.inRange w query
    exact Function.update_self ..
  · intro p i enters
    obtain ⟨outside, moves⟩ := enters.moves stepped
    have there : t.inside p = some i := by rw [moves.inside, Function.update_self]
    have unheld : ∀ q, count (s.held q) i = 0 := by
      intro q
      rw [count_held, if_neg]
      intro position
      have differ : q ≠ p := by
        rintro rfl
        exact absurd (outside.symm.trans position) (by simp)
      apply differ
      apply excluded.apart q p i _ there
      rw [moves.inside, Function.update_of_ne differ, position]
    exact_mod_cast accounted.value_of_unheld unheld

/-- In a run of any number of workers and the cleaner, the sections exclude exactly when every
query has an index below `NUM_SECTIONS` and every process finds the semaphore of the section it
enters at 1. -/
theorem sections_exclude_iff (memory : HashTable) {actions : List (Action n)} {t : Sections n}
    (success : run step (init memory) actions = some t) :
    Throughout step Excluded (init memory) actions ↔
      Guarded step Undisturbed (init memory) actions := by
  apply throughout_iff_guarded (I := fun s => Excluded s ∧ Accounted s) _ _ _ success
  · refine ⟨⟨nofun, ?_⟩, init_accounted memory⟩
    intro p q i position
    rw [init_inside] at position
    cases position
  · exact fun _ both => both.1
  · rintro s a t stepped ⟨excluded, accounted⟩ undisturbed
    obtain ⟨p, x, moves, -⟩ := step_moves stepped
    exact ⟨excluded_step stepped excluded accounted undisturbed, moves.accounted accounted⟩
  · rintro s a t stepped ⟨-, accounted⟩ excluded
    exact undisturbed_of_excluded stepped accounted excluded

/-- Two workers set keys of one section, and the cleaner visits it after the first of them. -/
def meeting : List (Action 2) :=
  [.query 0 ⟨0, 5, 60, .SET⟩, .semDown 0, .wake, .semWait, .query 1 ⟨1, 7, 60, .SET⟩, .semDown 1]

theorem sections_exclude_meeting :
    ∃ t, run step (init zeroed.sharedMemorySet) meeting = some t ∧
      (Throughout step Excluded (init zeroed.sharedMemorySet) meeting ↔
        Guarded step Undisturbed (init zeroed.sharedMemorySet) meeting) :=
  ⟨_, rfl, sections_exclude_iff zeroed.sharedMemorySet rfl⟩

/-- The workers and the cleaner are in section 0 together. A query of key 64 has the index 8. -/
theorem sections_exclude_fails :
    (∃ t, run step (init zeroed.sharedMemorySet) meeting = some t ∧
      ∀ p : Process 2, t.inside p = some 0) ∧
    ∃ t : Sections 1, run step (init zeroed.sharedMemorySet) [.query 0 ⟨64, 5, 60, .SET⟩] = some t ∧
      ¬ Excluded t := by
  refine ⟨⟨_, rfl, ?_⟩, _, rfl, ?_⟩
  · decide
  · intro excluded
    exact absurd (excluded.inRange 0 _ rfl) (by decide)

/-! ## Nobody ever waits -/

/-- Whatever has happened, a worker passes `sem_up` and the cleaner passes `sem_wait` at once:
what the workers inside have posted is there for them. -/
theorem never_blocked (memory : HashTable) {s : Sections n}
    (reachable : Reachable step (init memory) s) :
    (∀ w query i buffer, s.workers w = .up query i buffer → 0 < s.sems i) ∧
      ∀ j i, s.cleaner = .wait j i → 0 < s.sems j := by
  have accounted : Accounted s := by
    apply reachable.preserves _ (init_accounted memory)
    intro s a t stepped accounted
    obtain ⟨p, x, moves, -⟩ := step_moves stepped
    exact moves.accounted accounted
  have workers : ∀ w i, count (s.held (some w)) i ≤ 0 := by
    intro w i
    rw [count_held]
    split <;> simp [taken]
  constructor
  · intro w query i buffer position
    have total := accounted.total i
    rw [Fintype.sum_option, ← Finset.add_sum_erase _ _ (Finset.mem_univ w)] at total
    have others := Finset.sum_nonpos fun v (_ : v ∈ Finset.univ.erase w) => workers v i
    have own : count (s.held (some w)) i = -1 := by
      rw [count_held, if_pos (by rw [inside, position]; rfl)]
      rfl
    have cleaner : count (s.held none) i ≤ 1 := by
      rw [count_held]
      split <;> simp [taken]
    omega
  · intro j i position
    have total := accounted.total j
    rw [Fintype.sum_option] at total
    have others := Finset.sum_nonpos fun w (_ : w ∈ Finset.univ) => workers w j
    have own : count (s.held none) j = 0 := by
      rw [count_held, if_neg (by simp [inside, position, Cleaner.inside])]
    omega

end SphereMultithreading.Soundness.P6
