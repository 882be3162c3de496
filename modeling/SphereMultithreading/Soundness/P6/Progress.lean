import SphereMultithreading.Proofs.P6.Sections
import SphereMultithreading.Soundness.P6.Exclusion
import SphereMultithreading.Soundness.P6.Representation

/-! # Every process of p6 comes to its end by itself

The semaphores of p6 never make anybody wait, and a call or a visit returns when nobody else is at the
table meanwhile. So a worker is done with a query after four steps of its own and the cleaner with a pass
after twenty-four, whatever the other processes do in between.
-/

namespace SphereMultithreading.Soundness.P6

open Machine Model.P6 Model.HashTable HashTable Proofs.HashTable Proofs.P6 Sections

variable {n : ℕ}

/-- The process that takes the step. -/
def doer : Sections.Action n → Process n
  | .query w _ => some w
  | .semDown w => some w
  | .call w _ => some w
  | .semUp w => some w
  | .send w => some w
  | .wake => none
  | .semWait => none
  | .clean _ => none
  | .semPost => none

/-- A process at rest gets something to do. -/
def Begins : Sections.Action n → Prop
  | .query _ _ => True
  | .wake => True
  | _ => False

/-- The steps of a worker until it is done with its query. -/
def workerLeft : Worker → ℕ
  | .idle => 0
  | .down _ => 4
  | .call _ _ => 3
  | .up _ _ _ => 2
  | .send _ => 1

/-- The steps of the cleaner until it is done with its pass, three for each section. -/
def cleanerLeft : Cleaner → ℕ
  | .sleeping => 0
  | .wait j _ => 3 * (numSections - j)
  | .clean j _ => 3 * (numSections - j) - 1
  | .post j _ => 3 * (numSections - j) - 2

def stepsLeft (s : Sections n) : Process n → ℕ
  | none => cleanerLeft s.cleaner
  | some w => workerLeft (s.workers w)

/-- The step a process at work takes next, at what the clock shows. -/
def next (clock : ℕ → ℤ) (s : Sections n) : Process n → Option (Sections.Action n)
  | none =>
      match s.cleaner with
      | .sleeping => none
      | .wait _ _ => some .semWait
      | .clean _ _ => some (.clean clock)
      | .post _ _ => some .semPost
  | some w =>
      match s.workers w with
      | .idle => none
      | .down _ => some (.semDown w)
      | .call _ _ => some (.call w clock)
      | .up _ _ _ => some (.semUp w)
      | .send _ => some (.send w)

/-- The query that a process is about to enter a section for has the index of a semaphore. -/
def InRange (s : Sections n) (p : Process n) : Prop :=
  ∀ w query, p = some w → s.workers w = .down query → query.semId < numSections

/-- The process is in a call of the table, or cleans a section. -/
def atTable (s : Sections n) : Process n → Bool
  | none => match s.cleaner with
    | .clean _ _ => true
    | _ => false
  | some w => match s.workers w with
    | .call _ _ => true
    | _ => false

/-- Whoever comes to the table finds nobody there. -/
def Alone (s : Sections n) : Sections.Action n → Prop
  | .semDown _ => ∀ p, atTable s p = false
  | .semWait => ∀ p, atTable s p = false
  | _ => True

instance (s : Sections n) : ∀ a, Decidable (Alone s a)
  | .semDown _ => inferInstanceAs (Decidable (∀ p, atTable s p = false))
  | .semWait => inferInstanceAs (Decidable (∀ p, atTable s p = false))
  | .query _ _ => isTrue trivial
  | .call _ _ => isTrue trivial
  | .semUp _ => isTrue trivial
  | .send _ => isTrue trivial
  | .wake => isTrue trivial
  | .clean _ => isTrue trivial
  | .semPost => isTrue trivial

/-! ## What a step leaves to do -/

@[simp] theorem stepsLeft_setWorker (s : Sections n) (w : Fin n) (worker : Worker) :
    stepsLeft (s.setWorker w worker) = Function.update (stepsLeft s) (some w) (workerLeft worker) := by
  funext p
  rcases p with _ | v
  · rfl
  · rcases eq_or_ne v w with rfl | differ
    · simp [stepsLeft, setWorker]
    · simp [stepsLeft, setWorker, differ]

@[simp] theorem stepsLeft_setCleaner (s : Sections n) (cleaner : Cleaner) :
    stepsLeft (s.setCleaner cleaner) = Function.update (stepsLeft s) none (cleanerLeft cleaner) := by
  funext p
  rcases p with _ | v
  · rfl
  · simp [stepsLeft, setCleaner]

theorem stepsLeft_setSem (s : Sections n) (i : Fin numSections) (value : ℕ) :
    stepsLeft (s.setSem i value) = stepsLeft s := by
  funext p
  cases p <;> rfl

theorem cleanerLeft_nextSection (j : Fin numSections) (i : ℕ) :
    cleanerLeft (nextSection j i) + 3 = 3 * (numSections - j) := by
  have bound := j.isLt
  unfold nextSection
  split
  · simp only [cleanerLeft]
    omega
  · simp only [cleanerLeft]
    omega

variable {s t : Sections n} {a : Sections.Action n}

/-- A process at work takes one of the steps that were left to it; the others have as many left as
before. -/
theorem step_left (stepped : s.step a = some t) : ∃ left,
    stepsLeft t = Function.update (stepsLeft s) (doer a) left ∧
      (¬ Begins a → left + 1 = stepsLeft s (doer a)) := by
  cases a with
  | query w query =>
    obtain ⟨-, rfl⟩ := query_eq_some.mp stepped
    exact ⟨_, stepsLeft_setWorker .., fun working => absurd trivial working⟩
  | semDown w =>
    obtain ⟨query, i, position, -, rfl⟩ := semDown_eq_some.mp stepped
    refine ⟨3, by rw [stepsLeft_setWorker, semPost, stepsLeft_setSem]; rfl, fun _ => ?_⟩
    simp [stepsLeft, doer, position, workerLeft]
  | call w clock =>
    obtain ⟨query, i, reply, memory, position, -, rfl⟩ := call_eq_some.mp stepped
    refine ⟨2, ?_, fun _ => by simp [stepsLeft, doer, position, workerLeft]⟩
    rw [stepsLeft_setWorker]
    rfl
  | semUp w =>
    obtain ⟨query, i, buffer, position, -, rfl⟩ := semUp_eq_some.mp stepped
    refine ⟨1, by rw [stepsLeft_setWorker, stepsLeft_setSem]; rfl, fun _ => ?_⟩
    simp [stepsLeft, doer, position, workerLeft]
  | send w =>
    obtain ⟨buffer, position, rfl⟩ := send_eq_some.mp stepped
    exact ⟨0, stepsLeft_setWorker .., fun _ => by simp [stepsLeft, doer, position, workerLeft]⟩
  | wake =>
    obtain ⟨-, rfl⟩ := cleanerWake_eq_some.mp stepped
    exact ⟨_, stepsLeft_setCleaner .., fun working => absurd trivial working⟩
  | semWait =>
    obtain ⟨j, i, position, -, rfl⟩ := cleanerWait_eq_some.mp stepped
    refine ⟨_, by rw [stepsLeft_setCleaner, stepsLeft_setSem]; rfl, fun _ => ?_⟩
    have bound := j.isLt
    simp only [stepsLeft, doer, position, cleanerLeft]
    omega
  | clean clock =>
    obtain ⟨j, i, next, memory, tick, position, -, rfl⟩ := cleanerClean_eq_some.mp stepped
    refine ⟨cleanerLeft (.post j next), ?_, fun _ => ?_⟩
    · rw [stepsLeft_setCleaner]
      rfl
    · have bound := j.isLt
      simp only [stepsLeft, doer, position, cleanerLeft]
      omega
  | semPost =>
    obtain ⟨j, i, position, rfl⟩ := cleanerPost_eq_some.mp stepped
    refine ⟨cleanerLeft (nextSection j i), ?_, fun _ => ?_⟩
    · rw [stepsLeft_setCleaner, semPost, stepsLeft_setSem]
      rfl
    have next := cleanerLeft_nextSection j i
    have left : stepsLeft s (doer (n := n) .semPost) = 3 * (numSections - j) - 2 := by
      simp only [stepsLeft, doer, position, cleanerLeft]
    have bound := j.isLt
    omega

/-- In a run in which a process begins nothing new, its steps are those it has no longer left. -/
theorem run_left {actions : List (Sections.Action n)} (success : run Sections.step s actions = some t)
    (p : Process n) (begun : ∀ a ∈ actions, doer a = p → ¬ Begins a) :
    (actions.filter fun a => doer a = p).length + stepsLeft t p = stepsLeft s p := by
  induction actions generalizing s with
  | nil =>
    cases success
    simp
  | cons a rest ih =>
    obtain ⟨next, stepped, suffix⟩ := run_cons_eq_some.mp success
    have tail := ih suffix fun b member => begun b (List.mem_cons_of_mem a member)
    obtain ⟨left, updated, taken⟩ := step_left stepped
    rw [updated] at tail
    rw [List.filter_cons]
    rcases eq_or_ne (doer a) p with rfl | differ
    · have one := taken (begun a List.mem_cons_self rfl)
      rw [Function.update_self] at tail
      simp only [decide_true, if_true, List.length_cons]
      omega
    · rw [Function.update_of_ne differ.symm] at tail
      simpa [differ] using tail

/-! ## A next step is always possible -/

theorem valid_step (stepped : s.step a = some t) (valid : Valid s.memory) : Valid t.memory := by
  cases a with
  | query w query =>
    obtain ⟨-, rfl⟩ := query_eq_some.mp stepped
    exact valid
  | semDown w =>
    obtain ⟨query, i, -, -, rfl⟩ := semDown_eq_some.mp stepped
    exact valid
  | call w clock =>
    obtain ⟨query, i, reply, memory, -, called, rfl⟩ := call_eq_some.mp stepped
    obtain ⟨reply', next, called', kept⟩ := call_valid valid clock query.call
    cases called.symm.trans called'
    exact kept
  | semUp w =>
    obtain ⟨query, i, buffer, -, -, rfl⟩ := semUp_eq_some.mp stepped
    exact valid
  | send w =>
    obtain ⟨buffer, -, rfl⟩ := send_eq_some.mp stepped
    exact valid
  | wake =>
    obtain ⟨-, rfl⟩ := cleanerWake_eq_some.mp stepped
    exact valid
  | semWait =>
    obtain ⟨j, i, -, -, rfl⟩ := cleanerWait_eq_some.mp stepped
    exact valid
  | clean clock =>
    obtain ⟨j, i, next, memory, tick, -, cleaned, rfl⟩ := cleanerClean_eq_some.mp stepped
    obtain ⟨chains, table⟩ := valid
    obtain ⟨i', m', tick', chains', cleaned', table', -⟩ := cleanSection_thins table clock j i 0
    cases cleaned.symm.trans cleaned'
    exact ⟨chains', table'⟩
  | semPost =>
    obtain ⟨j, i, -, rfl⟩ := cleanerPost_eq_some.mp stepped
    exact valid

/-- A process with steps left takes one, whatever the clock shows. -/
theorem can_step (memory : HashTable) (reachable : Reachable Sections.step (init memory) s)
    (valid : Valid s.memory) (p : Process n) (inRange : InRange s p) (working : stepsLeft s p ≠ 0)
    (clock : ℕ → ℤ) : ∃ a t, next clock s p = some a ∧ s.step a = some t := by
  obtain ⟨workerFree, cleanerFree⟩ := never_blocked memory reachable
  rcases p with _ | w
  · cases position : s.cleaner with
    | sleeping => exact absurd (by simp [stepsLeft, position, cleanerLeft]) working
    | wait j i =>
      exact ⟨.semWait, _, by simp [next, position],
        cleanerWait_eq_some.mpr ⟨j, i, position, cleanerFree j i position, rfl⟩⟩
    | clean j i =>
      obtain ⟨chains, table⟩ := valid
      obtain ⟨i', m', tick, -, cleaned, -⟩ := cleanSection_thins table clock j i 0
      exact ⟨.clean clock, _, by simp [next, position],
        cleanerClean_eq_some.mpr ⟨j, i, i', m', tick, position, cleaned, rfl⟩⟩
    | post j i =>
      exact ⟨.semPost, _, by simp [next, position], cleanerPost_eq_some.mpr ⟨j, i, position, rfl⟩⟩
  · cases position : s.workers w with
    | idle => exact absurd (by simp [stepsLeft, position, workerLeft]) working
    | down query =>
      exact ⟨.semDown w, _, by simp [next, position],
        semDown_eq_some.mpr ⟨query, ⟨_, inRange w query rfl position⟩, position, rfl, rfl⟩⟩
    | call query i =>
      obtain ⟨reply, m', called, -⟩ := call_valid valid clock query.call
      exact ⟨.call w clock, _, by simp [next, position],
        call_eq_some.mpr ⟨query, i, reply, m', position, called, rfl⟩⟩
    | up query i buffer =>
      exact ⟨.semUp w, _, by simp [next, position],
        semUp_eq_some.mpr ⟨query, i, buffer, position, workerFree w query i buffer position, rfl⟩⟩
    | send buffer =>
      exact ⟨.send w, _, by simp [next, position], send_eq_some.mpr ⟨buffer, position, rfl⟩⟩

theorem inside_eq_none_of_left {p : Process n} (rest : stepsLeft s p = 0) : s.inside p = none := by
  rcases p with _ | w
  · cases position : s.cleaner with
    | sleeping => simp [Sections.inside, position, Cleaner.inside]
    | _ j =>
      have bound := j.isLt
      simp only [stepsLeft, position, cleanerLeft] at rest
      omega
  · cases position : s.workers w with
    | idle => simp [Sections.inside, position, Worker.inside]
    | _ => simp [stepsLeft, position, workerLeft] at rest

/-- From any state on that is reached with no two processes at the table, in every such run in which a process
begins nothing new, it takes exactly the steps it had left until it is at rest, and can take each of them at
once. When all are at rest, all semaphores have their initial value. -/
theorem sections_wait_free (memory : HashTable) {before after : List (Sections.Action n)}
    {s t : Sections n} (success : run Sections.step (init memory.sharedMemorySet) before = some s)
    (later : run Sections.step s after = some t)
    (_ : Guarded Sections.step Alone (init memory.sharedMemorySet) (before ++ after)) :
    (∀ p : Process n, (∀ a ∈ after, doer a = p → ¬ Begins a) →
      (after.filter fun a => doer a = p).length + stepsLeft t p = stepsLeft s p ∧
      ∀ clock : ℕ → ℤ, InRange t p → stepsLeft t p ≠ 0 →
        ∃ a u, next clock t p = some a ∧ t.step a = some u) ∧
      ((∀ p, stepsLeft t p = 0) → ∀ i, t.sems i = 1) := by
  have valid : Valid t.memory := by
    apply run_preserves (fun _ _ _ => valid_step) later
    apply run_preserves (fun _ _ _ => valid_step) success
    exact ⟨_, table_sharedMemorySet memory⟩
  have reachable : Reachable Sections.step (init memory.sharedMemorySet) t :=
    Reachable.run ⟨before, success⟩ later
  constructor
  · intro p begun
    exact ⟨run_left later p begun, fun clock inRange working =>
      can_step memory.sharedMemorySet reachable valid p inRange working clock⟩
  · intro resting i
    have accounted : Accounted t := by
      apply reachable.preserves _ (init_accounted memory.sharedMemorySet)
      intro s a t stepped accounted
      obtain ⟨p, x, moves, -⟩ := step_moves stepped
      exact moves.accounted accounted
    have unheld (p : Process n) : Permits.count (t.held p) i = 0 := by
      rw [held_inside (inside_eq_none_of_left (resting p))]
      rfl
    exact_mod_cast accounted.value_of_unheld unheld

/-- A worker takes a query and calls the table. -/
def called : List (Sections.Action 1) := [.query 0 ⟨0, 5, 60, .SET⟩, .semDown 0, .call 0 fun _ => 0]

/-- The cleaner passes the semaphore of the worker, which has two steps left. -/
theorem sections_wait_free_passing : ∃ s t : Sections 1,
    run Sections.step (init zeroed.sharedMemorySet) called = some s ∧
      run Sections.step s [.wake, .semWait] = some t ∧ 0 + stepsLeft t (some 0) = stepsLeft s (some 0) ∧
      ∀ clock : ℕ → ℤ, ∃ a u, next clock t (some 0) = some a ∧ t.step a = some u := by
  obtain ⟨s, t, success, later, left, range⟩ : ∃ s t : Sections 1,
      run Sections.step (init zeroed.sharedMemorySet) called = some s ∧
        run Sections.step s [.wake, .semWait] = some t ∧ stepsLeft t (some 0) = 2 ∧
        ∀ query, t.workers 0 ≠ .down query := ⟨_, _, rfl, rfl, rfl, nofun⟩
  have alone : Guarded Sections.step Alone (init zeroed.sharedMemorySet)
      (called ++ ([.wake, .semWait] : List (Sections.Action 1))) := by decide +kernel
  have begun : ∀ a ∈ ([.wake, .semWait] : List (Sections.Action 1)), doer a = some 0 → ¬ Begins a := by
    simp [doer]
  obtain ⟨steps, able⟩ := (sections_wait_free zeroed success later alone).1 (some 0) begun
  have inRange : InRange t (some 0) := by
    rintro w query ⟨⟩ position
    exact absurd position (range query)
  exact ⟨s, t, success, later, steps, fun clock => able clock inRange (by omega)⟩

end SphereMultithreading.Soundness.P6
