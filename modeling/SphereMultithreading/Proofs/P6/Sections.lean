import SphereMultithreading.Machine.Permits
import SphereMultithreading.Machine.Run
import SphereMultithreading.Model.P6.Sections

/-! # The account of the section semaphores of p6

A step changes the section of one process at most, and the semaphore with it. A worker inside a
section has posted its semaphore and the cleaner has waited on it, so the first holds a negative
permit and the second a positive one: that account is balanced in every reachable state.
-/

namespace SphereMultithreading.Model.P6

open Model.HashTable HashTable Machine Machine.Permits

/-- The section a worker is in, between its `sem_down` and its `sem_up`. -/
def Worker.inside : Worker → Option (Fin numSections)
  | .call _ semId => some semId
  | .up _ semId _ => some semId
  | _ => none

/-- The section the cleaner is in, between its `sem_wait` and its `sem_post`. -/
def Cleaner.inside : Cleaner → Option (Fin numSections)
  | .clean j _ => some j
  | .post j _ => some j
  | _ => none

namespace Sections

variable {n : ℕ}

def inside (s : Sections n) : Process n → Option (Fin numSections)
  | none => s.cleaner.inside
  | some w => (s.workers w).inside

/-- What a process holds of the semaphore of a section it is in: workers took `-1`. -/
def taken : Process n → ℤ
  | none => 1
  | some _ => -1

def held (s : Sections n) (p : Process n) : Option (Fin numSections × ℤ) :=
  (s.inside p).map fun i => (i, taken p)

/-- The account of the semaphores, which all have the supply 1. -/
def Accounted (s : Sections n) : Prop :=
  Balanced (fun _ => 1) (fun i => (s.sems i : ℤ)) s.held

theorem Accounted.total {s : Sections n} (accounted : Accounted s) (i : Fin numSections) :
    (s.sems i : ℤ) + ∑ p, count (s.held p) i = 1 := accounted i

@[simp] theorem inside_setWorker (s : Sections n) (w : Fin n) (worker : Worker) :
    (s.setWorker w worker).inside = Function.update s.inside (some w) worker.inside := by
  funext p
  rcases p with _ | v
  · rfl
  · rcases eq_or_ne v w with rfl | differ
    · simp [inside, setWorker]
    · simp [inside, setWorker, differ]

@[simp] theorem inside_setCleaner (s : Sections n) (cleaner : Cleaner) :
    (s.setCleaner cleaner).inside = Function.update s.inside none cleaner.inside := by
  funext p
  rcases p with _ | v
  · rfl
  · simp [inside, setCleaner]

@[simp] theorem inside_setSem (s : Sections n) (i : Fin numSections) (value : ℕ) :
    (s.setSem i value).inside = s.inside := rfl

@[simp] theorem sems_setWorker (s : Sections n) (w : Fin n) (worker : Worker) :
    (s.setWorker w worker).sems = s.sems := rfl

@[simp] theorem sems_setCleaner (s : Sections n) (cleaner : Cleaner) :
    (s.setCleaner cleaner).sems = s.sems := rfl

@[simp] theorem sems_setSem (s : Sections n) (i : Fin numSections) (value : ℕ) :
    (s.setSem i value).sems = Function.update s.sems i value := rfl

/-! ## The processes' steps -/

theorem semWait_eq_some {s t : Sections n} {i : Fin numSections} :
    s.semWait i = some t ↔ 0 < s.sems i ∧ t = s.setSem i (s.sems i - 1) := by
  unfold semWait
  split <;> rename_i positive <;> simp [positive, eq_comm]

theorem query_eq_some {s t : Sections n} {w : Fin n} {query : Query} :
    s.query w query = some t ↔ s.workers w = .idle ∧ s.setWorker w (.down query) = t := by
  cases position : s.workers w <;> simp [Sections.query, position]

theorem semDown_eq_some {s t : Sections n} {w : Fin n} :
    s.semDown w = some t ↔ ∃ (query : Query) (i : Fin numSections),
      s.workers w = .down query ∧ query.semId = i ∧
      (s.semPost i).setWorker w (.call query i) = t := by
  cases position : s.workers w with
  | down query =>
    by_cases valid : query.semId < numSections
    · simp only [semDown, position, valid, dif_pos, Option.some.injEq, Worker.down.injEq]
      constructor
      · rintro rfl
        exact ⟨query, ⟨query.semId, valid⟩, rfl, rfl, rfl⟩
      · rintro ⟨_, i, rfl, index, rfl⟩
        obtain rfl : i = ⟨query.semId, valid⟩ := Fin.ext index.symm
        rfl
    · simp only [semDown, position, valid, dif_neg, not_false_eq_true, reduceCtorEq, false_iff]
      rintro ⟨_, i, same, index, -⟩
      cases same
      exact valid (index ▸ i.isLt)
  | _ => simp [semDown, position]

theorem call_eq_some {s t : Sections n} {w : Fin n} {clock : ℕ → ℤ} :
    s.call w clock = some t ↔ ∃ query semId reply memory, s.workers w = .call query semId ∧
      s.memory.call clock query.call = some (reply, memory) ∧
      { s with memory := memory }.setWorker w (.up query semId (query.answer reply)) = t := by
  cases position : s.workers w <;> simp [Sections.call, position]

theorem semUp_eq_some {s t : Sections n} {w : Fin n} :
    s.semUp w = some t ↔ ∃ query semId buffer, s.workers w = .up query semId buffer ∧
      0 < s.sems semId ∧
      (s.setSem semId (s.sems semId - 1)).setWorker w (.send buffer) = t := by
  cases position : s.workers w <;> simp [semUp, position, semWait_eq_some, and_assoc]

theorem send_eq_some {s t : Sections n} {w : Fin n} :
    s.send w = some t ↔ ∃ buffer, s.workers w = .send buffer ∧ s.setWorker w .idle = t := by
  cases position : s.workers w <;> simp [Sections.send, position]

theorem cleanerWake_eq_some {s t : Sections n} :
    s.cleanerWake = some t ↔ s.cleaner = .sleeping ∧ s.setCleaner (.wait 0 0) = t := by
  cases position : s.cleaner <;> simp [cleanerWake, position]

theorem cleanerWait_eq_some {s t : Sections n} :
    s.cleanerWait = some t ↔ ∃ j i, s.cleaner = .wait j i ∧ 0 < s.sems j ∧
      (s.setSem j (s.sems j - 1)).setCleaner (.clean j i) = t := by
  cases position : s.cleaner <;> simp [cleanerWait, position, semWait_eq_some, and_assoc]

theorem cleanerClean_eq_some {s t : Sections n} {clock : ℕ → ℤ} :
    s.cleanerClean clock = some t ↔ ∃ j i next memory tick, s.cleaner = .clean j i ∧
      cleanSection clock j i s.memory 0 = some (next, memory, tick) ∧
      { s with memory := memory }.setCleaner (.post j next) = t := by
  cases position : s.cleaner <;> simp [cleanerClean, position]

theorem cleanerPost_eq_some {s t : Sections n} :
    s.cleanerPost = some t ↔ ∃ j i, s.cleaner = .post j i ∧
      (s.semPost j).setCleaner (nextSection j i) = t := by
  cases position : s.cleaner <;> simp [cleanerPost, position]

/-! ## What a step changes -/

/-- Process `p` goes to section `x`, and the semaphores change with what it holds of them. -/
structure Moves (s t : Sections n) (p : Process n) (x : Option (Fin numSections)) : Prop where
  inside : t.inside = Function.update s.inside p x
  sems : ∀ i, (t.sems i : ℤ) + count (x.map fun j => (j, taken p)) i =
    s.sems i + count (s.held p) i

/-- The action makes the process enter the section. -/
inductive Enters (s : Sections n) : Action n → Process n → Fin numSections → Prop where
  | worker {w : Fin n} {query : Query} {i : Fin numSections}
      (position : s.workers w = .down query) (index : query.semId = i) :
      Enters s (.semDown w) (some w) i
  | cleaner {j : Fin numSections} {i : ℕ} (position : s.cleaner = .wait j i) :
      Enters s .semWait none j

theorem held_inside {s : Sections n} {p : Process n} {x : Option (Fin numSections)}
    (position : s.inside p = x) : s.held p = x.map fun i => (i, taken p) := by
  rw [held, position]

theorem count_held (s : Sections n) (p : Process n) (i : Fin numSections) :
    count (s.held p) i = if s.inside p = some i then taken p else 0 := by
  rcases position : s.inside p with _ | j
  · rw [held_inside position]
    rfl
  · rw [held_inside position, Option.map_some]
    rcases eq_or_ne j i with rfl | differ
    · rw [count_same, if_pos rfl]
    · rw [count_other differ, if_neg (by simpa using differ)]

theorem Moves.held_eq {s t : Sections n} {p : Process n} {x : Option (Fin numSections)}
    (moves : Moves s t p x) :
    t.held = Function.update s.held p (x.map fun i => (i, taken p)) := by
  funext q
  rcases eq_or_ne q p with rfl | differ
  · rw [held, moves.inside, Function.update_self, Function.update_self]
  · rw [held, moves.inside, Function.update_of_ne differ, Function.update_of_ne differ, held]

theorem Moves.accounted {s t : Sections n} {p : Process n} {x : Option (Fin numSections)}
    (moves : Moves s t p x) (accounted : Accounted s) : Accounted t := by
  unfold Accounted
  rw [moves.held_eq]
  exact accounted.exchange p _ moves.sems

/-- A step that leaves the semaphores and the section of its process alone. -/
theorem moves_of_same {s t : Sections n} {p : Process n} {x : Option (Fin numSections)}
    (position : s.inside p = x) (inside : t.inside = Function.update s.inside p x)
    (sems : t.sems = s.sems) : Moves s t p (s.inside p) := by
  subst position
  refine ⟨inside, fun i => ?_⟩
  rw [sems, held]

/-- Entering takes what the process holds from the semaphore. -/
theorem moves_of_enter {s t : Sections n} {p : Process n} {j : Fin numSections} {value : ℕ}
    (outside : s.inside p = none) (inside : t.inside = Function.update s.inside p (some j))
    (sems : t.sems = Function.update s.sems j value)
    (paid : (value : ℤ) + taken p = s.sems j) : Moves s t p (some j) := by
  refine ⟨inside, fun i => ?_⟩
  rw [sems, held_inside outside]
  rcases eq_or_ne i j with rfl | differ
  · simpa using paid
  · simp [differ, differ.symm]

/-- Leaving gives it back. -/
theorem moves_of_leave {s t : Sections n} {p : Process n} {j : Fin numSections} {value : ℕ}
    (position : s.inside p = some j) (inside : t.inside = Function.update s.inside p none)
    (sems : t.sems = Function.update s.sems j value)
    (repaid : (value : ℤ) = s.sems j + taken p) : Moves s t p none := by
  refine ⟨inside, fun i => ?_⟩
  rw [sems, held_inside position]
  rcases eq_or_ne i j with rfl | differ
  · simpa using repaid
  · simp [differ, differ.symm]

/-- An action that enters a section moves its process there from outside. -/
theorem Enters.moves {s t : Sections n} {a : Action n} {p : Process n} {i : Fin numSections}
    (enters : Enters s a p i) (stepped : s.step a = some t) :
    s.inside p = none ∧ Moves s t p (some i) := by
  cases enters with
  | @worker w query _ position index =>
    obtain ⟨other, j, position', index', rfl⟩ := semDown_eq_some.mp stepped
    obtain rfl := Worker.down.inj (position.symm.trans position')
    obtain rfl : i = j := Fin.ext (index.symm.trans index')
    have outside : s.inside (some w) = none := by simp [inside, position, Worker.inside]
    refine ⟨outside, moves_of_enter outside ?_ rfl ?_⟩
    · simp [semPost, Worker.inside]
    · simp [taken]
  | @cleaner _ k position =>
    obtain ⟨j, k', position', positive, rfl⟩ := cleanerWait_eq_some.mp stepped
    obtain ⟨rfl, rfl⟩ := Cleaner.wait.inj (position.symm.trans position')
    have outside : s.inside none = none := by simp [inside, position, Cleaner.inside]
    refine ⟨outside, moves_of_enter outside ?_ rfl ?_⟩
    · simp [Cleaner.inside]
    · simp only [taken]
      omega

theorem nextSection_inside (j : Fin numSections) (i : ℕ) : (nextSection j i).inside = none := by
  unfold nextSection
  split <;> rfl

/-- Every step moves one process: into a section, or out of it, or not at all. -/
theorem step_moves {s t : Sections n} {a : Action n} (stepped : s.step a = some t) :
    ∃ p x, Moves s t p x ∧ (x = none ∨ x = s.inside p ∨ ∃ i, x = some i ∧ Enters s a p i) := by
  cases a with
  | query w query =>
    obtain ⟨position, rfl⟩ := query_eq_some.mp stepped
    exact ⟨some w, _, moves_of_same (x := none) (by simp [inside, position, Worker.inside])
      (by simp [Worker.inside]) rfl, .inr (.inl rfl)⟩
  | semDown w =>
    obtain ⟨query, i, position, index, -⟩ := semDown_eq_some.mp stepped
    have enters : Enters s (.semDown w) (some w) i := .worker position index
    exact ⟨some w, some i, (enters.moves stepped).2, .inr (.inr ⟨i, rfl, enters⟩)⟩
  | call w clock =>
    obtain ⟨query, i, reply, memory, position, -, rfl⟩ := call_eq_some.mp stepped
    refine ⟨some w, _, moves_of_same (x := some i) ?_ ?_ rfl, .inr (.inl rfl)⟩
    · simp [inside, position, Worker.inside]
    · rw [inside_setWorker]
      rfl
  | semUp w =>
    obtain ⟨query, i, buffer, position, positive, rfl⟩ := semUp_eq_some.mp stepped
    refine ⟨some w, none, moves_of_leave (j := i) ?_ ?_ rfl ?_, .inl rfl⟩
    · simp [inside, position, Worker.inside]
    · simp [Worker.inside]
    · simp only [taken]
      omega
  | send w =>
    obtain ⟨buffer, position, rfl⟩ := send_eq_some.mp stepped
    exact ⟨some w, _, moves_of_same (x := none) (by simp [inside, position, Worker.inside])
      (by simp [Worker.inside]) rfl, .inr (.inl rfl)⟩
  | wake =>
    obtain ⟨position, rfl⟩ := cleanerWake_eq_some.mp stepped
    exact ⟨none, _, moves_of_same (x := none) (by simp [inside, position, Cleaner.inside])
      (by simp [Cleaner.inside]) rfl, .inr (.inl rfl)⟩
  | semWait =>
    obtain ⟨j, i, position, -, -⟩ := cleanerWait_eq_some.mp stepped
    have enters : Enters s .semWait none j := .cleaner position
    exact ⟨none, some j, (enters.moves stepped).2, .inr (.inr ⟨j, rfl, enters⟩)⟩
  | clean clock =>
    obtain ⟨j, i, next, memory, tick, position, -, rfl⟩ := cleanerClean_eq_some.mp stepped
    refine ⟨none, _, moves_of_same (x := some j) ?_ ?_ rfl, .inr (.inl rfl)⟩
    · simp [inside, position, Cleaner.inside]
    · rw [inside_setCleaner]
      rfl
  | semPost =>
    obtain ⟨j, i, position, rfl⟩ := cleanerPost_eq_some.mp stepped
    refine ⟨none, none, moves_of_leave (j := j) ?_ ?_ rfl ?_, .inl rfl⟩
    · simp [inside, position, Cleaner.inside]
    · simp [nextSection_inside, semPost]
    · simp [taken]

theorem init_inside (memory : HashTable) (p : Process n) :
    (init memory : Sections n).inside p = none := by
  cases p <;> rfl

theorem init_accounted (memory : HashTable) : Accounted (init memory : Sections n) :=
  balanced_of_unheld fun p => held_inside (init_inside memory p)

private theorem down_of_setWorker {s : Sections n} {w v : Fin n} {worker : Worker} {query : Query}
    (different : worker ≠ .down query) (position : (s.setWorker v worker).workers w = .down query) :
    s.workers w = .down query := by
  rcases eq_or_ne w v with rfl | differ
  · exact absurd ((Function.update_self ..).symm.trans position) different
  · exact (Function.update_of_ne differ ..).symm.trans position

/-- A query stays with its worker until `sem_down`, and comes from an action `query`. -/
theorem step_down {s t : Sections n} {a : Action n} (stepped : s.step a = some t) {w : Fin n}
    {query : Query} (position : t.workers w = .down query) :
    s.workers w = .down query ∨ a = .query w query := by
  cases a with
  | query v other =>
    obtain ⟨-, rfl⟩ := query_eq_some.mp stepped
    rcases eq_or_ne w v with rfl | differ
    · obtain rfl := Worker.down.inj ((Function.update_self ..).symm.trans position)
      exact .inr rfl
    · exact .inl ((Function.update_of_ne differ ..).symm.trans position)
  | semDown v =>
    obtain ⟨_, i, -, -, rfl⟩ := semDown_eq_some.mp stepped
    exact .inl (down_of_setWorker (s := s.semPost i) (by simp) position)
  | call v clock =>
    obtain ⟨_, _, reply, memory, -, -, rfl⟩ := call_eq_some.mp stepped
    exact .inl (down_of_setWorker (s := { s with memory := memory }) (by simp) position)
  | semUp v =>
    obtain ⟨_, i, _, -, -, rfl⟩ := semUp_eq_some.mp stepped
    exact .inl (down_of_setWorker (s := s.setSem i _) (by simp) position)
  | send v =>
    obtain ⟨_, -, rfl⟩ := send_eq_some.mp stepped
    exact .inl (down_of_setWorker (by simp) position)
  | wake =>
    obtain ⟨-, rfl⟩ := cleanerWake_eq_some.mp stepped
    exact .inl position
  | semWait =>
    obtain ⟨j, i, -, -, rfl⟩ := cleanerWait_eq_some.mp stepped
    exact .inl position
  | clean clock =>
    obtain ⟨j, i, next, memory, tick, -, -, rfl⟩ := cleanerClean_eq_some.mp stepped
    exact .inl position
  | semPost =>
    obtain ⟨j, i, -, rfl⟩ := cleanerPost_eq_some.mp stepped
    exact .inl position

end Sections

end SphereMultithreading.Model.P6
