import SphereMultithreading.Machine.Run
import SphereMultithreading.Model.P6.Acceptor

/-! # Connections between acceptor and workers of p6

One event stands for all that has arrived since the last one, but acceptor and workers handle one
item for each event. Whatever arrives together with another item stays in its queue.
-/

namespace SphereMultithreading.Soundness.P6

open Machine Model.P6 Model.P6.Passing

/-- When the acceptor and a worker wait and none of their events is announced, the accept queue and
the worker's channel are empty. -/
def Passed (s : Passing) : Prop :=
  ∀ w, s.acceptor = .epollWait → s.listener.announced = false → s.workers w = .epollWait →
    (s.channels w).announced = false → s.listener.pending = [] ∧ (s.channels w).pending = []

/-- Everything that waits is announced, or its event is being handled. -/
def Attended (s : Passing) : Prop :=
  s.listener.Covered (s.acceptor = .masterEvent) ∧
    ∀ w, (s.channels w).Covered (s.workers w = .masterEvent)

/-- An event stands for one item, or what is left is announced again. -/
def OneByOne (s : Passing) : Action → Prop
  | .accept _ _ => (s.listener.drop 1).Covered False
  | .read w => ((s.channels w).drop 1).Covered False
  | _ => True

theorem attended_init : Attended init := ⟨Edge.covered_empty _, fun _ => Edge.covered_empty _⟩

variable {s t : Passing} {a : Action}

theorem Attended.passed (attended : Attended s) : Passed s := by
  intro w acceptor listener worker channel
  constructor
  · by_contra waits
    have busy := (attended.1 waits).resolve_left (by simp [listener])
    cases acceptor.symm.trans busy
  · by_contra waits
    have busy := (attended.2 w waits).resolve_left (by simp [channel])
    cases worker.symm.trans busy

/-- The channels after one of them changed. -/
private theorem attended_update {w : Fin numWorkers} {channel : Edge ℕ} {worker : Loop}
    (others : ∀ v, (s.channels v).Covered (s.workers v = .masterEvent))
    (covered : channel.Covered (worker = .masterEvent)) (v : Fin numWorkers) :
    (Function.update s.channels w channel v).Covered
      (Function.update s.workers w worker v = .masterEvent) := by
  rcases eq_or_ne v w with rfl | differ
  · rw [Function.update_self, Function.update_self]
    exact covered
  · rw [Function.update_of_ne differ, Function.update_of_ne differ]
    exact others v

private theorem attended_written {w : Fin numWorkers} {connection : ℕ}
    (others : ∀ v, (s.channels v).Covered (s.workers v = .masterEvent)) (v : Fin numWorkers) :
    (Function.update s.channels w ((s.channels w).arrive [connection]) v).Covered
      (s.workers v = .masterEvent) := by
  rcases eq_or_ne v w with rfl | differ
  · rw [Function.update_self]
    exact Edge.covered_arrive _ _ _
  · rw [Function.update_of_ne differ]
    exact others v

theorem attended_step (stepped : s.step a = some t) (attended : Attended s)
    (single : OneByOne s a) : Attended t := by
  obtain ⟨listener, channels⟩ := attended
  cases a with
  | connect =>
    cases stepped
    exact ⟨Edge.covered_arrive _ _ _, channels⟩
  | acceptorWait =>
    obtain ⟨-, same⟩ := Option.ite_none_right_eq_some.mp stepped
    cases same
    exact ⟨Edge.covered_busy _ rfl, channels⟩
  | accept rand room =>
    simp only [Passing.step, Passing.accept] at stepped
    split at stepped
    · cases stepped
    · split at stepped
      · next empty =>
        cases stepped
        exact ⟨fun waits => absurd empty waits, channels⟩
      · cases stepped
        cases room with
        | true => exact ⟨Edge.Covered.imp single False.elim, attended_written channels⟩
        | false => exact ⟨Edge.Covered.imp single False.elim, channels⟩
  | workerWait w =>
    obtain ⟨-, same⟩ := Option.ite_none_right_eq_some.mp stepped
    cases same
    exact ⟨listener, attended_update channels (Edge.covered_busy _ rfl)⟩
  | read w =>
    simp only [Passing.step, Passing.read] at stepped
    split at stepped
    · cases stepped
      exact ⟨listener, attended_update channels (Edge.Covered.imp single False.elim)⟩
    · cases stepped

/-- What is left behind an event is attended to only if it is announced. -/
theorem oneByOne_of_attended (stepped : s.step a = some t) (attended : Attended t) :
    OneByOne s a := by
  cases a with
  | accept rand room =>
    simp only [Passing.step, Passing.accept] at stepped
    split at stepped
    · cases stepped
    · split at stepped
      · next empty =>
        intro waits
        exact absurd (by simp [Edge.drop, empty]) waits
      · cases stepped
        cases room with
        | true => exact attended.1.imp fun busy => by cases busy
        | false => exact attended.1.imp fun busy => by cases busy
  | read w =>
    simp only [Passing.step, Passing.read] at stepped
    split at stepped
    · cases stepped
      have channel := attended.2 w
      simp only [Function.update_self] at channel
      exact channel.imp fun busy => by cases busy
    · cases stepped
  | _ => exact trivial

/-- In every run, everything that waits stays attended to exactly when each event handled stands for
one item or what is left is announced again; and then nothing is left behind when all wait. -/
theorem passed_iff {actions : List Action} {t : Passing}
    (success : run step init actions = some t) :
    (Throughout step Attended init actions ↔ Guarded step OneByOne init actions) ∧
      (Guarded step OneByOne init actions → Throughout step Passed init actions) := by
  have exact : Throughout step Attended init actions ↔ Guarded step OneByOne init actions := by
    apply throughout_iff_guarded (I := Attended) _ _ _ success attended_init
    · exact fun _ attended => attended
    · exact fun _ _ _ stepped attended single => attended_step stepped attended single
    · exact fun _ _ _ stepped _ attended => oneByOne_of_attended stepped attended
  exact ⟨exact, fun guarded => (exact.mpr guarded).imp fun _ attended => attended.passed⟩

/-- Two clients connect before the acceptor fetches its event. -/
def together : List Action :=
  [.connect, .connect, .acceptorWait, .accept 0 true, .workerWait 0, .read 0]

theorem passed_together : ∃ t, run step init together = some t ∧
    (Throughout step Attended init together ↔ Guarded step OneByOne init together) := by
  have success : run step init together = some _ := rfl
  exact ⟨_, success, (passed_iff success).1⟩

/-- The second one stays in the accept queue. -/
theorem passed_fails : ∃ t, run step init together = some t ∧ ¬ Passed t := by
  refine ⟨_, rfl, fun passed => ?_⟩
  cases (passed 0 rfl rfl rfl rfl).1

end SphereMultithreading.Soundness.P6
