import Mathlib.Data.List.Basic
import SphereMultithreading.Machine.Run
import SphereMultithreading.Model.P4.Processes

/-! # The steps of the processes of the shell

One lemma for each step says of which process it is taken and what it leads to. `process?` looks a
process up, and the setters are seen through it.
-/

namespace SphereMultithreading.Model.P4

namespace System

variable {s t : System} {p q : ℕ} {status : Status} {x : Process}

def process? (s : System) (q : ℕ) : Option Process := s.processes[q]?

/-- The status a process has ended with. -/
def exitStatus (s : System) (q : ℕ) : Option Status :=
  (s.process? q).bind fun process => process.activity.exitStatus

theorem exitStatus_of_ended {q : ℕ} (found : s.process? q = some x) :
    s.exitStatus q = x.activity.exitStatus := by
  rw [exitStatus, found, Option.bind_some]

theorem process?_eq_none (s : System) (q : ℕ) (new : s.processes.length ≤ q) :
    s.process? q = none :=
  List.getElem?_eq_none new

theorem lt_of_process? (found : s.process? q = some x) : q < s.processes.length :=
  (List.getElem?_eq_some_iff.mp found).1

theorem process?_modify (s : System) (p : ℕ) (f : Process → Process) (q : ℕ) :
    (s.modify p f).process? q = if q = p then (s.process? q).map f else s.process? q := by
  rw [process?, modify, List.getElem?_modify]
  rcases eq_or_ne q p with rfl | differ
  · simp [process?]
  · simp [process?, differ, Ne.symm differ]

theorem process?_modify_self (found : s.process? p = some x) (f : Process → Process) :
    (s.modify p f).process? p = some (f x) := by
  rw [process?_modify, if_pos rfl, found, Option.map_some]

theorem process?_modify_of_ne (differ : q ≠ p) (f : Process → Process) :
    (s.modify p f).process? q = s.process? q := by
  rw [process?_modify, if_neg differ]

theorem process?_spawn (s : System) (child : Process) (q : ℕ) :
    (s.spawn child).process? q =
      if q = s.processes.length then some child else s.process? q := by
  rw [process?, spawn, List.getElem?_append]
  rcases Nat.lt_trichotomy q s.processes.length with below | rfl | above
  · rw [if_pos below, if_neg (Nat.ne_of_lt below), process?]
  · rw [if_neg (Nat.lt_irrefl _), Nat.sub_self, if_pos rfl, List.getElem?_cons_zero]
  · rw [if_neg (Nat.not_lt_of_gt above), if_neg (Nat.ne_of_gt above),
      process?_eq_none s q (Nat.le_of_lt above)]
    exact List.getElem?_eq_none (by simp; omega)

theorem process?_collect (s : System) (p q : ℕ) :
    (s.collect p).process? q = (s.process? q).map fun x =>
      if x.parent = some p ∧ x.activity.exitStatus.isSome then { x with collected := true }
      else x := by
  rw [process?, collect, List.getElem?_map, process?]

/-- Collecting its children leaves a process as it is, but for what its own parent knows. -/
theorem exists_process?_collect (found : s.process? q = some x) :
    ∃ y, (s.collect p).process? q = some y ∧ y.activity = x.activity := by
  rw [process?_collect, found, Option.map_some]
  split <;> exact ⟨_, rfl, rfl⟩

/-! ## The steps -/

theorem read_eq_some {n : ℕ} (stepped : s.read p n = some t) :
    ∃ x, s.process? p = some x ∧ x.ahead = [] ∧ x.activity = .getline ∧ s.unread ≠ [] ∧
      t = { s with unread := s.unread.drop (n + 1) }.modify p fun process =>
        { process with ahead := s.unread.take (n + 1) } := by
  unfold read at stepped
  split at stepped
  · next found =>
    rw [Option.ite_none_right_eq_some, Option.some.injEq] at stepped
    exact ⟨_, found, rfl, rfl, stepped.1, stepped.2.symm⟩
  · contradiction

/-- A line is empty, or left to a new process, or run. -/
theorem getline_eq_some (stepped : s.getline p status = some t) :
    ∃ x input ahead, s.process? p = some x ∧ x.ahead = input :: ahead ∧ x.activity = .getline ∧
      let s' := (s.collect p).modify p fun process => { process with ahead := ahead }
      let running := Activity.run .outer status (operands input.commandsParsed)
      (input.commandsParsed = [] ∧ t = s' ∨
        (operands input.commandsParsed).getLast? = some (.op .BACKGROUND_MODE) ∧
          t = s'.spawn ⟨some p, true, false, input.number, ahead, running⟩ ∨
        (operands input.commandsParsed).getLast? ≠ some (.op .BACKGROUND_MODE) ∧
          t = s'.modify p fun process =>
            { process with line := input.number, activity := running }) := by
  unfold getline at stepped
  split at stepped
  · next found =>
    refine ⟨_, _, _, found, rfl, rfl, ?_⟩
    dsimp only at stepped
    split at stepped
    · next empty => exact .inl ⟨empty, (Option.some.inj stepped).symm⟩
    split at stepped
    · next last => exact .inr (.inl ⟨last, (Option.some.inj stepped).symm⟩)
    · next last => exact .inr (.inr ⟨last, (Option.some.inj stepped).symm⟩)
  · contradiction

theorem advance_eq_some (stepped : s.advance p = some t) :
    ∃ x loop status operands loop' rest, s.process? p = some x ∧
      x.activity = .run loop status operands ∧
      advanceLoop loop status operands = some (loop', rest) ∧
      t = s.setActivity p (.run loop' status rest) := by
  unfold advance at stepped
  split at stepped
  · next found =>
    obtain ⟨⟨loop', rest⟩, turned, same⟩ := Option.map_eq_some_iff.mp stepped
    exact ⟨_, _, _, _, loop', rest, found, rfl, turned, same.symm⟩
  · contradiction

theorem fork_eq_some (stepped : s.fork p = some t) :
    ∃ x status command rest, s.process? p = some x ∧
      x.activity = .run .outer status (.cmd command :: rest) ∧
      t = { (s.setActivity p (.wait s.processes.length command rest)).spawn
          ⟨some p, x.background, false, x.line, x.ahead, .exec command rest⟩ with
        started := s.started ++ [⟨x.line, command, s.processes.length⟩] } := by
  unfold fork at stepped
  split at stepped
  · next found => exact ⟨_, _, _, _, found, rfl, (Option.some.inj stepped).symm⟩
  · contradiction

theorem exec_eq_some {fails : List Word → Bool} (stepped : s.exec fails p status = some t) :
    ∃ x command rest, s.process? p = some x ∧ x.activity = .exec command rest ∧
      (fails command.cmd = true ∧
          t = { s.setActivity p (.run .outer status rest) with failed := s.failed ++ [p] } ∨
        fails command.cmd = false ∧ t = s.setActivity p .program) := by
  unfold exec at stepped
  split at stepped
  · next found =>
    refine ⟨_, _, _, found, rfl, ?_⟩
    split at stepped
    · next failing => exact .inl ⟨failing, (Option.some.inj stepped).symm⟩
    · next succeeding =>
      exact .inr ⟨Bool.eq_false_iff.mpr succeeding, (Option.some.inj stepped).symm⟩
  · contradiction

theorem wait_eq_some (stepped : s.wait p q = some t) :
    ∃ x y child command rest status, s.process? p = some x ∧ s.process? q = some y ∧
      x.activity = .wait child command rest ∧ y.parent = some p ∧ y.collected = false ∧
      y.activity = .ended status ∧
      t = { (s.modify q fun process => { process with collected := true }).setActivity p
          (.run .outer status rest) with
        waits := s.waits ++ [⟨p, child, status, s.exitStatus child⟩] } := by
  unfold wait at stepped
  split at stepped
  · next waits ended =>
    rw [Option.ite_none_right_eq_some] at stepped
    obtain ⟨rfl, stepped⟩ := stepped
    exact ⟨_, _, _, _, _, _, waits, ended, rfl, rfl, rfl, rfl, (Option.some.inj stepped).symm⟩
  · contradiction

/-- What is read again, if anything, was read ahead. -/
theorem exit_eq_some {code : ℕ} {ahead again : List Input}
    (stepped : s.exit p code ahead again = some t) :
    ∃ back, (back ≠ [] → s.seekable = true ∧ ahead ≠ []) ∧
      t = { s.setActivity p (.ended (.exited code)) with unread := back ++ s.unread } := by
  unfold exit at stepped
  dsimp only at stepped
  split at stepped
  · next moves =>
    rw [Option.ite_none_left_eq_some] at stepped
    exact ⟨again, fun _ => moves, (Option.some.inj stepped.2).symm⟩
  · exact ⟨[], fun some => absurd rfl some, (Option.some.inj stepped).symm⟩

theorem finish_eq_some {again : List Input} (stepped : s.finish p again = some t) :
    ∃ x loop status back, s.process? p = some x ∧ x.activity = .run loop status [] ∧
      (back ≠ [] → x.background = true ∧ s.seekable = true ∧ x.ahead ≠ []) ∧
      t = { s.setActivity p (if x.background then .ended (.exited 0) else .getline) with
        unread := back ++ s.unread
        finished := s.finished ++ [x.line] } := by
  unfold finish at stepped
  split at stepped
  · next found =>
    dsimp only at stepped
    split at stepped
    · next background =>
      obtain ⟨back, moves, rfl⟩ := exit_eq_some stepped
      refine ⟨_, _, _, back, found, rfl, fun some => ⟨background, moves some⟩, ?_⟩
      rw [if_pos background]
      rfl
    · next foreground =>
      refine ⟨_, _, _, [], found, rfl, fun some => absurd rfl some, ?_⟩
      rw [if_neg foreground]
      exact (Option.some.inj stepped).symm
  · contradiction

theorem endOfFile_eq_some (stepped : s.endOfFile p = some t) :
    ∃ x, s.process? p = some x ∧ x.ahead = [] ∧ x.activity = .getline ∧ s.unread = [] ∧
      t = s.setActivity p (.ended (.exited 0)) := by
  unfold endOfFile at stepped
  split at stepped
  · next found =>
    rw [Option.ite_none_right_eq_some, Option.some.injEq] at stepped
    exact ⟨_, found, rfl, rfl, stepped.1, stepped.2.symm⟩
  · contradiction

theorem terminate_eq_some {again : List Input} (stepped : s.terminate p status again = some t) :
    ∃ x back, s.process? p = some x ∧ (x.activity.interprets ∨ x.activity = .program) ∧
      (back ≠ [] → x.activity.interprets ∧ (∃ code, status = .exited code) ∧ s.seekable = true ∧
        x.ahead ≠ []) ∧
      t = { s.setActivity p (.ended status) with unread := back ++ s.unread } := by
  unfold terminate at stepped
  split at stepped
  · next process found =>
    split at stepped
    · next interprets =>
      split at stepped
      · next code =>
        obtain ⟨back, moves, rfl⟩ := exit_eq_some stepped
        exact ⟨_, back, found, .inl interprets, fun some => ⟨interprets, ⟨code, rfl⟩, moves some⟩, rfl⟩
      · exact ⟨_, [], found, .inl interprets, fun some => absurd rfl some, (Option.some.inj stepped).symm⟩
    · rw [Option.ite_none_right_eq_some, Option.some.injEq] at stepped
      exact ⟨_, [], found, .inr stepped.1, fun some => absurd rfl some, stepped.2.symm⟩
  · contradiction

end System

end SphereMultithreading.Model.P4
