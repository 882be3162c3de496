import SphereMultithreading.Proofs.P4.Processes

/-! # The status a command of the shell is given

`Command::run` waits for whichever child ends first. That is the command's own process unless another
child has ended since the line began, and the others are the background jobs.
-/

namespace SphereMultithreading.Model.P4

/-- The process that a process waits for. -/
def Activity.awaits : Activity → Option ℕ
  | .wait child _ _ => some child
  | _ => none

/-- Between two lines, or waiting for this very process. -/
def Activity.rests (q : ℕ) : Activity → Bool
  | .run .. => false
  | .wait child _ _ => child = q
  | _ => true

/-- A process that has no child yet. -/
def Activity.childless : Activity → Bool
  | .exec .. | .program => true
  | _ => false

namespace System

/-- The children that a `wait` may return. -/
def endedChildren (s : System) (p : ℕ) : List ℕ :=
  (List.range s.processes.length).filter fun q => (s.process? q).any fun x =>
    x.parent = some p && !x.collected && x.activity.exitStatus.isSome

theorem mem_endedChildren {s : System} {p q : ℕ} : q ∈ s.endedChildren p ↔
    ∃ x, s.process? q = some x ∧ x.parent = some p ∧ x.collected = false ∧
      x.activity.exitStatus.isSome := by
  rw [endedChildren, List.mem_filter, List.mem_range]
  constructor
  · rintro ⟨-, ended⟩
    obtain ⟨x, found, ended⟩ := Option.any_eq_true _ _ |>.mp ended
    simp only [Bool.and_eq_true, decide_eq_true_eq, Bool.not_eq_true'] at ended
    exact ⟨x, found, ended.1.1, ended.1.2, ended.2⟩
  · rintro ⟨x, found, parent, fresh, ended⟩
    refine ⟨lt_of_process? found, (Option.any_eq_true _ _).mpr ⟨x, found, ?_⟩⟩
    simp [parent, fresh, ended]

theorem mem_endedChildren_of_ended {s : System} {p q : ℕ} {x : Process} {status : Status}
    (found : s.process? q = some x) (parent : x.parent = some p) (fresh : x.collected = false)
    (ended : x.activity = .ended status) : q ∈ s.endedChildren p :=
  mem_endedChildren.mpr ⟨x, found, parent, fresh, by simp [ended, Activity.exitStatus]⟩

end System

end SphereMultithreading.Model.P4

namespace SphereMultithreading.Soundness.P4

open Machine Model.P4 System

/-- Every `wait` has stored the status of the command's own process, which had ended. -/
def Paired (s : System) : Prop := ∀ w ∈ s.waits, w.actual = some w.status

/-- When a `wait` returns, no child has ended but the one it is for. -/
def WaitsAlone (s : System) : Action → Prop
  | .wait p _ => ∀ x ∈ s.process? p, ∀ child ∈ x.activity.awaits, ∀ q ∈ s.endedChildren p, q = child
  | _ => True

/-- A process that ends does not interrupt its parent in the midst of a line. -/
def Timely (s : System) (q : ℕ) : Prop :=
  ∀ x ∈ s.process? q, ∀ p ∈ x.parent, ∀ y ∈ s.process? p, y.activity.rests q

def EndsAtRest (s : System) : Action → Prop
  | .finish q _ | .endOfFile q | .terminate q _ _ => Timely s q
  | _ => True

variable {fails : List Word → Bool} {s t : System}

/-- A process that exits has read nothing ahead, if that could be given back. -/
def GivesNothingBack (s : System) : Action → Prop
  | .finish p _ => ∀ x ∈ s.process? p, s.seekable = true → x.background = true → x.ahead = []
  | .terminate p (.exited _) _ =>
      ∀ x ∈ s.process? p, s.seekable = true → x.activity.interprets → x.ahead = []
  | _ => True

theorem back_eq_nil_of_finish {p : ℕ} {x : Process} {back again : List Input}
    (found : s.process? p = some x)
    (moves : back ≠ [] → x.background = true ∧ s.seekable = true ∧ x.ahead ≠ [])
    (nothing : GivesNothingBack s (.finish p again)) : back = [] := by
  by_contra some
  obtain ⟨background, seekable, ahead⟩ := moves some
  exact ahead (nothing x found seekable background)

theorem back_eq_nil_of_terminate {p : ℕ} {x : Process} {status : Status} {back again : List Input}
    (found : s.process? p = some x)
    (moves : back ≠ [] → x.activity.interprets ∧ (∃ code, status = .exited code) ∧
      s.seekable = true ∧ x.ahead ≠ [])
    (nothing : GivesNothingBack s (.terminate p status again)) : back = [] := by
  by_contra some
  obtain ⟨interprets, ⟨code, rfl⟩, seekable, ahead⟩ := moves some
  exact ahead (nothing x found seekable interprets)

/-- No step makes a standard input one whose offset can be moved. -/
theorem seekable_step {a : Action} (stepped : s.step fails a = some t) : t.seekable = s.seekable := by
  cases a with
  | read p n => obtain ⟨_, -, -, -, -, rfl⟩ := read_eq_some stepped; rfl
  | getline p status =>
    obtain ⟨_, _, _, -, -, -, ⟨-, rfl⟩ | ⟨-, rfl⟩ | ⟨-, rfl⟩⟩ := getline_eq_some stepped <;> rfl
  | advance p => obtain ⟨_, _, _, _, _, _, -, -, -, rfl⟩ := advance_eq_some stepped; rfl
  | fork p => obtain ⟨_, _, _, _, -, -, rfl⟩ := fork_eq_some stepped; rfl
  | exec p status => obtain ⟨_, _, _, -, -, ⟨-, rfl⟩ | ⟨-, rfl⟩⟩ := exec_eq_some stepped <;> rfl
  | wait p q => obtain ⟨_, _, _, _, _, _, -, -, -, -, -, -, rfl⟩ := wait_eq_some stepped; rfl
  | finish p again => obtain ⟨_, _, _, _, -, -, -, rfl⟩ := finish_eq_some stepped; rfl
  | endOfFile p => obtain ⟨_, -, -, -, -, rfl⟩ := endOfFile_eq_some stepped; rfl
  | terminate p status again => obtain ⟨_, _, -, -, -, rfl⟩ := terminate_eq_some stepped; rfl

/-- Nothing can be given back to a pipe. -/
theorem givesNothingBack_of_not_seekable (fixed : s.seekable = false) (a : Action) :
    GivesNothingBack s a := by
  have never {P : Prop} (seekable : s.seekable = true) : P := by
    rw [fixed] at seekable
    cases seekable
  cases a with
  | finish p again => exact fun _ _ seekable => never seekable
  | terminate p status again =>
    cases status with
    | exited code => exact fun _ _ seekable => never seekable
    | signaled signal => trivial
  | _ => trivial

theorem paired_step {a : Action} (stepped : s.step fails a = some t) (paired : Paired s)
    (alone : WaitsAlone s a) : Paired t := by
  cases a with
  | wait p q =>
    obtain ⟨x, y, child, command, rest, status, found, foundChild, waits, parent, fresh, ended, rfl⟩ :=
      wait_eq_some stepped
    have same : q = child := by
      refine alone x found child (by simp [waits, Activity.awaits]) q ?_
      exact mem_endedChildren_of_ended foundChild parent fresh ended
    intro w member
    rcases List.mem_append.mp member with old | new
    · exact paired w old
    · obtain rfl := List.mem_singleton.mp new
      change s.exitStatus child = some status
      rw [← same, exitStatus_of_ended foundChild, ended]
      rfl
  | read p n => obtain ⟨x, -, -, -, -, rfl⟩ := read_eq_some stepped; exact paired
  | getline p status =>
    obtain ⟨x, input, ahead, -, -, -, ⟨-, rfl⟩ | ⟨-, rfl⟩ | ⟨-, rfl⟩⟩ := getline_eq_some stepped <;>
      exact paired
  | advance p => obtain ⟨_, _, _, _, _, _, -, -, -, rfl⟩ := advance_eq_some stepped; exact paired
  | fork p => obtain ⟨_, _, _, _, -, -, rfl⟩ := fork_eq_some stepped; exact paired
  | exec p status =>
    obtain ⟨_, _, _, -, -, ⟨-, rfl⟩ | ⟨-, rfl⟩⟩ := exec_eq_some stepped <;> exact paired
  | finish p again => obtain ⟨_, _, _, _, -, -, -, rfl⟩ := finish_eq_some stepped; exact paired
  | endOfFile p => obtain ⟨_, -, -, -, -, rfl⟩ := endOfFile_eq_some stepped; exact paired
  | terminate p status again =>
    obtain ⟨_, _, -, -, -, rfl⟩ := terminate_eq_some stepped
    exact paired

/-! ## Children that end in time -/

/-- A child that has ended and is to be collected is the one its parent waits for, or the parent is
between two lines. -/
private structure Rested (s : System) : Prop where
  older : ∀ q x p, s.process? q = some x → x.parent = some p → p < q
  parents : ∀ q x p y, s.process? q = some x → x.parent = some p → s.process? p = some y →
    y.activity.childless = false
  rests : ∀ q x p y, s.process? q = some x → x.parent = some p → s.process? p = some y →
    x.activity.exitStatus.isSome → x.collected = false → y.activity.rests q = true

namespace Rested

theorem init (seekable : Bool) (script : List (List Word)) : Rested (System.init seekable script) := by
  have orphan {q : ℕ} {x : Process} (found : (System.init seekable script).process? q = some x) :
      x.parent = none := by
    obtain ⟨inside, rfl⟩ := List.getElem?_eq_some_iff.mp found
    obtain rfl : q = 0 := by simpa [System.init] using inside
    rfl
  constructor <;> intro q x p
  · intro found parent
    simp [orphan found] at parent
  · intro y found parent
    simp [orphan found] at parent
  · intro y found parent
    simp [orphan found] at parent

/-- A process changes what it does, and may be collected. -/
theorem modify (rested : Rested s) {p : ℕ} {x : Process} {f : Process → Process}
    (found : s.process? p = some x) (parent : (f x).parent = x.parent)
    (collected : (f x).collected = false → x.collected = false)
    (childless : (f x).activity.childless = true → x.activity.childless = true)
    (children : ∀ q ∈ s.endedChildren p, (f x).activity.rests q = true)
    (ended : (f x).activity.exitStatus.isSome → (f x).collected = false →
      x.activity.exitStatus.isSome ∨ Timely s p) : Rested (s.modify p f) := by
  -- a process of the new state, as it was before
  have before {q : ℕ} {y : Process} (listed : (s.modify p f).process? q = some y) :
      ∃ y', s.process? q = some y' ∧ y.parent = y'.parent ∧ (q = p ∧ y' = x ∧ y = f x ∨
        q ≠ p ∧ y = y') := by
    rw [process?_modify] at listed
    split at listed
    · next same =>
      subst same
      rw [found, Option.map_some, Option.some.injEq] at listed
      subst listed
      exact ⟨x, found, parent, .inl ⟨rfl, rfl, rfl⟩⟩
    · next differ => exact ⟨y, listed, rfl, .inr ⟨differ, rfl⟩⟩
  refine ⟨fun q y r listed isChild => ?_, fun q y r z listed isChild listedParent => ?_,
    fun q y r z listed isChild listedParent hasEnded fresh => ?_⟩
  · obtain ⟨y', was, same, -⟩ := before listed
    exact rested.older q y' r was (same ▸ isChild)
  · obtain ⟨y', was, same, -⟩ := before listed
    obtain ⟨z', wasParent, -, ⟨rfl, rfl, rfl⟩ | ⟨-, rfl⟩⟩ := before listedParent
    · have old := rested.parents q y' r z' was (same ▸ isChild) wasParent
      by_contra new
      rw [childless (by simpa using new)] at old
      contradiction
    · exact rested.parents q y' r z was (same ▸ isChild) wasParent
  · obtain ⟨y', was, same, here⟩ := before listed
    have older := rested.older q y' r was (same ▸ isChild)
    obtain ⟨z', wasParent, -, there⟩ := before listedParent
    rcases here with ⟨rfl, rfl, rfl⟩ | ⟨apart, rfl⟩
    · obtain ⟨-, rfl⟩ : r ≠ q ∧ z = z' := by
        rcases there with ⟨rfl, -⟩ | other
        · exact absurd older (Nat.lt_irrefl _)
        · exact other
      rcases ended hasEnded fresh with old | timely
      · exact rested.rests q y' r z was (same ▸ isChild) wasParent old (collected fresh)
      · exact timely y' was r (same ▸ isChild) z wasParent
    · rcases there with ⟨rfl, rfl, rfl⟩ | ⟨-, rfl⟩
      · exact children q (mem_endedChildren.mpr ⟨y, was, isChild, fresh, hasEnded⟩)
      · exact rested.rests q y r z was isChild wasParent hasEnded fresh

/-- A process does something else. -/
theorem setActivity (rested : Rested s) {p : ℕ} {x : Process} {activity : Activity}
    (found : s.process? p = some x)
    (childless : activity.childless = true → x.activity.childless = true)
    (children : ∀ q ∈ s.endedChildren p, activity.rests q = true)
    (ended : activity.exitStatus.isSome → Timely s p) : Rested (s.setActivity p activity) :=
  rested.modify found rfl id childless children fun hasEnded _ => .inr (ended hasEnded)

theorem of_same (rested : Rested s) (same : t.processes = s.processes) : Rested t := by
  have lookup (q : ℕ) : t.process? q = s.process? q := by rw [process?, process?, same]
  refine ⟨?_, ?_, ?_⟩
  · simpa only [lookup] using rested.older
  · simpa only [lookup] using rested.parents
  · simpa only [lookup] using rested.rests

/-- The children of a process that waits for one of them, or for none. -/
theorem children (rested : Rested s) {p : ℕ} {x : Process} (found : s.process? p = some x) :
    ∀ q ∈ s.endedChildren p, x.activity.rests q = true := by
  intro q member
  obtain ⟨y, listed, isChild, fresh, ended⟩ := mem_endedChildren.mp member
  exact rested.rests q y p x listed isChild found ended fresh

theorem spawn (rested : Rested s) {p : ℕ} {x child : Process} (found : s.process? p = some x)
    (able : x.activity.childless = false) (parent : child.parent = some p)
    (lives : child.activity.exitStatus = none) : Rested (s.spawn child) := by
  have inside := lt_of_process? found
  have before {q : ℕ} {y : Process} (listed : (s.spawn child).process? q = some y) :
      q = s.processes.length ∧ y = child ∨ q < s.processes.length ∧ s.process? q = some y := by
    rw [process?_spawn] at listed
    split at listed
    · next same => exact .inl ⟨same, (Option.some.inj listed).symm⟩
    · exact .inr ⟨lt_of_process? listed, listed⟩
  have old {q : ℕ} {y : Process} (bound : q < s.processes.length)
      (listed : (s.spawn child).process? q = some y) : s.process? q = some y := by
    rcases before listed with ⟨rfl, -⟩ | ⟨-, listed⟩
    · exact absurd bound (Nat.lt_irrefl _)
    · exact listed
  refine ⟨fun q y r listed isChild => ?_, fun q y r z listed isChild listedParent => ?_,
    fun q y r z listed isChild listedParent hasEnded fresh => ?_⟩
  · rcases before listed with ⟨rfl, rfl⟩ | ⟨-, listed⟩
    · obtain rfl := Option.some.inj (parent.symm.trans isChild)
      exact inside
    · exact rested.older q y r listed isChild
  · rcases before listed with ⟨rfl, rfl⟩ | ⟨bound, listed⟩
    · obtain rfl := Option.some.inj (parent.symm.trans isChild)
      obtain rfl := Option.some.inj (found.symm.trans (old inside listedParent))
      exact able
    · have below := rested.older q y r listed isChild
      exact rested.parents q y r z listed isChild (old (Nat.lt_trans below bound) listedParent)
  · rcases before listed with ⟨rfl, rfl⟩ | ⟨bound, listed⟩
    · simp [lives] at hasEnded
    · have below := rested.older q y r listed isChild
      exact rested.rests q y r z listed isChild (old (Nat.lt_trans below bound) listedParent) hasEnded fresh

/-- What has ended by then is collected before the line begins. -/
theorem collect (rested : Rested s) (p : ℕ) :
    Rested (s.collect p) ∧ (s.collect p).endedChildren p = [] := by
  have before {q : ℕ} {y : Process} (listed : (s.collect p).process? q = some y) :
      ∃ y', s.process? q = some y' ∧ y.parent = y'.parent ∧ y.activity = y'.activity ∧
        (y.collected = false → y'.collected = false ∧
          ¬ (y'.parent = some p ∧ y'.activity.exitStatus.isSome)) := by
    rw [process?_collect] at listed
    obtain ⟨y', listed, same⟩ := Option.map_eq_some_iff.mp listed
    refine ⟨y', listed, ?_⟩
    split at same
    · subst same
      exact ⟨rfl, rfl, fun fresh => by simp at fresh⟩
    · next other =>
      subst same
      exact ⟨rfl, rfl, fun fresh => ⟨fresh, other⟩⟩
  refine ⟨⟨fun q y r listed isChild => ?_, fun q y r z listed isChild listedParent => ?_,
    fun q y r z listed isChild listedParent hasEnded fresh => ?_⟩, ?_⟩
  · obtain ⟨y', listed, same, -⟩ := before listed
    exact rested.older q y' r listed (same ▸ isChild)
  · obtain ⟨y', listed, same, -⟩ := before listed
    obtain ⟨z', listedParent, -, activity, -⟩ := before listedParent
    rw [activity]
    exact rested.parents q y' r z' listed (same ▸ isChild) listedParent
  · obtain ⟨y', listed, same, does, old⟩ := before listed
    obtain ⟨z', listedParent, -, activity, -⟩ := before listedParent
    rw [activity]
    exact rested.rests q y' r z' listed (same ▸ isChild) listedParent (does ▸ hasEnded) (old fresh).1
  · rw [List.eq_nil_iff_forall_not_mem]
    intro q member
    obtain ⟨y, listed, isChild, fresh, ended⟩ := mem_endedChildren.mp member
    obtain ⟨y', -, same, does, old⟩ := before listed
    exact (old fresh).2 ⟨same ▸ isChild, does ▸ ended⟩

/-- A line begins with no child to collect. -/
theorem getline (rested : Rested s) {p : ℕ} {status : Status} (stepped : s.getline p status = some t) :
    Rested t := by
  obtain ⟨x, input, ahead, found, -, getline, moved⟩ := getline_eq_some stepped
  obtain ⟨collected, none⟩ := rested.collect p
  obtain ⟨x', found', same⟩ := exists_process?_collect (p := p) found
  have getline' : x'.activity = .getline := same.trans getline
  have read := process?_modify_self found' fun process => { process with ahead := ahead }
  have ready : Rested ((s.collect p).modify p fun process => { process with ahead := ahead }) :=
    collected.modify found' rfl id id (by simp [none]) fun ended _ => .inl ended
  have none' : ((s.collect p).modify p fun process =>
      { process with ahead := ahead }).endedChildren p = [] := by
    rw [List.eq_nil_iff_forall_not_mem] at none ⊢
    intro q member
    obtain ⟨y, listed, isChild, fresh, ended⟩ := mem_endedChildren.mp member
    rcases eq_or_ne q p with rfl | differ
    · obtain rfl := Option.some.inj (read.symm.trans listed)
      simp [getline', Activity.exitStatus] at ended
    · rw [process?_modify_of_ne differ] at listed
      exact none q (mem_endedChildren.mpr ⟨y, listed, isChild, fresh, ended⟩)
  obtain ⟨-, rfl⟩ | ⟨-, rfl⟩ | ⟨-, rfl⟩ := moved
  · exact ready
  · exact ready.spawn read (by simp [getline', Activity.childless]) rfl rfl
  · exact ready.modify read rfl id (by simp [Activity.childless]) (by simp [none'])
      fun ended _ => by simp [Activity.exitStatus] at ended

theorem fork (rested : Rested s) {p : ℕ} (stepped : s.fork p = some t) : Rested t := by
  obtain ⟨x, status, command, rest, found, runs, rfl⟩ := fork_eq_some stepped
  have waiting : Rested (s.setActivity p (.wait s.processes.length command rest)) := by
    refine rested.setActivity found (by simp [Activity.childless]) ?_ (by simp [Activity.exitStatus])
    intro q member
    have := rested.children found q member
    simp [runs, Activity.rests] at this
  have forked : Rested ((s.setActivity p (.wait s.processes.length command rest)).spawn
      ⟨some p, x.background, false, x.line, x.ahead, .exec command rest⟩) :=
    waiting.spawn (process?_modify_self found _) rfl rfl rfl
  exact forked.of_same rfl

/-- The only child to collect is the one waited for. -/
theorem wait (rested : Rested s) {p q : ℕ} (stepped : s.wait p q = some t) : Rested t := by
  obtain ⟨x, y, child, command, rest, status, found, foundChild, waits, parent, fresh, ended, rfl⟩ :=
    wait_eq_some stepped
  have own : ∀ r ∈ s.endedChildren p, r = child := by
    intro r member
    simpa [waits, Activity.rests, eq_comm] using rested.children found r member
  obtain rfl : q = child := own q (mem_endedChildren_of_ended foundChild parent fresh ended)
  have apart : p ≠ q := Nat.ne_of_lt (rested.older q y p foundChild parent)
  have children := rested.children foundChild
  have collected : Rested (s.modify q fun process => { process with collected := true }) :=
    rested.modify foundChild rfl (by simp) id children fun ended _ => .inl ended
  have running : Rested ((s.modify q fun process => { process with collected := true }).setActivity p
      (.run .outer status rest)) := by
    refine collected.setActivity ((process?_modify_of_ne apart _).trans found)
      (by simp [Activity.childless]) ?_ (by simp [Activity.exitStatus])
    intro r member
    obtain ⟨z, listed, isChild, notYet, hasEnded⟩ := mem_endedChildren.mp member
    rcases eq_or_ne r q with rfl | differ
    · obtain rfl := Option.some.inj ((process?_modify_self foundChild _).symm.trans listed)
      contradiction
    · rw [process?_modify_of_ne differ] at listed
      exact absurd (own r (mem_endedChildren.mpr ⟨z, listed, isChild, notYet, hasEnded⟩)) differ
  exact running.of_same rfl

end Rested

theorem rested_step {a : Action} (stepped : s.step fails a = some t) (rested : Rested s)
    (atRest : EndsAtRest s a) : Rested t := by
  cases a with
  | read p n =>
    obtain ⟨x, found, -, getline, -, rfl⟩ := read_eq_some stepped
    have children := rested.children found
    have moved : Rested (s.modify p fun process =>
        { process with ahead := s.unread.take (n + 1) }) :=
      rested.modify found rfl id id children fun ended _ => .inl ended
    exact moved.of_same rfl
  | getline p status => exact rested.getline stepped
  | advance p =>
    obtain ⟨x, loop, status, operands, loop', rest, found, runs, -, rfl⟩ := advance_eq_some stepped
    refine rested.setActivity found (by simp [Activity.childless]) ?_ (by simp [Activity.exitStatus])
    intro q member
    simpa [runs, Activity.rests] using rested.children found q member
  | fork p => exact rested.fork stepped
  | exec p status =>
    obtain ⟨x, command, rest, found, execs, ⟨-, rfl⟩ | ⟨-, rfl⟩⟩ := exec_eq_some stepped
    · have running : Rested (s.setActivity p (.run .outer status rest)) := by
        refine rested.setActivity found (by simp [Activity.childless]) ?_
          (by simp [Activity.exitStatus])
        -- the new interpreter has no children yet
        intro q member
        obtain ⟨y, listed, isChild, -⟩ := mem_endedChildren.mp member
        have := rested.parents q y p x listed isChild found
        simp [execs, Activity.childless] at this
      exact running.of_same rfl
    · exact rested.setActivity found (by simp [execs, Activity.childless])
        (by simp [Activity.rests]) (by simp [Activity.exitStatus])
  | wait p q => exact rested.wait stepped
  | finish p again =>
    obtain ⟨x, loop, status, back, found, runs, -, rfl⟩ := finish_eq_some stepped
    have finished : Rested (s.setActivity p
        (if x.background then .ended (.exited 0) else .getline)) := by
      refine rested.setActivity found ?_ ?_ fun _ => atRest
      · cases x.background <;> simp [Activity.childless]
      · cases x.background <;> simp [Activity.rests]
    exact finished.of_same rfl
  | endOfFile p =>
    obtain ⟨x, found, -, -, -, rfl⟩ := endOfFile_eq_some stepped
    exact rested.setActivity found (by simp [Activity.childless]) (by simp [Activity.rests])
      fun _ => atRest
  | terminate p status again =>
    obtain ⟨x, back, found, -, -, rfl⟩ := terminate_eq_some stepped
    have ended : Rested (s.setActivity p (.ended status)) :=
      rested.setActivity found (by simp [Activity.childless]) (by simp [Activity.rests])
        fun _ => atRest
    exact ended.of_same rfl

theorem waitsAlone_of_rested (rested : Rested s) (a : Action) : WaitsAlone s a := by
  cases a with
  | wait p q =>
    intro x found child awaited r member
    have rests := rested.children found r member
    cases activity : x.activity with
    | wait =>
      rw [activity] at awaited rests
      cases awaited
      simpa [Activity.rests, eq_comm] using rests
    | _ => simp [activity, Activity.awaits] at awaited
  | _ => trivial

/-! ## Scripts without background jobs -/

/-- The parent of a process and what the process does. -/
private def kin (s : System) (q : ℕ) : Option (Option ℕ × Activity) :=
  (s.process? q).map fun x => (x.parent, x.activity)

private theorem kin_of_found {p : ℕ} {x : Process} (found : s.process? p = some x) :
    kin s p = some (x.parent, x.activity) := by rw [kin, found, Option.map_some]

private theorem kin_modify {p : ℕ} {x : Process} (found : s.process? p = some x)
    {f : Process → Process} (q : ℕ) :
    kin (s.modify p f) q =
      if q = p then some ((f x).parent, (f x).activity) else kin s q := by
  rw [kin, process?_modify, kin]
  split
  · next same => rw [same, found, Option.map_some, Option.map_some]
  · rfl

private theorem kin_spawn (s : System) (child : Process) (q : ℕ) :
    kin (s.spawn child) q =
      if q = s.processes.length then some (child.parent, child.activity) else kin s q := by
  rw [kin, process?_spawn, kin]
  split <;> rfl

private theorem kin_collect (s : System) (p : ℕ) : kin (s.collect p) = kin s := by
  funext q
  rw [kin, process?_collect, kin, Option.map_map]
  refine congrArg (Option.map · _) (funext fun x => ?_)
  rw [Function.comp_apply]
  split <;> rfl

/-- A line that is left to a background job. -/
def IsBackground (input : Input) : Prop :=
  (operands input.commandsParsed).getLast? = some (.op .BACKGROUND_MODE)

/-- No line is left to a background job, and a process waits for each of its children while that
lives. -/
private structure Foreground (s : System) : Prop where
  lines : ∀ q x, s.process? q = some x → ∀ input ∈ x.ahead, ¬ IsBackground input
  unread : ∀ input ∈ s.unread, ¬ IsBackground input
  waited : ∀ q p a parent b, kin s q = some (some p, a) → kin s p = some (parent, b) →
    a.exitStatus = none → b.awaits = some q ∨ b.exitStatus.isSome

namespace Foreground

theorem init {seekable : Bool} {script : List (List Word)}
    (lines : ∀ words ∈ script, (operands words).getLast? ≠ some (.op .BACKGROUND_MODE)) :
    Foreground (System.init seekable script) := by
  have only {q : ℕ} {x : Process} (found : (System.init seekable script).process? q = some x) :
      x = ⟨none, false, false, 0, [], .getline⟩ := by
    obtain ⟨inside, rfl⟩ := List.getElem?_eq_some_iff.mp found
    obtain rfl : q = 0 := by simpa [System.init] using inside
    rfl
  refine ⟨fun q x found => by simp [only found], fun input member => ?_, ?_⟩
  · obtain ⟨⟨words, number⟩, listed, rfl⟩ := List.mem_map.mp member
    exact lines words (List.fst_mem_of_mem_zipIdx listed)
  · intro q p a parent b isChild
    obtain ⟨x, found, same⟩ := Option.map_eq_some_iff.mp isChild
    simp [only found] at same

/-- What has nothing to do with the lines of a process. -/
theorem of_same (foreground : Foreground s) (processes : t.processes = s.processes)
    (unread : t.unread = s.unread) : Foreground t := by
  have lookup (q : ℕ) : t.process? q = s.process? q := by rw [process?, process?, processes]
  refine ⟨?_, ?_, ?_⟩
  · simpa only [lookup] using foreground.lines
  · rw [unread]
    exact foreground.unread
  · simpa only [kin, lookup] using foreground.waited

/-- A process changes what it does, or what it has read. -/
theorem modify (foreground : Foreground s) {p : ℕ} {x : Process} {f : Process → Process}
    (found : s.process? p = some x) (parent : (f x).parent = x.parent)
    (ahead : ∀ input ∈ (f x).ahead, ¬ IsBackground input)
    (live : (f x).activity.exitStatus = none → x.activity.exitStatus = none)
    (children : ∀ q a, kin s q = some (some p, a) → a.exitStatus = none →
      (f x).activity.awaits = some q ∨ (f x).activity.exitStatus.isSome) :
    Foreground (s.modify p f) := by
  refine ⟨fun q y listed => ?_, foreground.unread, fun q r a grandparent b isChild isParent lives => ?_⟩
  · rw [process?_modify] at listed
    split at listed
    · next same =>
      rw [same, found, Option.map_some, Option.some.injEq] at listed
      exact listed ▸ ahead
    · exact foreground.lines q y listed
  · rw [kin_modify found] at isChild isParent
    -- the child, as it was before
    obtain ⟨a', was, lived⟩ : ∃ a', kin s q = some (some r, a') ∧ a'.exitStatus = none := by
      split at isChild
      · next same =>
        rw [Option.some.injEq, Prod.mk.injEq] at isChild
        obtain ⟨isParent, rfl⟩ := isChild
        exact ⟨x.activity, by rw [same, kin_of_found found, ← isParent, parent], live lives⟩
      · exact ⟨a, isChild, lives⟩
    split at isParent
    · next same =>
      rw [Option.some.injEq, Prod.mk.injEq] at isParent
      obtain ⟨-, rfl⟩ := isParent
      exact children q a' (same ▸ was) lived
    · exact foreground.waited q r a' grandparent b was isParent lived

theorem setActivity (foreground : Foreground s) {p : ℕ} {x : Process} {activity : Activity}
    (found : s.process? p = some x) (live : activity.exitStatus = none → x.activity.exitStatus = none)
    (children : ∀ q a, kin s q = some (some p, a) → a.exitStatus = none →
      activity.awaits = some q ∨ activity.exitStatus.isSome) :
    Foreground (s.setActivity p activity) :=
  foreground.modify found rfl (foreground.lines p x found) live children

theorem children (foreground : Foreground s) {p : ℕ} {x : Process} (found : s.process? p = some x)
    (q : ℕ) (a : Activity) (isChild : kin s q = some (some p, a)) (lives : a.exitStatus = none) :
    x.activity.awaits = some q ∨ x.activity.exitStatus.isSome :=
  foreground.waited q p a _ _ isChild (kin_of_found found) lives

/-- A process that waits for none of its children has no live ones. -/
theorem childless (foreground : Foreground s) {p : ℕ} {x : Process} (found : s.process? p = some x)
    (idle : x.activity.awaits = none) (lives : x.activity.exitStatus = none) {q : ℕ} {a : Activity}
    (isChild : kin s q = some (some p, a)) : a.exitStatus ≠ none := by
  intro lived
  rcases foreground.children found q a isChild lived with awaited | ended
  · simp [idle] at awaited
  · simp [lives] at ended

theorem collect (foreground : Foreground s) (p : ℕ) : Foreground (s.collect p) := by
  refine ⟨fun q y listed => ?_, foreground.unread, ?_⟩
  · rw [process?_collect] at listed
    obtain ⟨y', was, rfl⟩ := Option.map_eq_some_iff.mp listed
    split <;> exact foreground.lines q y' was
  · rw [kin_collect]
    exact foreground.waited

/-- A process waits for the one it has forked. -/
theorem spawn (foreground : Foreground s) {p : ℕ} {x child : Process}
    (older : ∀ q r a, kin s q = some (some r, a) → r < s.processes.length)
    (found : s.process? p = some x) (waits : x.activity.awaits = some s.processes.length)
    (parent : child.parent = some p) (ahead : child.ahead = x.ahead) :
    Foreground (s.spawn child) := by
  have inside := lt_of_process? found
  refine ⟨fun q y listed => ?_, foreground.unread, fun q r a grandparent b isChild isParent lives => ?_⟩
  · rw [process?_spawn] at listed
    split at listed
    · rw [← Option.some.inj listed, ahead]
      exact foreground.lines p x found
    · exact foreground.lines q y listed
  · rw [kin_spawn] at isChild isParent
    split at isChild
    · next same =>
      rw [Option.some.injEq, Prod.mk.injEq, parent, Option.some.injEq] at isChild
      rw [← isChild.1, if_neg (Nat.ne_of_lt inside), kin_of_found found, Option.some.injEq,
        Prod.mk.injEq] at isParent
      exact .inl (by rw [← isParent.2, waits, same])
    · rw [if_neg (Nat.ne_of_lt (older q r a isChild))] at isParent
      exact foreground.waited q r a grandparent b isChild isParent lives

/-- A live process is waited for, or its parent has ended. -/
theorem timely (foreground : Foreground s) {q : ℕ} {x : Process} (found : s.process? q = some x)
    (lives : x.activity.exitStatus = none) : Timely s q := by
  rintro x' found' p parent y foundParent
  obtain rfl := Option.some.inj (found.symm.trans found')
  have isChild : kin s q = some (some p, x.activity) := by rw [kin_of_found found, parent]
  have waited := foreground.children foundParent q _ isChild lives
  cases activity : y.activity <;>
    simp_all [Activity.awaits, Activity.exitStatus, Activity.rests]

/-- A process that waits for nothing does something else. -/
theorem setActivity_of_idle (foreground : Foreground s) {p : ℕ} {x : Process} (found : s.process? p = some x)
    (idle : x.activity.awaits = none) (lives : x.activity.exitStatus = none) (activity : Activity) :
    Foreground (s.setActivity p activity) :=
  foreground.setActivity found (fun _ => lives) fun _ _ isChild lived =>
    absurd lived (foreground.childless found idle lives isChild)

theorem getline (foreground : Foreground s) {p : ℕ} {status : Status}
    (stepped : s.getline p status = some t) : Foreground t := by
  obtain ⟨x, input, ahead, found, read, getline, moved⟩ := getline_eq_some stepped
  have here : ¬ IsBackground input := foreground.lines p x found input (by simp [read])
  have later : ∀ input ∈ ahead, ¬ IsBackground input := fun input member =>
    foreground.lines p x found input (by simp [read, member])
  have collected := foreground.collect p
  obtain ⟨x', found', same⟩ := exists_process?_collect (p := p) found
  have getline' : x'.activity = .getline := same.trans getline
  have children := collected.children found'
  have ready : Foreground ((s.collect p).modify p fun process => { process with ahead := ahead }) :=
    collected.modify found' rfl later id children
  obtain ⟨-, rfl⟩ | ⟨last, rfl⟩ | ⟨-, rfl⟩ := moved
  · exact ready
  · exact absurd last here
  · have found'' := process?_modify_self found' fun process => { process with ahead := ahead }
    refine ready.modify found'' rfl later (by simp [getline', Activity.exitStatus]) ?_
    intro q a isChild lives
    refine absurd lives (ready.childless found'' ?_ ?_ isChild) <;> dsimp only <;> rw [getline'] <;> rfl

theorem fork (foreground : Foreground s) (rested : Rested s) {p : ℕ} (stepped : s.fork p = some t) :
    Foreground t := by
  obtain ⟨x, status, command, rest, found, runs, rfl⟩ := fork_eq_some stepped
  have waiting := foreground.setActivity_of_idle found (by rw [runs]; rfl) (by rw [runs]; rfl)
    (.wait s.processes.length command rest)
  have length : (s.setActivity p (.wait s.processes.length command rest)).processes.length =
      s.processes.length := List.length_modify ..
  have older (q r : ℕ) (a : Activity)
      (isChild : kin (s.setActivity p (.wait s.processes.length command rest)) q =
        some (some r, a)) : r < s.processes.length := by
    rw [System.setActivity, kin_modify found] at isChild
    split at isChild
    · rw [Option.some.injEq, Prod.mk.injEq] at isChild
      exact Nat.lt_trans (rested.older p x r found isChild.1) (lt_of_process? found)
    · obtain ⟨y, listed, same⟩ := Option.map_eq_some_iff.mp isChild
      exact Nat.lt_trans (rested.older q y r listed (congrArg Prod.fst same)) (lt_of_process? listed)
  let child : Process := ⟨some p, x.background, false, x.line, x.ahead, .exec command rest⟩
  have forked : Foreground ((s.setActivity p (.wait s.processes.length command rest)).spawn child) :=
    waiting.spawn (by rw [length]; exact older) (process?_modify_self found _) (by rw [length]; rfl)
      rfl rfl
  exact forked.of_same rfl rfl

theorem wait (foreground : Foreground s) (rested : Rested s) {p q : ℕ}
    (stepped : s.wait p q = some t) : Foreground t := by
  obtain ⟨x, y, child, command, rest, status, found, foundChild, waits, parent, fresh, ended, rfl⟩ :=
    wait_eq_some stepped
  have alive : x.activity.exitStatus = none := by rw [waits]; rfl
  have rests := rested.children found q (mem_endedChildren_of_ended foundChild parent fresh ended)
  obtain rfl : child = q := by simpa [waits, Activity.rests] using rests
  have apart : p ≠ child := Nat.ne_of_lt (rested.older child y p foundChild parent)
  have children := foreground.children foundChild
  have collected : Foreground (s.modify child fun process => { process with collected := true }) :=
    foreground.modify foundChild rfl (foreground.lines child y foundChild) id children
  have found' : (s.modify child fun process => { process with collected := true }).process? p = some x :=
    (process?_modify_of_ne apart _).trans found
  suffices running : Foreground ((s.modify child fun process =>
      { process with collected := true }).setActivity p (.run .outer status rest)) from
    running.of_same rfl rfl
  refine collected.setActivity found' (fun _ => alive) fun r a isChild lives => ?_
  -- the only child waited for has ended
  rcases collected.children found' r a isChild lives with awaited | ended'
  · obtain rfl : child = r := by simpa [waits, Activity.awaits] using awaited
    rw [kin_modify foundChild, if_pos rfl, Option.some.injEq, Prod.mk.injEq] at isChild
    rw [← isChild.2, ended] at lives
    contradiction
  · simp [alive] at ended'

end Foreground

theorem foreground_step {a : Action} (stepped : s.step fails a = some t) (rested : Rested s)
    (foreground : Foreground s) (nothing : GivesNothingBack s a) : Foreground t ∧ EndsAtRest s a := by
  cases a with
  | read p n =>
    obtain ⟨x, found, -, getline, -, rfl⟩ := read_eq_some stepped
    have children := foreground.children found
    have moved : Foreground (s.modify p fun process =>
        { process with ahead := s.unread.take (n + 1) }) :=
      foreground.modify found rfl (fun input member => foreground.unread input
        (List.mem_of_mem_take member)) id children
    exact ⟨⟨moved.lines, fun input member => foreground.unread input (List.mem_of_mem_drop member),
      moved.waited⟩, trivial⟩
  | getline p status => exact ⟨foreground.getline stepped, trivial⟩
  | advance p =>
    obtain ⟨x, loop, status, operands, loop', rest, found, runs, -, rfl⟩ := advance_eq_some stepped
    exact ⟨foreground.setActivity_of_idle found (by rw [runs]; rfl) (by rw [runs]; rfl) _, trivial⟩
  | fork p => exact ⟨foreground.fork rested stepped, trivial⟩
  | exec p status =>
    obtain ⟨x, command, rest, found, execs, moved⟩ := exec_eq_some stepped
    have running := foreground.setActivity_of_idle found (by rw [execs]; rfl) (by rw [execs]; rfl)
    refine ⟨?_, trivial⟩
    obtain ⟨-, rfl⟩ | ⟨-, rfl⟩ := moved
    · exact (running _).of_same rfl rfl
    · exact running _
  | wait p q => exact ⟨foreground.wait rested stepped, trivial⟩
  | finish p again =>
    obtain ⟨x, loop, status, back, found, runs, moves, rfl⟩ := finish_eq_some stepped
    obtain rfl := back_eq_nil_of_finish found moves nothing
    have alive : x.activity.exitStatus = none := by rw [runs]; rfl
    have finished := foreground.setActivity_of_idle found (by rw [runs]; rfl) alive
      (if x.background then .ended (.exited 0) else .getline)
    exact ⟨finished.of_same rfl rfl, foreground.timely found alive⟩
  | endOfFile p =>
    obtain ⟨x, found, -, getline, -, rfl⟩ := endOfFile_eq_some stepped
    have alive : x.activity.exitStatus = none := by rw [getline]; rfl
    exact ⟨foreground.setActivity found (fun _ => alive) fun _ _ _ _ => .inr rfl,
      foreground.timely found alive⟩
  | terminate p status again =>
    obtain ⟨x, back, found, live, moves, rfl⟩ := terminate_eq_some stepped
    obtain rfl := back_eq_nil_of_terminate found moves nothing
    have alive : x.activity.exitStatus = none := by
      cases activity : x.activity <;> simp_all [Activity.interprets, Activity.exitStatus]
    have ended : Foreground (s.setActivity p (.ended status)) :=
      foreground.setActivity found (fun _ => alive) fun _ _ _ _ => .inr rfl
    exact ⟨ended.of_same rfl rfl, foreground.timely found alive⟩

/-- In every run in which no `wait` has another child to return, every command is given the status of
its own process. It is such a run if no process ends while its parent is within a line and not waiting
for it, and that is so of every run of a script without background jobs if nothing is read again. -/
theorem statuses_paired (fails : List Word → Bool) (seekable : Bool) (script : List (List Word))
    (actions : List Action) :
    (Guarded (step fails) WaitsAlone (init seekable script) actions →
      Throughout (step fails) Paired (init seekable script) actions) ∧
    (Guarded (step fails) EndsAtRest (init seekable script) actions →
      Guarded (step fails) WaitsAlone (init seekable script) actions) ∧
    ((∀ words ∈ script, (operands words).getLast? ≠ some (.op .BACKGROUND_MODE)) →
      (seekable = true → Guarded (step fails) GivesNothingBack (init seekable script) actions) →
      ∀ s, run (step fails) (init seekable script) actions = some s →
        Guarded (step fails) EndsAtRest (init seekable script) actions) := by
  refine ⟨fun guarded => ?_, fun guarded => ?_, fun lines guarded s success => ?_⟩
  · have initial : Paired (init seekable script) := fun w member => by cases member
    exact throughout_of_guarded (fun _ paired => paired)
      (fun _ _ _ stepped paired alone => paired_step stepped paired alone) guarded initial
  · exact guarded.imp (fun _ a rested _ => waitsAlone_of_rested rested a)
      (fun _ _ _ stepped rested atRest => rested_step stepped rested atRest) (Rested.init seekable script)
  · have nothing : Guarded (step fails) GivesNothingBack (init seekable script) actions := by
      cases seekable with
      | true => exact guarded rfl
      | false =>
        exact guarded_of_run (I := fun s => s.seekable = false)
          (fun _ a _ stepped fixed =>
            ⟨givesNothingBack_of_not_seekable fixed a, (seekable_step stepped).trans fixed⟩) success rfl
    refine nothing.imp_of_run (I := fun s => Rested s ∧ Foreground s) ?_ success
      ⟨Rested.init seekable script, Foreground.init lines⟩
    rintro s a t stepped ⟨rested, foreground⟩ nothing
    obtain ⟨foreground', atRest⟩ := foreground_step stepped rested foreground nothing
    exact ⟨atRest, rested_step stepped rested atRest, foreground'⟩

/-- `sleep &`, then `false && echo` -/
def backgroundScript : List (List Word) :=
  [["sleep".toList, "&".toList], ["false".toList, "&&".toList, "echo".toList]]

/-- The background job ends with 0 while the shell waits for `false`. -/
def backgroundRun : List Action :=
  [.read 0 1, .getline 0 (.exited 0), .fork 1, .exec 2 (.exited 0), .getline 0 (.exited 0), .fork 0,
    .exec 3 (.exited 0), .terminate 2 (.exited 0) [], .wait 1 2, .advance 1, .finish 1 [], .wait 0 1]

/-- The shell takes the status of the background job for that of `false`, which has not ended. -/
theorem statuses_fails :
    ¬ ∀ (fails : List Word → Bool) (seekable : Bool) (script : List (List Word))
      (actions : List Action) (s : System),
      run (step fails) (init seekable script) actions = some s → Paired s := by
  intro paired
  have waits := paired (fun _ => false) false backgroundScript backgroundRun _ rfl
  have shell : (none : Option Status) = some (.exited 0) :=
    waits ⟨0, 3, .exited 0, none⟩ (by decide)
  contradiction

end SphereMultithreading.Soundness.P4
