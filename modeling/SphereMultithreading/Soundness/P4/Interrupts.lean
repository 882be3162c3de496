import SphereMultithreading.Model.P4.Signals
import SphereMultithreading.Soundness.P4.Statuses

/-! # Whom an interrupt reaches

The handler of a process sends SIGINT to children of that process which nobody has waited for, and to one that
was only if it comes right behind the `wait`: a process that has got the number of one that is gone is not
reached otherwise. The command that the shell waits for is reached, unless a line was left to a process of its
own before: `master_pid` of the shell is that process from then on.
-/

namespace SphereMultithreading.Soundness.P4

open Machine Model.P4 System

/-! ## Steps of one process -/

/-- A step of process `p` leaves the others as they are, but for children of it that it collects. -/
def Keeps (p : ℕ) (gone : ℕ → Prop) (s t : System) : Prop :=
  ∀ q x, s.process? q = some x → ∃ y, t.process? q = some y ∧ y.parent = x.parent ∧
    y.background = x.background ∧ (q ≠ p → y.activity = x.activity) ∧
    (y.collected = x.collected ∨ gone q ∧ x.parent = some p)

namespace Keeps

variable {p q : ℕ} {gone : ℕ → Prop} {s t u : System} {x y : Process}

theorem refl (p : ℕ) (gone : ℕ → Prop) (s : System) : Keeps p gone s s :=
  fun _ x found => ⟨x, found, rfl, rfl, fun _ => rfl, .inl rfl⟩

theorem trans (first : Keeps p gone s t) (second : Keeps p gone t u) : Keeps p gone s u := by
  intro q x found
  obtain ⟨y, found', parent, background, activity, collected⟩ := first q x found
  obtain ⟨z, found'', parent', background', activity', collected'⟩ := second q y found'
  refine ⟨z, found'', parent'.trans parent, background'.trans background,
    fun differ => (activity' differ).trans (activity differ), ?_⟩
  rcases collected' with same | ⟨left, child⟩
  · exact collected.imp_left same.trans
  · exact .inr ⟨left, parent ▸ child⟩

/-- The process changes what it does, or what it has read. -/
theorem modify {f : Process → Process} (same : ∀ x, (f x).parent = x.parent ∧
    (f x).background = x.background ∧ (f x).collected = x.collected) : Keeps p gone s (s.modify p f) := by
  intro q x found
  rw [process?_modify, found]
  by_cases here : q = p
  · rw [if_pos here]
    exact ⟨f x, rfl, (same x).1, (same x).2.1, fun differ => absurd here differ, .inl (same x).2.2⟩
  · rw [if_neg here]
    exact ⟨x, rfl, rfl, rfl, fun _ => rfl, .inl rfl⟩

theorem setActivity (activity : Activity) : Keeps p gone s (s.setActivity p activity) :=
  modify fun _ => ⟨rfl, rfl, rfl⟩

theorem spawn (child : Process) : Keeps p gone s (s.spawn child) := by
  intro q x found
  rw [process?_spawn, if_neg (lt_of_process? found).ne]
  exact ⟨x, found, rfl, rfl, fun _ => rfl, .inl rfl⟩

theorem collect : Keeps p (fun _ => True) s (s.collect p) := by
  intro q x found
  rw [process?_collect, found, Option.map_some]
  split
  · next child => exact ⟨_, rfl, rfl, rfl, fun _ => rfl, .inr ⟨trivial, child.1⟩⟩
  · exact ⟨x, rfl, rfl, rfl, fun _ => rfl, .inl rfl⟩

/-- Processes that were there before. -/
theorem back (keeps : Keeps p gone s t) (old : q < s.processes.length) (found : t.process? q = some y) :
    ∃ x, s.process? q = some x ∧ y.parent = x.parent ∧ y.background = x.background ∧
      (q ≠ p → y.activity = x.activity) := by
  have before : s.process? q = some s.processes[q] := List.getElem?_eq_getElem old
  obtain ⟨y', found', parent, background, activity, -⟩ := keeps q _ before
  obtain rfl := Option.some.inj (found.symm.trans found')
  exact ⟨_, before, parent, background, activity⟩

end Keeps

/-- The process waits for nobody. -/
def Idle (s : System) (p : ℕ) : Prop := ∀ y, s.process? p = some y → y.activity.awaits = none

/-- A process forked by another one. -/
structure Forked (s : System) (p : ℕ) (background : Bool) (child : ℕ) (t : System) : Prop where
  number : child = s.processes.length
  length : t.processes.length = s.processes.length + 1
  found : ∃ y, t.process? child = some y ∧ y.parent = some p ∧ y.background = background ∧
    y.collected = false ∧ y.activity.awaits = none

/-- What a step of process `p` does to the processes and to their variables. -/
inductive Moves (s t : Session) (p : ℕ) : Prop
  | quiet (keeps : Keeps p (fun _ => False) s.system t.system)
      (length : t.system.processes.length = s.system.processes.length) (idle : Idle t.system p)
      (globals : t.globals = s.globals) (collected : t.collected = s.collected)
  | clears (keeps : Keeps p (fun _ => True) s.system t.system)
      (length : t.system.processes.length = s.system.processes.length) (idle : Idle t.system p)
      (globals : t.globals = Function.update s.globals p { s.globals p with slavePids := ∅ })
      (collected : t.collected = s.collected)
  | leaves (child : ℕ) (old : p < s.system.processes.length)
      (keeps : Keeps p (fun _ => True) s.system t.system)
      (forked : Forked s.system p true child t.system) (idle : Idle t.system p)
      (globals : t.globals =
        Function.update (Function.update s.globals child ⟨child, ∅⟩) p ⟨child, {child}⟩)
      (collected : t.collected = s.collected)
  | forks (child : ℕ) (x : Process) (free : s.collected p = none) (found : s.system.process? p = some x)
      (keeps : Keeps p (fun _ => False) s.system t.system)
      (forked : Forked s.system p x.background child t.system)
      (waits : ∀ y, t.system.process? p = some y → y.activity.awaits = some child)
      (globals : t.globals = Function.update (Function.update s.globals child (s.globals p)) p
        { s.globals p with slavePids := insert child (s.globals p).slavePids })
      (collected : t.collected = s.collected)
  | collects (q : ℕ) (free : s.collected p = none) (keeps : Keeps p (· = q) s.system t.system)
      (length : t.system.processes.length = s.system.processes.length) (idle : Idle t.system p)
      (globals : t.globals = s.globals) (collected : t.collected = Function.update s.collected p (some q))
  | erases (q : ℕ) (last : s.collected p = some q) (same : t.system = s.system)
      (globals : t.globals = Function.update s.globals p
        { s.globals p with slavePids := (s.globals p).slavePids.erase q })
      (collected : t.collected = Function.update s.collected p none)

section Steps

variable {s t : System} {p : ℕ} {x : Process}

theorem length_modify (s : System) (p : ℕ) (f : Process → Process) :
    (s.modify p f).processes.length = s.processes.length :=
  List.length_modify ..

end Steps

section Moving

variable {fails : List Word → Bool} {s : Session} {system : System}

end Moving

/-! ## The children of a group -/

/-- Where the handler sends signals on, it sends them to children that were not waited for, but for one that
`wait` has just returned. -/
structure Grouped (s : Session) : Prop where
  masters : ∀ p, (s.globals p).masterPid < s.system.processes.length
  slaves : ∀ p, (s.globals p).masterPid = p → ∀ q ∈ (s.globals p).slavePids,
    ∃ x, s.system.process? q = some x ∧ x.parent = some p ∧ (x.collected = false ∨ s.collected p = some q)

theorem Grouped.init (seekable : Bool) (script : List (List Word)) : Grouped (Session.init seekable script) where
  masters _ := Nat.one_pos
  slaves _ _ q member := absurd member (Finset.notMem_empty q)

section Grouping

variable {s t : Session} {p : ℕ}

/-- Children of other processes stay, and so do those of this one that it has not collected. -/
theorem Grouped.slave_kept (grouped : Grouped s) {gone : ℕ → Prop}
    (keeps : Keeps p gone s.system t.system) {p' q : ℕ} (master : (s.globals p').masterPid = p')
    (member : q ∈ (s.globals p').slavePids) (left : p' = p → ¬ gone q) :
    ∃ x, t.system.process? q = some x ∧ x.parent = some p' ∧
      (x.collected = false ∨ s.collected p' = some q) := by
  obtain ⟨x, found, parent, fresh⟩ := grouped.slaves p' master q member
  obtain ⟨y, found', parent', -, -, collected⟩ := keeps q x found
  refine ⟨y, found', parent'.trans parent, fresh.imp_left fun fresh => ?_⟩
  rcases collected with same | ⟨away, child⟩
  · exact same.trans fresh
  · exact absurd away (left (Option.some.inj (parent.symm.trans child)))

theorem Grouped.step (grouped : Grouped s) (moves : Moves s t p) : Grouped t := by
  cases moves with
  | quiet keeps length idle globals collected =>
    refine ⟨fun p' => ?_, fun p' master q member => ?_⟩
    · rw [globals, length]
      exact grouped.masters p'
    · rw [globals] at master member
      rw [collected]
      exact grouped.slave_kept keeps master member fun _ => not_false
  | clears keeps length idle globals collected =>
    refine ⟨fun p' => ?_, fun p' master q member => ?_⟩
    · rw [globals, length, Function.update_apply]
      split
      · exact grouped.masters p
      · exact grouped.masters p'
    · rw [globals, Function.update_apply] at master member
      rw [collected]
      split at member
      · cases Finset.notMem_empty q member
      · next other =>
        rw [if_neg other] at master
        exact grouped.slave_kept keeps master member fun same => absurd same other
  | leaves child old keeps forked idle globals collected =>
    have new := forked.number
    refine ⟨fun p' => ?_, fun p' master q member => ?_⟩
    · rw [globals, forked.length, Function.update_apply, Function.update_apply]
      have := grouped.masters p'
      split_ifs
      · dsimp only
        omega
      · dsimp only
        omega
      · omega
    · rw [globals, Function.update_apply, Function.update_apply] at master member
      rw [collected]
      split at member
      · next here =>
        rw [if_pos here] at master
        dsimp only at master
        omega
      · next other =>
        rw [if_neg other] at master
        split at member
        · cases Finset.notMem_empty q member
        · next older =>
          rw [if_neg older] at master
          exact grouped.slave_kept keeps master member fun same => absurd same other
  | forks child x free found keeps forked waits globals collected =>
    have old := lt_of_process? found
    have new := forked.number
    have above := grouped.masters p
    refine ⟨fun p' => ?_, fun p' master q member => ?_⟩
    · rw [globals, forked.length, Function.update_apply, Function.update_apply]
      have := grouped.masters p'
      split_ifs
      · dsimp only
        omega
      · omega
      · omega
    · rw [globals, Function.update_apply, Function.update_apply] at master member
      rw [collected]
      split at member
      · next here =>
        subst here
        rw [if_pos rfl] at master
        rcases Finset.mem_insert.mp member with rfl | member
        · obtain ⟨y, found', parent, -, fresh, -⟩ := forked.found
          exact ⟨y, found', parent, .inl fresh⟩
        · exact grouped.slave_kept keeps master member fun _ => not_false
      · next other =>
        rw [if_neg other] at master
        split at member
        · next here =>
          -- the copy is not a master
          rw [if_pos here] at master
          omega
        · next older =>
          rw [if_neg older] at master
          exact grouped.slave_kept keeps master member fun same => absurd same other
  | collects q' free keeps length idle globals collected =>
    refine ⟨fun p' => ?_, fun p' master q member => ?_⟩
    · rw [globals, length]
      exact grouped.masters p'
    · rw [globals] at master member
      rw [collected, Function.update_apply]
      split
      · next here =>
        subst here
        obtain ⟨x, found, parent, fresh⟩ := grouped.slaves p' master q member
        obtain ⟨y, found', parent', -, -, gone⟩ := keeps q x found
        refine ⟨y, found', parent'.trans parent, ?_⟩
        rcases gone with same | ⟨away, -⟩
        · rw [free] at fresh
          exact .inl (same.trans (fresh.resolve_right (Option.some_ne_none q).symm))
        · exact .inr (congrArg some away.symm)
      · next other => exact grouped.slave_kept keeps master member fun same => absurd same other
  | erases q' last same globals collected =>
    refine ⟨fun p' => ?_, fun p' master q member => ?_⟩
    · rw [globals, same, Function.update_apply]
      split
      · exact grouped.masters p
      · exact grouped.masters p'
    · rw [globals, Function.update_apply] at master member
      rw [same, collected, Function.update_apply]
      split at member
      · next here =>
        subst here
        rw [if_pos rfl] at master
        obtain ⟨differ, member⟩ := Finset.mem_erase.mp member
        obtain ⟨x, found, parent, fresh⟩ := grouped.slaves p' master q member
        rw [last, Option.some.injEq] at fresh
        exact ⟨x, found, parent, .inl (fresh.resolve_right differ.symm)⟩
      · next other =>
        rw [if_neg other] at master
        rw [if_neg other]
        exact grouped.slaves p' master q member

end Grouping

/-! ## The command that is waited for -/

/-- A process that waits has its child among those it would send signals to, and the shell is its own master
until it leaves a line to another process. -/
structure Tracked (s : Session) : Prop where
  shell : ∃ x, s.system.process? Session.shellPid = some x ∧ x.background = false
  waits : ∀ p x child, s.system.process? p = some x → x.activity.awaits = some child →
    child ∈ (s.globals p).slavePids
  idle : ∀ p q, s.collected p = some q → Idle s.system p
  master : (s.globals Session.shellPid).masterPid = Session.shellPid ↔
    ∀ q x, s.system.process? q = some x → x.parent = some Session.shellPid → x.background = false

theorem Tracked.init (seekable : Bool) (script : List (List Word)) : Tracked (Session.init seekable script) := by
  have only {q : ℕ} {x : Process} (found : (Session.init seekable script).system.process? q = some x) :
      x = ⟨none, false, false, 0, [], .getline⟩ := by
    obtain ⟨inside, rfl⟩ := List.getElem?_eq_some_iff.mp found
    obtain rfl : q = 0 := by simpa [Session.init, System.init] using inside
    rfl
  refine ⟨⟨_, rfl, rfl⟩, fun p x child found awaits => ?_, fun p q last => ?_,
    iff_of_true rfl fun q x found parent => ?_⟩
  · rw [only found] at awaits
    cases awaits
  · cases last
  · rw [only found]

section Tracking

variable {s t : Session} {p : ℕ}

theorem Tracked.shell_kept (tracked : Tracked s) {gone : ℕ → Prop}
    (keeps : Keeps p gone s.system t.system) :
    ∃ x, t.system.process? Session.shellPid = some x ∧ x.background = false := by
  obtain ⟨x, found, foreground⟩ := tracked.shell
  obtain ⟨y, found', -, background, -⟩ := keeps _ x found
  exact ⟨y, found', background.trans foreground⟩

/-- What another process waits for is as it was. -/
theorem Tracked.waits_kept (tracked : Tracked s) {gone : ℕ → Prop}
    (keeps : Keeps p gone s.system t.system) {p' child : ℕ} {x : Process}
    (old : p' < s.system.processes.length) (other : p' ≠ p) (found : t.system.process? p' = some x)
    (awaits : x.activity.awaits = some child) : child ∈ (s.globals p').slavePids := by
  obtain ⟨y, found', -, -, activity⟩ := keeps.back old found
  rw [activity other] at awaits
  exact tracked.waits p' y child found' awaits

/-- Another process that has a pid to erase still waits for nobody. -/
theorem Tracked.idle_kept (tracked : Tracked s) {gone : ℕ → Prop}
    (keeps : Keeps p gone s.system t.system) {p' q : ℕ} {x : Process}
    (old : p' < s.system.processes.length) (other : p' ≠ p) (found : t.system.process? p' = some x)
    (last : s.collected p' = some q) : x.activity.awaits = none := by
  obtain ⟨y, found', -, -, activity⟩ := keeps.back old found
  rw [activity other]
  exact tracked.idle p' q last y found'

/-- Among the processes that were there before, the shell has left lines to as many as it had. -/
theorem foreground_kept {gone : ℕ → Prop} (keeps : Keeps p gone s.system t.system)
    (length : t.system.processes.length = s.system.processes.length) :
    (∀ q x, t.system.process? q = some x → x.parent = some Session.shellPid → x.background = false) ↔
      ∀ q x, s.system.process? q = some x → x.parent = some Session.shellPid → x.background = false := by
  constructor
  · intro all q x found parent
    obtain ⟨y, found', parent', background, -⟩ := keeps q x found
    exact background ▸ all q y found' (parent'.trans parent)
  · intro all q y found parent
    obtain ⟨x, found', parent', background, -⟩ := keeps.back (length ▸ lt_of_process? found) found
    exact background.trans (all q x found' (parent' ▸ parent))

/-- A step that forks nobody. -/
theorem Tracked.step_of_length (tracked : Tracked s) {gone : ℕ → Prop}
    (keeps : Keeps p gone s.system t.system)
    (length : t.system.processes.length = s.system.processes.length) (idle : Idle t.system p)
    (masters : ∀ p', (t.globals p').masterPid = (s.globals p').masterPid)
    (slaves : ∀ p' ≠ p, (t.globals p').slavePids = (s.globals p').slavePids)
    (others : ∀ p' ≠ p, t.collected p' = s.collected p') : Tracked t := by
  refine ⟨tracked.shell_kept keeps, fun p' x child found awaits => ?_, fun p' q last x found => ?_, ?_⟩
  · have other : p' ≠ p := by
      rintro rfl
      cases (idle x found).symm.trans awaits
    rw [slaves p' other]
    exact tracked.waits_kept keeps (length ▸ lt_of_process? found) other found awaits
  · by_cases here : p' = p
    · subst here
      exact idle x found
    · exact tracked.idle_kept keeps (length ▸ lt_of_process? found) here found (others p' here ▸ last)
  · rw [masters, foreground_kept keeps length]
    exact tracked.master

/-- A step that forks a child. -/
theorem foreground_forked {gone : ℕ → Prop} {background : Bool} {child : ℕ}
    (keeps : Keeps p gone s.system t.system) (forked : Forked s.system p background child t.system) :
    (∀ q x, t.system.process? q = some x → x.parent = some Session.shellPid → x.background = false) ↔
      (∀ q x, s.system.process? q = some x → x.parent = some Session.shellPid → x.background = false) ∧
        (p = Session.shellPid → background = false) := by
  obtain ⟨y, found, parent, same, -⟩ := forked.found
  constructor
  · refine fun all => ⟨fun q x found' parent' => ?_, fun here => ?_⟩
    · obtain ⟨z, found'', parent'', background', -⟩ := keeps q x found'
      exact background' ▸ all q z found'' (parent''.trans parent')
    · exact same ▸ all child y found (here ▸ parent)
  · rintro ⟨all, new⟩ q z found' parent'
    by_cases old : q < s.system.processes.length
    · obtain ⟨x, found'', parent'', background', -⟩ := keeps.back old found'
      exact background'.trans (all q x found'' (parent'' ▸ parent'))
    · have := lt_of_process? found'
      obtain rfl : q = child := by
        have := forked.length
        have := forked.number
        omega
      obtain rfl := Option.some.inj (found.symm.trans found')
      rw [same]
      exact new (Option.some.inj (parent.symm.trans parent'))

/-- A process is the new one or was there before. -/
theorem Forked.old_or_new {background : Bool} {child q : ℕ} {s t : System} {x : Process}
    (forked : Forked s p background child t) (found : t.process? q = some x) :
    q = child ∧ x.activity.awaits = none ∨ q < s.processes.length := by
  obtain ⟨y, found', -, -, -, idle⟩ := forked.found
  have below := lt_of_process? found
  rw [forked.length] at below
  rcases Nat.lt_or_ge q s.processes.length with old | new
  · exact .inr old
  · obtain rfl : q = child := by
      have := forked.number
      omega
    obtain rfl := Option.some.inj (found'.symm.trans found)
    exact .inl ⟨rfl, idle⟩

theorem Tracked.step (tracked : Tracked s) (moves : Moves s t p) : Tracked t := by
  cases moves with
  | quiet keeps length idle globals collected =>
    apply tracked.step_of_length keeps length idle
    · intro p'
      rw [globals]
    · intro p' _
      rw [globals]
    · intro p' _
      rw [collected]
  | clears keeps length idle globals collected =>
    apply tracked.step_of_length keeps length idle
    · intro p'
      rw [globals, Function.update_apply]
      split
      · next here => rw [here]
      · rfl
    · intro p' other
      rw [globals, Function.update_of_ne other]
    · intro p' _
      rw [collected]
  | collects q free keeps length idle globals collected =>
    apply tracked.step_of_length keeps length idle
    · intro p'
      rw [globals]
    · intro p' _
      rw [globals]
    · intro p' other
      rw [collected, Function.update_of_ne other]
  | erases q last same globals collected =>
    have idle : Idle t.system p := same ▸ tracked.idle p q last
    have keeps : Keeps p (fun _ => False) s.system t.system := by
      rw [same]
      exact Keeps.refl p _ s.system
    apply tracked.step_of_length keeps (by rw [same]) idle
    · intro p'
      rw [globals, Function.update_apply]
      split
      · next here => rw [here]
      · rfl
    · intro p' other
      rw [globals, Function.update_of_ne other]
    · intro p' other
      rw [collected, Function.update_of_ne other]
  | leaves child old keeps forked idle globals collected =>
    have new := forked.number
    obtain ⟨shell, isShell, -⟩ := tracked.shell
    have first := lt_of_process? isShell
    refine ⟨tracked.shell_kept keeps, fun p' x child' found awaits => ?_, fun p' q last x found => ?_, ?_⟩
    · have other : p' ≠ p := by
        rintro rfl
        cases (idle x found).symm.trans awaits
      rcases forked.old_or_new found with ⟨-, none⟩ | older
      · cases none.symm.trans awaits
      · rw [globals, Function.update_of_ne other, Function.update_of_ne (by omega)]
        exact tracked.waits_kept keeps older other found awaits
    · by_cases here : p' = p
      · subst here
        exact idle x found
      · rw [collected] at last
        rcases forked.old_or_new found with ⟨-, none⟩ | older
        · exact none
        · exact tracked.idle_kept keeps older here found last
    · rw [foreground_forked keeps forked, globals]
      by_cases here : p = Session.shellPid
      · subst here
        rw [Function.update_self]
        refine iff_of_false (fun same => ?_) fun all => Bool.noConfusion (all.2 rfl)
        dsimp only at same
        omega
      · rw [Function.update_of_ne (Ne.symm here), Function.update_of_ne (by omega), tracked.master]
        exact (and_iff_left fun same => absurd same here).symm
  | forks child x free found keeps forked waits globals collected =>
    have new := forked.number
    obtain ⟨shell, isShell, foreground⟩ := tracked.shell
    have first := lt_of_process? isShell
    refine ⟨tracked.shell_kept keeps, fun p' y child' found' awaits => ?_, fun p' q last y found' => ?_, ?_⟩
    · by_cases here : p' = p
      · subst here
        obtain rfl := Option.some.inj ((waits y found').symm.trans awaits)
        rw [globals, Function.update_self]
        exact Finset.mem_insert_self ..
      · rcases forked.old_or_new found' with ⟨-, none⟩ | older
        · cases none.symm.trans awaits
        · rw [globals, Function.update_of_ne here, Function.update_of_ne (by omega)]
          exact tracked.waits_kept keeps older here found' awaits
    · rw [collected] at last
      have other : p' ≠ p := by
        rintro rfl
        cases free.symm.trans last
      rcases forked.old_or_new found' with ⟨-, none⟩ | older
      · exact none
      · exact tracked.idle_kept keeps older other found' last
    · rw [foreground_forked keeps forked, globals]
      have kept : (Function.update (Function.update s.globals child (s.globals p)) p
          { s.globals p with slavePids := insert child (s.globals p).slavePids } Session.shellPid).masterPid =
          (s.globals Session.shellPid).masterPid := by
        by_cases here : p = Session.shellPid
        · subst here
          rw [Function.update_self]
        · rw [Function.update_of_ne (Ne.symm here), Function.update_of_ne (by omega)]
      rw [kept, tracked.master]
      refine (and_iff_left fun here => ?_).symm
      subst here
      obtain rfl := Option.some.inj (isShell.symm.trans found)
      exact foreground

end Tracking

/-! ## All runs -/

end SphereMultithreading.Soundness.P4
