import SphereMultithreading.Model.P4.Pipes
import SphereMultithreading.Proofs.P4.Construction

/-! # The wiring of a line

Each descriptor that a line opens is held by one command on one side, and what it is connected to tells
which. A command that was executed has left none of its descriptors in the table of the shell, and its
process has what it was given at 0 and 1.
-/

namespace SphereMultithreading.Model.P4

open Machine

def Members.fds (m : Members) : List ℕ := m.fdInput.toList ++ m.fdOutput.toList

/-- What the command at a place reads from. -/
def Wiring.inChannel (w : Wiring) (place : ℕ) : Channel :=
  if (w.build.members place).fdInput.isSome then .readEnd (place - 2) else .terminal

def Wiring.outChannel (w : Wiring) (place : ℕ) : Channel :=
  if (w.build.members place).fdOutput.isSome then .writeEnd place else .terminal

theorem Members.mem_fds {m : Members} {fd : ℕ} :
    fd ∈ m.fds ↔ m.fdInput = some fd ∨ m.fdOutput = some fd := by
  rw [fds, List.mem_append, Option.mem_toList, Option.mem_toList]

/-! ## Setting the pipes -/

namespace Wiring

/-- The descriptors that are open beyond those before the line are held by commands. -/
structure Wired (before : Finset ℕ) (w : Wiring) : Prop where
  kept : ∀ fd ∈ before, fd ∈ w.build.fds.table ∧ w.channel fd = .terminal
  input : ∀ place fd, (w.build.members place).fdInput = some fd →
    2 ≤ place ∧ fd ∈ w.build.fds.table ∧ w.channel fd = .readEnd (place - 2)
  output : ∀ place fd, (w.build.members place).fdOutput = some fd →
    fd ∈ w.build.fds.table ∧ w.channel fd = .writeEnd place
  held : ∀ fd ∈ w.build.fds.table, fd ∉ before → ∃ place, fd ∈ (w.build.members place).fds
  joined : ∀ place, (w.build.members place).fdOutput.isSome ↔
    (w.build.members (place + 2)).fdInput.isSome

/-- Nothing is given to a command behind a place, except that the first may have something to read. -/
def Unpiped (w : Wiring) (n : ℕ) : Prop :=
  (∀ place, n ≤ place → (w.build.members place).fdOutput = none) ∧
    ∀ place, n < place → (w.build.members place).fdInput = none

variable {before : Finset ℕ} {w : Wiring} {c d : Command}

theorem fdInput_setPipe (w : Wiring) (apart : d.place ≠ c.place) (place : ℕ) :
    ((w.setPipe c d).build.members place).fdInput =
      if place = d.place then some w.build.fds.create.1 else (w.build.members place).fdInput := by
  simp only [setPipe, Build.setPipe, Function.update_apply, Members.setFdInput, Members.setFdOutput]
  split_ifs <;> simp_all

theorem fdOutput_setPipe (w : Wiring) (place : ℕ) :
    ((w.setPipe c d).build.members place).fdOutput =
      if place = c.place then some w.build.fds.create.2.create.1
      else (w.build.members place).fdOutput := by
  simp only [setPipe, Build.setPipe, Function.update_apply, Members.setFdInput, Members.setFdOutput]
  split_ifs <;> simp_all

theorem channel_setPipe (w : Wiring) (fd : ℕ) :
    (w.setPipe c d).channel fd =
      if fd = w.build.fds.create.2.create.1 then .writeEnd c.place
      else if fd = w.build.fds.create.1 then .readEnd c.place else w.channel fd := by
  simp only [setPipe, Function.update_apply]

theorem mem_table_setPipe (w : Wiring) (fd : ℕ) :
    fd ∈ (w.setPipe c d).build.fds.table ↔ fd = w.build.fds.create.2.create.1 ∨
      fd = w.build.fds.create.1 ∨ fd ∈ w.build.fds.table := by
  exact Finset.mem_insert.trans (or_congr_right Finset.mem_insert)

/-- The two ends are new. -/
theorem create_fresh (w : Wiring) : w.build.fds.create.1 ∉ w.build.fds.table ∧
    w.build.fds.create.2.create.1 ∉ w.build.fds.table ∧
    w.build.fds.create.2.create.1 ≠ w.build.fds.create.1 := by
  have first : w.build.fds.create.1 ∉ w.build.fds.table := newDescriptor_notMem _
  have second : w.build.fds.create.2.create.1 ∉ insert w.build.fds.create.1 w.build.fds.table :=
    newDescriptor_notMem _
  rw [Finset.mem_insert, not_or] at second
  exact ⟨first, second.2, second.1⟩

/-- What was connected stays so. -/
theorem channel_setPipe_of_mem {fd : ℕ} (member : fd ∈ w.build.fds.table) :
    (w.setPipe c d).channel fd = w.channel fd := by
  obtain ⟨first, second, -⟩ := create_fresh w
  rw [channel_setPipe, if_neg (ne_of_mem_of_not_mem member second),
    if_neg (ne_of_mem_of_not_mem member first)]

theorem Wired.setPipe (wired : w.Wired before) (unpiped : w.Unpiped c.place)
    (next : d.place = c.place + 2) : (w.setPipe c d).Wired before := by
  obtain ⟨first, second, differ⟩ := create_fresh w
  have apart : d.place ≠ c.place := by omega
  refine ⟨fun fd member => ?_, fun place fd has => ?_, fun place fd has => ?_, fun fd member new => ?_,
    fun place => ?_⟩
  · obtain ⟨opened, terminal⟩ := wired.kept fd member
    rw [channel_setPipe_of_mem opened]
    exact ⟨(mem_table_setPipe w fd).mpr (.inr (.inr opened)), terminal⟩
  · rw [fdInput_setPipe w apart] at has
    split at has
    · next here =>
      obtain rfl := Option.some.inj has
      refine ⟨by omega, (mem_table_setPipe w _).mpr (.inr (.inl rfl)), ?_⟩
      rw [channel_setPipe, if_neg differ.symm, if_pos rfl, here, next, Nat.add_sub_cancel]
    · obtain ⟨above, opened, connected⟩ := wired.input place fd has
      rw [channel_setPipe_of_mem opened]
      exact ⟨above, (mem_table_setPipe w fd).mpr (.inr (.inr opened)), connected⟩
  · rw [fdOutput_setPipe] at has
    split at has
    · next here =>
      obtain rfl := Option.some.inj has
      refine ⟨(mem_table_setPipe w _).mpr (.inl rfl), ?_⟩
      rw [channel_setPipe, if_pos rfl, here]
    · obtain ⟨opened, connected⟩ := wired.output place fd has
      rw [channel_setPipe_of_mem opened]
      exact ⟨(mem_table_setPipe w fd).mpr (.inr (.inr opened)), connected⟩
  · rcases (mem_table_setPipe w fd).mp member with rfl | rfl | opened
    · refine ⟨c.place, Members.mem_fds.mpr (.inr ?_)⟩
      rw [fdOutput_setPipe, if_pos rfl]
    · refine ⟨d.place, Members.mem_fds.mpr (.inl ?_)⟩
      rw [fdInput_setPipe w apart, if_pos rfl]
    · obtain ⟨place, holds⟩ := wired.held fd opened new
      refine ⟨place, Members.mem_fds.mpr ?_⟩
      -- nothing that was held is replaced
      rcases Members.mem_fds.mp holds with has | has
      · left
        rw [fdInput_setPipe w apart]
        split
        · next here =>
          rw [here, unpiped.2 d.place (by omega)] at has
          cases has
        · exact has
      · right
        rw [fdOutput_setPipe]
        split
        · next here =>
          rw [here, unpiped.1 c.place le_rfl] at has
          cases has
        · exact has
  · rw [fdOutput_setPipe, fdInput_setPipe w apart]
    by_cases here : place = c.place
    · rw [if_pos here, if_pos (by omega)]
      exact iff_of_true rfl rfl
    · rw [if_neg here, if_neg (by omega)]
      exact wired.joined place

theorem Unpiped.setPipe (unpiped : w.Unpiped c.place) (next : d.place = c.place + 2) :
    (w.setPipe c d).Unpiped d.place := by
  refine ⟨fun place above => ?_, fun place above => ?_⟩
  · rw [fdOutput_setPipe, if_neg (by omega)]
    exact unpiped.1 place (by omega)
  · rw [fdInput_setPipe w (by omega), if_neg (by omega)]
    exact unpiped.2 place (by omega)

/-! ## What the shell has left -/

/-- The descriptors of the shell when it has executed the commands at some places. -/
def left (w : Wiring) (fed : Finset ℕ) : Finset ℕ :=
  w.build.fds.table.filter fun fd => ∀ place ∈ fed, fd ∉ (w.build.members place).fds

variable {fed : Finset ℕ} {place other fd : ℕ}

theorem mem_left : fd ∈ w.left fed ↔
    fd ∈ w.build.fds.table ∧ ∀ place ∈ fed, fd ∉ (w.build.members place).fds :=
  Finset.mem_filter

theorem left_insert (w : Wiring) (fed : Finset ℕ) (place : ℕ) :
    w.left (insert place fed) = (w.left fed).filter fun fd => fd ∉ (w.build.members place).fds := by
  ext fd
  rw [Finset.mem_filter, mem_left, mem_left, Finset.forall_mem_insert]
  tauto

theorem left_empty (w : Wiring) : w.left ∅ = w.build.fds.table :=
  Finset.filter_true_of_mem fun _ _ _ absent => absurd absent (Finset.notMem_empty _)

section Held

variable (wired : w.Wired before)

include wired

theorem Wired.mem_table (holds : fd ∈ (w.build.members place).fds) : fd ∈ w.build.fds.table := by
  rcases Members.mem_fds.mp holds with has | has
  · exact (wired.input place fd has).2.1
  · exact (wired.output place fd has).1

/-- A descriptor is held by one command. -/
theorem Wired.place_unique (holds : fd ∈ (w.build.members place).fds)
    (holds' : fd ∈ (w.build.members other).fds) : place = other := by
  rcases Members.mem_fds.mp holds with has | has <;> rcases Members.mem_fds.mp holds' with has' | has'
  · obtain ⟨above, -, connected⟩ := wired.input place fd has
    obtain ⟨above', -, connected'⟩ := wired.input other fd has'
    have := Channel.readEnd.inj (connected.symm.trans connected')
    omega
  · cases (wired.input place fd has).2.2.symm.trans (wired.output other fd has').2
  · cases (wired.output place fd has).2.symm.trans (wired.input other fd has').2.2
  · exact Channel.writeEnd.inj ((wired.output place fd has).2.symm.trans (wired.output other fd has').2)

theorem Wired.notMem_before (holds : fd ∈ (w.build.members place).fds) : fd ∉ before := by
  intro member
  have terminal := (wired.kept fd member).2
  rcases Members.mem_fds.mp holds with has | has
  · cases terminal.symm.trans (wired.input place fd has).2.2
  · cases terminal.symm.trans (wired.output place fd has).2

/-- Its two descriptors differ. -/
theorem Wired.nodup_fds (place : ℕ) : (w.build.members place).fds.Nodup := by
  rw [Members.fds]
  cases input : (w.build.members place).fdInput with
  | none => cases (w.build.members place).fdOutput <;> simp
  | some fd =>
    cases output : (w.build.members place).fdOutput with
    | none => simp
    | some fd' =>
      have differ : fd ≠ fd' := by
        rintro rfl
        cases (wired.input place fd input).2.2.symm.trans (wired.output place fd output).2
      simpa using differ

/-- Commands that were not executed still hold what they held. -/
theorem Wired.mem_left_of_fds (holds : fd ∈ (w.build.members place).fds) (new : place ∉ fed) :
    fd ∈ w.left fed :=
  mem_left.mpr ⟨wired.mem_table holds, fun _ member holds' =>
    new (wired.place_unique holds holds' ▸ member)⟩

theorem Wired.mem_left_of_before (old : fd ∈ before) : fd ∈ w.left fed :=
  mem_left.mpr ⟨(wired.kept fd old).1, fun _ _ holds => wired.notMem_before holds old⟩

/-- Who has executed the command before a pipe cannot write to it. -/
theorem Wired.not_writes (pipe : ℕ) (executed : pipe ∈ fed) :
    ¬ (⟨w.left fed, w.channel⟩ : Files).Connects (.writeEnd pipe) := by
  rintro ⟨fd, opened, connected⟩
  obtain ⟨member, closed⟩ := mem_left.mp opened
  have new : fd ∉ before := fun old => by cases (wired.kept fd old).2.symm.trans connected
  obtain ⟨place, holds⟩ := wired.held fd member new
  have here : place = pipe := by
    rcases Members.mem_fds.mp holds with has | has
    · cases (wired.input place fd has).2.2.symm.trans connected
    · exact Channel.writeEnd.inj ((wired.output place fd has).2.symm.trans connected)
  exact closed pipe executed (here ▸ holds)

/-- Who has not can. -/
theorem Wired.writes {pipe : ℕ} (piped : (w.build.members pipe).fdOutput.isSome) (new : pipe ∉ fed) :
    (⟨w.left fed, w.channel⟩ : Files).Connects (.writeEnd pipe) := by
  obtain ⟨fd, has⟩ := Option.isSome_iff_exists.mp piped
  exact ⟨fd, wired.mem_left_of_fds (Members.mem_fds.mpr (.inr has)) new, (wired.output pipe fd has).2⟩

/-- Who has not executed the command behind a pipe can read from it. -/
theorem Wired.reads {pipe : ℕ} (piped : (w.build.members pipe).fdOutput.isSome)
    (new : pipe + 2 ∉ fed) : (⟨w.left fed, w.channel⟩ : Files).Connects (.readEnd pipe) := by
  obtain ⟨fd, has⟩ := Option.isSome_iff_exists.mp ((wired.joined pipe).mp piped)
  refine ⟨fd, wired.mem_left_of_fds (Members.mem_fds.mpr (.inl has)) new, ?_⟩
  exact (wired.input (pipe + 2) fd has).2.2

end Held

end Wiring

/-! ## The descriptors of a child -/

namespace Files

variable {f : Files} {channel : Channel}

/-- `dup2` and `close`, as the child does them. -/
def replace (f : Files) (fd target : ℕ) : Files := (f.dup2 fd target).close fd

theorem lookup_replace {fd target : ℕ} (differ : target ≠ fd) (other : ℕ) :
    (f.replace fd target).lookup other =
      if other = target then some (f.channel fd) else if other = fd then none else f.lookup other := by
  simp only [lookup, replace, close, dup2, Finset.mem_erase, Finset.mem_insert, Function.update_apply]
  split_ifs <;> simp_all

theorem Connects.of_replace {fd target : ℕ} (opened : fd ∈ f.table)
    (connects : (f.replace fd target).Connects channel) : f.Connects channel := by
  obtain ⟨other, member, rfl⟩ := connects
  simp only [replace, close, dup2, Finset.mem_erase, Finset.mem_insert] at member
  change f.Connects (Function.update f.channel target (f.channel fd) other)
  rw [Function.update_apply]
  split
  · exact ⟨fd, opened, rfl⟩
  · next differ => exact ⟨other, member.2.resolve_left differ, rfl⟩

end Files

namespace Wiring

open Foreground

variable {before fed : Finset ℕ} {w : Wiring} {place : ℕ} (wired : w.Wired before)

/-- The process of a command. -/
def childFiles (w : Wiring) (fed : Finset ℕ) (place : ℕ) : Files :=
  redirect (w.build.members place) ⟨w.left fed, w.channel⟩

include wired

theorem Wired.lookup_old {fd : ℕ} (old : fd ∈ before) :
    (⟨w.left fed, w.channel⟩ : Files).lookup fd = some .terminal := by
  rw [Files.lookup, if_pos (wired.mem_left_of_before old)]
  exact congrArg some (wired.kept fd old).2

/-- The child reads from and writes to what the command was given. -/
theorem Wired.lookup_childFiles (standard : 0 ∈ before ∧ 1 ∈ before) :
    (w.childFiles fed place).lookup 0 = some (w.inChannel place) ∧
      (w.childFiles fed place).lookup 1 = some (w.outChannel place) := by
  have zero : (⟨w.left fed, w.channel⟩ : Files).lookup 0 = some .terminal := wired.lookup_old standard.1
  have one : (⟨w.left fed, w.channel⟩ : Files).lookup 1 = some .terminal := wired.lookup_old standard.2
  have apart (fd : ℕ) (holds : fd ∈ (w.build.members place).fds) : 0 ≠ fd ∧ 1 ≠ fd :=
    ⟨fun same => wired.notMem_before holds (same ▸ standard.1),
      fun same => wired.notMem_before holds (same ▸ standard.2)⟩
  rw [childFiles, redirect, inChannel, outChannel]
  cases input : (w.build.members place).fdInput with
  | none =>
    cases output : (w.build.members place).fdOutput with
    | none => exact ⟨zero, one⟩
    | some fd =>
      have differ := apart fd (Members.mem_fds.mpr (.inr output))
      refine ⟨(Files.lookup_replace differ.2 0).trans ?_, (Files.lookup_replace differ.2 1).trans ?_⟩
      · rw [if_neg Nat.zero_ne_one, if_neg differ.1]
        exact zero
      · rw [if_pos rfl]
        exact congrArg some (wired.output place fd output).2
  | some fd =>
    have differ := apart fd (Members.mem_fds.mpr (.inl input))
    have connected := (wired.input place fd input).2.2
    cases output : (w.build.members place).fdOutput with
    | none =>
      refine ⟨(Files.lookup_replace differ.1 0).trans ?_, (Files.lookup_replace differ.1 1).trans ?_⟩
      · rw [if_pos rfl]
        exact congrArg some connected
      · rw [if_neg Nat.one_ne_zero, if_neg differ.2]
        exact one
    | some fd' =>
      have differ' := apart fd' (Members.mem_fds.mpr (.inr output))
      refine ⟨(Files.lookup_replace differ'.2 0).trans ?_, (Files.lookup_replace differ'.2 1).trans ?_⟩
      · rw [if_neg Nat.zero_ne_one, if_neg differ'.1]
        refine (Files.lookup_replace differ.1 0).trans ?_
        rw [if_pos rfl]
        exact congrArg some connected
      · rw [if_pos rfl]
        refine congrArg some ((Function.update_of_ne differ'.1.symm ..).trans ?_)
        exact (wired.output place fd' output).2

/-- It has nothing that the shell did not have. -/
theorem Wired.connects_childFiles (new : place ∉ fed) {channel : Channel}
    (connects : (w.childFiles fed place).Connects channel) :
    (⟨w.left fed, w.channel⟩ : Files).Connects channel := by
  rw [childFiles, redirect] at connects
  have opened (fd : ℕ) (holds : fd ∈ (w.build.members place).fds) : fd ∈ w.left fed :=
    wired.mem_left_of_fds holds new
  cases input : (w.build.members place).fdInput with
  | none =>
    cases output : (w.build.members place).fdOutput with
    | none =>
      rw [input, output] at connects
      exact connects
    | some fd =>
      rw [input, output] at connects
      exact Files.Connects.of_replace (opened fd (Members.mem_fds.mpr (.inr output))) connects
  | some fd =>
    have member := opened fd (Members.mem_fds.mpr (.inl input))
    cases output : (w.build.members place).fdOutput with
    | none =>
      rw [input, output] at connects
      exact Files.Connects.of_replace member connects
    | some fd' =>
      rw [input, output] at connects
      have member' := opened fd' (Members.mem_fds.mpr (.inr output))
      have differ : fd' ≠ fd := by
        rintro rfl
        cases (wired.input place fd' input).2.2.symm.trans (wired.output place fd' output).2
      refine Files.Connects.of_replace member (Files.Connects.of_replace ?_ connects)
      exact Finset.mem_erase.mpr ⟨differ, Finset.mem_insert_of_mem member'⟩

end Wiring

end SphereMultithreading.Model.P4
