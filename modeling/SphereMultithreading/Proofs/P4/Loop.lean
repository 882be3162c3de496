import Mathlib.Data.List.Nodup
import SphereMultithreading.Model.P4.Processes

/-! # The loops of `run`, turn by turn

`runLoop` says what the two loops of `run` execute for given exit statuses. Here it is taken apart into
the turns in which nothing is executed. `Passes` says that the inner loop meets no `|` on the way.
-/

namespace SphereMultithreading.Model.P4

variable {exitStatus : Command → Status}

def Operand.command? : Operand → Option Command
  | .cmd command => some command
  | .op _ => none

/-- Of the operands only commands are executed, each once at most and in order. -/
theorem runLoop_sublist (exitStatus : Command → Status) (loop : Loop) (status : Status)
    (operands : List Operand) :
    (runLoop exitStatus loop status operands).Sublist (operands.filterMap Operand.command?) := by
  fun_induction runLoop exitStatus loop status operands with
  | case1 => exact List.nil_sublist _
  | case2 status command rest ih =>
    rw [List.filterMap_cons_some (by rfl)]
    exact ih.cons_cons command
  | case5 nextOp status command rest ih =>
    rw [List.filterMap_cons_some (by rfl)]
    exact ih.cons command
  | case3 status nextOp rest _ ih | case4 status nextOp rest _ ih | case6 nextOp status name rest _ ih
      | case7 nextOp status name rest _ ih =>
    rw [List.filterMap_cons_none (by rfl)]
    exact ih

/-! ## The operands of a line -/

/-- Every command of the operands is known by a place of its own. -/
def Placed (operands : List Operand) : Prop :=
  ((operands.filterMap Operand.command?).map (·.place)).Nodup ∧
    ∀ c ∈ operands.filterMap Operand.command?, c.place < operands.length

theorem placed_pushCommand {before : List Operand} (placed : Placed before) (cmd : List Word) :
    Placed (pushCommand before cmd) := by
  obtain ⟨distinct, below⟩ := placed
  have pushed : (pushCommand before cmd).filterMap Operand.command? =
      before.filterMap Operand.command? ++ [⟨before.length, cmd⟩] := by
    rw [pushCommand, List.filterMap_append]
    rfl
  constructor
  · rw [pushed, List.map_append]
    refine List.nodup_append.mpr ⟨distinct, List.nodup_singleton _, ?_⟩
    rintro place member other new rfl
    obtain ⟨c, listed, rfl⟩ := List.mem_map.mp member
    have here : c.place = before.length := by simpa using new
    exact absurd (below c listed) (by omega)
  · rw [pushed, pushCommand, List.length_append, List.length_singleton]
    intro c member
    rcases List.mem_append.mp member with old | new
    · have := below c old
      omega
    · obtain rfl := List.mem_singleton.mp new
      exact Nat.lt_succ_self _

theorem placed_pushOperands {before : List Operand} (placed : Placed before) (cmd words : List Word) :
    Placed (pushOperands before cmd words) := by
  induction words generalizing before cmd with
  | nil =>
    rw [pushOperands]
    split
    · exact placed_pushCommand placed cmd
    · exact placed
  | cons word rest ih =>
    rw [pushOperands]
    split
    · refine ih ?_ []
      obtain ⟨distinct, below⟩ := placed_pushCommand placed cmd
      have same (op : Option OpType) : (pushCommand before cmd ++ op.toList.map Operand.op).filterMap
          Operand.command? = (pushCommand before cmd).filterMap Operand.command? := by
        cases op <;> simp [Operand.command?]
      refine ⟨by rwa [same], ?_⟩
      rw [same]
      intro c member
      exact Nat.lt_of_lt_of_le (below c member) (by simp)
    · exact ih placed _

theorem nodup_commands (words : List Word) :
    ((operands words).filterMap Operand.command?).Nodup := by
  have empty : Placed [] := ⟨List.nodup_nil, by simp⟩
  exact (placed_pushOperands empty [] words).1.of_map _

/-- The inner loop meets no `|`. -/
def Passes (exitStatus : Command → Status) : Loop → Status → List Operand → Prop
  | _, _, [] => True
  | .outer, _, .cmd cmd :: rest => Passes exitStatus .outer (exitStatus cmd) rest
  | .outer, status, .op nextOp :: rest =>
      if shortCircuits nextOp status then Passes exitStatus (.inner nextOp) status rest
      else Passes exitStatus .outer status rest
  | .inner nextOp, status, .cmd _ :: rest => Passes exitStatus (.inner nextOp) status rest
  | .inner nextOp, status, .op name :: rest =>
      name ≠ .CONVEYOR ∧
        if name ≠ nextOp then Passes exitStatus .outer status rest
        else Passes exitStatus (.inner nextOp) status rest

/-- A `|` that would end the inner loop. -/
def breaksAtPipe : Loop → List Operand → Bool
  | .inner _, .op .CONVEYOR :: _ => true
  | _, _ => false

/-- A turn in which nothing is executed leaves the rest to be executed. -/
theorem runLoop_advance {loop loop' : Loop} {status : Status} {operands rest : List Operand}
    (turned : advanceLoop loop status operands = some (loop', rest)) :
    runLoop exitStatus loop status operands = runLoop exitStatus loop' status rest := by
  rcases loop with _ | nextOp <;> rcases operands with _ | ⟨_ | _, _⟩ <;>
    simp only [advanceLoop, Option.some.injEq, Prod.mk.injEq, reduceCtorEq] at turned <;>
    obtain ⟨rfl, rfl⟩ := turned <;> rw [runLoop] <;> split_ifs <;> rfl

theorem passes_advance {loop loop' : Loop} {status : Status} {operands rest : List Operand}
    (turned : advanceLoop loop status operands = some (loop', rest))
    (passes : breaksAtPipe loop operands = false) (later : Passes exitStatus loop' status rest) :
    Passes exitStatus loop status operands := by
  rcases loop with _ | nextOp <;> rcases operands with _ | ⟨_ | name, _⟩ <;>
    simp only [advanceLoop, Option.some.injEq, Prod.mk.injEq, reduceCtorEq] at turned <;>
    obtain ⟨rfl, rfl⟩ := turned
  · rw [Passes]
    split_ifs <;> simp_all
  · exact later
  · refine ⟨?_, ?_⟩
    · rintro rfl
      simp [breaksAtPipe] at passes
    · split_ifs <;> simp_all

end SphereMultithreading.Model.P4
