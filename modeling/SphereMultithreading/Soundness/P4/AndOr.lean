import SphereMultithreading.Machine.AndOrList
import SphereMultithreading.Model.P4.Shell

/-! # And-or lists

A line is a list of pipelines joined by `&&` and `||`. `run` walks over its operands without
grouping them. It skips a pipeline as it should, unless the pipeline has a `|`: there the inner loop
breaks, and what follows is executed.
-/

/-! ## The operands of a line -/

namespace SphereMultithreading.Machine.AndOrList

open Model.P4

def Connective.name : Connective → OpType
  | .and => .LOGICAL_AND
  | .or => .LOGICAL_OR

def Link.name : Link → OpType
  | .pipe => .CONVEYOR
  | .connective k => k.name

def Connective.word : Connective → Word
  | .and => ['&', '&']
  | .or => ['|', '|']

def Link.word : Link → Word
  | .pipe => ['|']
  | .connective k => k.word

def Pipeline.operands (p : Pipeline Command) : List Operand :=
  .cmd p.first :: p.others.flatMap fun c => [.op .CONVEYOR, .cmd c]

def restOperands (rest : List (Connective × Pipeline Command)) : List Operand :=
  rest.flatMap fun (k, p) => .op k.name :: p.operands

def AndOr.operands (line : AndOr Command) : List Operand :=
  line.first.operands ++ restOperands line.rest

theorem operands_group (c : Command) (rest : List (Link × Command)) :
    (group c rest).operands = .cmd c :: rest.flatMap fun (l, d) => [.op l.name, .cmd d] := by
  induction rest generalizing c with
  | nil => rfl
  | cons link rest ih =>
    obtain ⟨_ | k, d⟩ := link
    · exact congrArg (.cmd c :: .op .CONVEYOR :: ·) (ih d)
    · exact congrArg (.cmd c :: .op k.name :: ·) (ih d)

end SphereMultithreading.Machine.AndOrList

namespace SphereMultithreading.Soundness.P4

open Machine.AndOrList Model.P4

/-! ## Running a line -/

variable {exitStatus : Command → Status}

theorem run_pipe (status : Status) (rest : List Operand) :
    run exitStatus status (.op .CONVEYOR :: rest) = run exitStatus status rest := by
  simp [run, runLoop, shortCircuits]

theorem shortCircuits_name (k : Connective) (status : Status) :
    shortCircuits k.name status = !k.continues status.success := by
  cases k <;> cases success : status.success <;>
    simp [shortCircuits, Connective.name, Connective.continues, success]

/-- A pipeline that is executed is executed as a whole. -/
theorem run_pipeline (p : Pipeline Command) (status : Status) (rest : List Operand) :
    run exitStatus status (p.operands ++ rest) =
      p.commands ++ run exitStatus (exitStatus p.last) rest := by
  obtain ⟨first, others⟩ := p
  induction others generalizing first status with
  | nil => rfl
  | cons c others ih =>
    have tail := ih (exitStatus first) c
    rw [Pipeline.last, List.getLastD_cons]
    change first :: run exitStatus (exitStatus first)
      (.op .CONVEYOR :: ((⟨c, others⟩ : Pipeline Command).operands ++ rest)) = _
    rw [run_pipe, tail]
    rfl

/-- At a connective, the inner loop entered for one that does not continue ends if the pipeline is
to be executed. -/
theorem inner_restOperands {k : Connective} {status : Status}
    (stops : k.continues status.success = false) (rest : List (Connective × Pipeline Command)) :
    runLoop exitStatus (.inner k.name) status (restOperands rest) =
      run exitStatus status (restOperands rest) := by
  cases rest with
  | nil => rfl
  | cons entry rest =>
    obtain ⟨k', p⟩ := entry
    change runLoop exitStatus (.inner k.name) status
        (.op k'.name :: (p.operands ++ restOperands rest)) =
      run exitStatus status (.op k'.name :: (p.operands ++ restOperands rest))
    rw [run, runLoop, runLoop, shortCircuits_name]
    cases k <;> cases k' <;> simp_all [Connective.name, Connective.continues]

/-- A skipped pipeline, as the inner loop sees it. -/
theorem run_skipped {k : Connective} {status : Status} (stops : k.continues status.success = false)
    (p : Pipeline Command) (rest : List (Connective × Pipeline Command)) :
    run exitStatus status (restOperands ((k, p) :: rest)) =
      runLoop exitStatus (.inner k.name) status (p.operands ++ restOperands rest) := by
  change run exitStatus status (.op k.name :: (p.operands ++ restOperands rest)) = _
  rw [run, runLoop, shortCircuits_name, stops]
  rfl

theorem run_skipped_single {k : Connective} {status : Status}
    (stops : k.continues status.success = false) {p : Pipeline Command} (single : p.others = [])
    (rest : List (Connective × Pipeline Command)) :
    run exitStatus status (restOperands ((k, p) :: rest)) =
      run exitStatus status (restOperands rest) := by
  rw [run_skipped stops, Pipeline.operands, single]
  exact inner_restOperands stops rest

/-- The commands behind the first pipe of a skipped pipeline are executed. -/
theorem run_skipped_pipe {k : Connective} {status : Status}
    (stops : k.continues status.success = false) {p : Pipeline Command} {c : Command}
    {others : List Command} (pipe : p.others = c :: others)
    (rest : List (Connective × Pipeline Command)) :
    run exitStatus status (restOperands ((k, p) :: rest)) =
      run exitStatus status ((⟨c, others⟩ : Pipeline Command).operands ++ restOperands rest) := by
  have breaks : OpType.CONVEYOR ≠ k.name := by cases k <;> simp [Connective.name]
  rw [run_skipped stops, Pipeline.operands, pipe]
  change (if OpType.CONVEYOR ≠ k.name then _ else _) = _
  rw [if_pos breaks]
  rfl

theorem run_executed {k : Connective} {status : Status}
    (continues : k.continues status.success = true) (p : Pipeline Command) (rest : List (Connective × Pipeline Command)) :
    run exitStatus status (restOperands ((k, p) :: rest)) =
      p.commands ++ run exitStatus (exitStatus p.last) (restOperands rest) := by
  change run exitStatus status (.op k.name :: (p.operands ++ restOperands rest)) = _
  rw [run, runLoop, shortCircuits_name, continues, if_neg (by simp)]
  exact run_pipeline p status (restOperands rest)

/-- Behind a pipeline, `run` executes what the meaning says exactly if all that is skipped are
single commands. -/
theorem run_rest_iff {rest : List (Connective × Pipeline Command)} (status : Status)
    (distinct : (rest.flatMap fun (_, p) => p.commands).Nodup) :
    run exitStatus status (restOperands rest) =
        meaningRest (fun c => (exitStatus c).success) status.success rest ↔
      SkipsSingles (fun c => (exitStatus c).success) status.success rest := by
  induction rest generalizing status with
  | nil => exact iff_of_true rfl trivial
  | cons entry rest ih =>
    obtain ⟨k, p⟩ := entry
    rw [List.flatMap_cons] at distinct
    obtain ⟨-, later, apart⟩ := List.nodup_append.mp distinct
    rw [meaningRest, SkipsSingles]
    cases continues : k.continues status.success with
    | true =>
      rw [if_pos rfl, if_pos rfl, run_executed continues, List.append_cancel_left_eq]
      exact ih _ later
    | false =>
      rw [if_neg (by simp), if_neg (by simp)]
      cases others : p.others with
      | nil =>
        rw [run_skipped_single continues others, ih status later]
        simp
      | cons c others' =>
        refine iff_of_false (fun same => ?_) (by simp)
        rw [run_skipped_pipe continues others, run_pipeline] at same
        have executed : c ∈ meaningRest (fun c => (exitStatus c).success) status.success rest :=
          same ▸ List.mem_append_left _ (List.mem_cons_self ..)
        have here : c ∈ p.commands := by simp [Pipeline.commands, others]
        exact apart c here c (meaningRest_subset _ _ _ executed) rfl

/-! ## The words of a line -/

/-- A line that alternates commands with `|`, `&&` and `||`. -/
structure Line where
  first : List Word
  rest : List (Link × List Word)
  commands : ∀ cmd ∈ first :: rest.map Prod.snd, cmd ≠ [] ∧ ∀ word ∈ cmd, isOperator word = false

def Line.words (line : Line) : List Word :=
  line.first ++ line.rest.flatMap fun (l, cmd) => l.word :: cmd

/-- Every other operand is a command. -/
def place : ℕ → List (Link × List Word) → List (Link × Command)
  | _, [] => []
  | n, (l, cmd) :: rest => (l, ⟨n, cmd⟩) :: place (n + 2) rest

def Line.andOr (line : Line) : AndOr Command := group ⟨0, line.first⟩ (place 2 line.rest)

theorem pushOperands_words {cmd : List Word} (words : ∀ word ∈ cmd, isOperator word = false)
    (operands : List Operand) (before rest : List Word) :
    pushOperands operands before (cmd ++ rest) = pushOperands operands (before ++ cmd) rest := by
  induction cmd generalizing before with
  | nil => rw [List.nil_append, List.append_nil]
  | cons word cmd ih =>
    have here := words word (List.mem_cons_self ..)
    rw [List.cons_append, pushOperands, if_neg (by simp [here]),
      ih fun other member => words other (List.mem_cons_of_mem _ member), List.append_assoc]
    rfl

/-- What is pushed for the rest of a line, whose command so far is still to be pushed. -/
theorem pushOperands_rest {rest : List (Link × List Word)}
    (commands : ∀ cmd ∈ rest.map Prod.snd, cmd ≠ [] ∧ ∀ word ∈ cmd, isOperator word = false)
    (before : List Operand) {cmd : List Word} (nonempty : cmd ≠ []) :
    pushOperands before cmd (rest.flatMap fun (l, cmd) => l.word :: cmd) =
      before ++ .cmd ⟨before.length, cmd⟩ ::
        (place (before.length + 2) rest).flatMap fun (l, d) => [.op l.name, .cmd d] := by
  induction rest generalizing before cmd with
  | nil => simp [pushOperands, nonempty, pushCommand, place]
  | cons link rest ih =>
    obtain ⟨l, next⟩ := link
    obtain ⟨nextNonempty, words⟩ := commands next (by simp)
    have isOp : isOperator l.word = true := by
      rcases l with _ | _ | _ <;> simp [isOperator, Link.word, Connective.word]
    have name : operator l.word = some l.name := by
      rcases l with _ | _ | _ <;>
        simp [operator, Link.word, Connective.word, Link.name, Connective.name]
    rw [List.flatMap_cons, List.cons_append, pushOperands, if_pos isOp, name,
      pushOperands_words words, List.nil_append,
      ih (fun cmd member => commands cmd (List.mem_cons_of_mem _ member)) _ nextNonempty]
    simp [pushCommand, place]

theorem operands_words (line : Line) : operands line.words = line.andOr.operands := by
  obtain ⟨first, rest, commands⟩ := line
  obtain ⟨nonempty, words⟩ := commands first (by simp)
  rw [Line.andOr, operands_group, operands, Line.words, pushOperands_words words, List.nil_append,
    pushOperands_rest (fun cmd member => commands cmd (List.mem_cons_of_mem _ member)) [] nonempty]
  rfl

theorem place_distinct (n : ℕ) (rest : List (Link × List Word)) :
    ((place n rest).map Prod.snd).Nodup ∧ ∀ c ∈ (place n rest).map Prod.snd, n ≤ c.place := by
  induction rest generalizing n with
  | nil => simp [place]
  | cons link rest ih =>
    obtain ⟨distinct, above⟩ := ih (n + 2)
    refine ⟨List.nodup_cons.mpr ⟨fun member => ?_, distinct⟩, fun c member => ?_⟩
    · have : n + 2 ≤ n := above _ member
      omega
    · rcases List.mem_cons.mp member with rfl | later
      · exact Nat.le_refl n
      · have := above c later
        omega

/-- Of every line, `run` executes exactly the commands that the meaning prescribes, if and only if
every pipeline that is to be skipped is a single command. -/
theorem run_iff (line : Line) (exitStatus : Command → Status) (status : Status) :
    run exitStatus status (operands line.words) =
        line.andOr.meaning (fun c => (exitStatus c).success) ↔
      SkipsSingles (fun c => (exitStatus c).success) (exitStatus line.andOr.first.last).success
        line.andOr.rest := by
  have distinct : line.andOr.commands.Nodup := by
    obtain ⟨distinct, above⟩ := place_distinct 2 line.rest
    rw [Line.andOr, commands_group]
    refine List.nodup_cons.mpr ⟨fun member => ?_, distinct⟩
    have : 2 ≤ 0 := above _ member
    omega
  rw [operands_words, AndOr.operands, run_pipeline, AndOr.meaning, List.append_cancel_left_eq]
  exact run_rest_iff _ (List.nodup_append.mp distinct).2.1

/-- `false && echo a | echo b` -/
def skippedPipeline : Line where
  first := ["false".toList]
  rest := [(.connective .and, ["echo".toList, "a".toList]), (.pipe, ["echo".toList, "b".toList])]
  commands := by decide

/-- Only `false` fails. -/
def failsFirst (c : Command) : Status := .exited (if c.place = 0 then 1 else 0)

/-- The second `echo` is executed, although the pipeline is to be skipped. -/
theorem run_fails :
    run failsFirst (.exited 0) (operands skippedPipeline.words) =
        [⟨0, ["false".toList]⟩, ⟨4, ["echo".toList, "b".toList]⟩] ∧
      skippedPipeline.andOr.meaning (fun c => (failsFirst c).success) =
        [⟨0, ["false".toList]⟩] := by
  decide

end SphereMultithreading.Soundness.P4
