import SphereMultithreading.Proofs.P4.Construction
import SphereMultithreading.Proofs.P4.Parser

/-! # Accesses while a line is built

Nothing checks the tokens of a line before its commands are constructed. All accesses stay inside the
vectors, and every command that can run has an argument, when each command of the line has its
arguments and the files of its redirections, and the line does not end with `|`.
-/

namespace SphereMultithreading.Soundness.P4

open Model.P4
open Model.P4.Build hiding run

/-- Arguments and redirections, with at least one argument. -/
def Complete (cmd : List Word) : Prop :=
  ∃ parts : List Part, cmd = parts.flatMap Part.words ∧ parts.filterMap Part.argument? ≠ []

/-- A line that was built: whatever the commands end with, those that are executed have an argument,
and every `|` has a command on both sides. -/
structure Safe (b : Build) : Prop where
  arguments : ∀ exitStatus status, ∀ c ∈ run exitStatus status b.operands,
    (b.members c.place).args ≠ []
  pipes : ∀ before after, b.operands = before ++ .op .CONVEYOR :: after →
    (∃ c, before.getLast? = some (.cmd c)) ∧ ∃ c, after.head? = some (.cmd c)

/-- The commands between the operators are complete, the last one too unless it is empty, and the last
token is no `|`. -/
structure WellFormed (tokens : List Word) : Prop where
  complete : ∀ cmd ∈ (tokens.splitOnP isOperator).dropLast, Complete cmd
  last : ∀ cmd ∈ (tokens.splitOnP isOperator).getLast?, cmd ≠ [] → Complete cmd
  pipe : tokens.getLast? ≠ some ['|']

/-! ## The tokens and the vector -/

theorem splitOnP_eq_cut (tokens : List Word) :
    tokens.splitOnP isOperator = (cut tokens).1 :: (cut tokens).2.map Prod.snd := by
  induction tokens with
  | nil => rfl
  | cons word tokens ih =>
    rw [List.splitOnP_cons_eq_if_modifyHead, cut, ih]
    split <;> rfl

theorem forall_segments_iff {P : List Word → Prop} (cmd : List Word)
    (rest : List (OpType × List Word)) :
    (∀ segment ∈ segments cmd rest, P segment) ↔
      (∀ segment ∈ (cmd :: rest.map Prod.snd).dropLast, P segment) ∧
        ∀ segment ∈ (cmd :: rest.map Prod.snd).getLast?, segment ≠ [] → P segment := by
  induction rest generalizing cmd with
  | nil => cases cmd <;> simp [segments]
  | cons link rest ih =>
    rw [segments, List.forall_mem_cons, ih, List.map_cons, List.dropLast_cons_cons,
      List.forall_mem_cons, List.getLast?_cons_cons, and_assoc]

/-- What is constructed is complete exactly when the condition on the line says so. -/
theorem forall_complete_iff (tokens : List Word) :
    (∀ segment ∈ segments (cut tokens).1 (cut tokens).2, Complete segment) ↔
      (∀ cmd ∈ (tokens.splitOnP isOperator).dropLast, Complete cmd) ∧
        ∀ cmd ∈ (tokens.splitOnP isOperator).getLast?, cmd ≠ [] → Complete cmd := by
  rw [splitOnP_eq_cut]
  exact forall_segments_iff ..

/-- Of the operators only `|` is a pipe. -/
theorem operator_eq_conveyor_iff {word : Word} :
    (operator word).getD .SEPARATOR = .CONVEYOR ↔ word = ['|'] := by
  unfold operator
  split_ifs <;> simp_all

theorem pipesJoin_iff (tokens : List Word) :
    PipesJoin (cut tokens).2 ↔ tokens.getLast? ≠ some ['|'] := by
  induction tokens with
  | nil => exact iff_of_true trivial (by simp)
  | cons word tokens ih =>
    rw [cut]
    cases tokens with
    | nil =>
      split
      · simp [PipesJoin, cut, operator_eq_conveyor_iff]
      · next plain =>
        refine iff_of_true trivial ?_
        rintro ⟨⟩
        exact plain (by decide)
    | cons next tokens =>
      have more := cut_ne_nil (List.cons_ne_nil next tokens)
      rw [List.getLast?_cons_cons, ← ih]
      split
      · exact ⟨And.right, fun joined => ⟨fun _ => more, joined⟩⟩
      · rfl

/-- The commands of the vector. -/
theorem map_vector (n : ℕ) (cmd : List Word) (rest : List (OpType × List Word)) :
    ((vector n cmd rest).filterMap Operand.command?).map Command.cmd = segments cmd rest := by
  induction rest generalizing n cmd with
  | nil =>
    rw [vector, segments]
    split <;> rfl
  | cons link rest ih => exact congrArg (cmd :: ·) (ih (n + 2) link.2)

theorem sides_of_pipe {n : ℕ} {cmd : List Word} {rest : List (OpType × List Word)}
    (joined : PipesJoin rest) {before after : List Operand}
    (place : vector n cmd rest = before ++ .op .CONVEYOR :: after) :
    (∃ c, before.getLast? = some (.cmd c)) ∧ ∃ c, after.head? = some (.cmd c) := by
  induction rest generalizing n cmd before with
  | nil =>
    rw [vector] at place
    split at place <;> simp [List.cons_eq_append_iff] at place
  | cons link rest ih =>
    obtain ⟨name, next⟩ := link
    rw [vector] at place
    rcases before with _ | ⟨operand, _ | ⟨operand', before⟩⟩
    · cases place
    · obtain ⟨rfl, others⟩ := List.cons_eq_cons.mp place
      rw [List.append_eq, List.nil_append] at others
      obtain ⟨pipe, rfl⟩ := List.cons_eq_cons.mp others
      have more := joined.1 (Operand.op.inj pipe)
      exact ⟨⟨_, rfl⟩, ⟨_, head?_vector more⟩⟩
    · obtain ⟨-, others⟩ := List.cons_eq_cons.mp place
      obtain ⟨-, later⟩ := List.cons_eq_cons.mp others
      obtain ⟨⟨c, last⟩, first⟩ := ih joined.2 later
      have nonempty : before ≠ [] := by
        rintro rfl
        cases last
      refine ⟨⟨c, ?_⟩, first⟩
      obtain ⟨operand, before, rfl⟩ := List.exists_cons_of_ne_nil nonempty
      rwa [List.getLast?_cons_cons, List.getLast?_cons_cons]

/-! ## Executing every command -/

/-- Every command ends in a way that the operator behind it lets the next one run. -/
def loud (operands : List Operand) (c : Command) : Status :=
  .exited (if operands[c.place + 1]? = some (.op .LOGICAL_OR) then 1 else 0)

theorem runLoop_loud {operands : List Operand} {n : ℕ} {cmd : List Word}
    {rest : List (OpType × List Word)} (place : operands.drop n = vector n cmd rest)
    (status : Status) : runLoop (loud operands) .outer status (vector n cmd rest) =
      (vector n cmd rest).filterMap Operand.command? := by
  induction rest generalizing n cmd status with
  | nil =>
    rw [vector]
    split <;> rfl
  | cons link rest ih =>
    obtain ⟨name, next⟩ := link
    have behind : operands[n + 1]? = some (.op name) := by
      rw [← List.getElem?_drop, place]
      rfl
    have later : operands.drop (n + 2) = vector (n + 2) next rest := by
      rw [← List.drop_drop, place]
      rfl
    have goes : shortCircuits name (loud operands ⟨n, cmd⟩) = false := by
      rw [loud, behind]
      cases name <;> decide
    rw [vector, runLoop, runLoop, goes]
    exact congrArg (⟨n, cmd⟩ :: ·) (ih later _)

/-! ## The lines that are safe -/

/-- The arguments do not depend on how the words are taken apart. -/
theorem arguments_eq {parts parts' : List Part}
    (same : parts.flatMap Part.words = parts'.flatMap Part.words) :
    parts.filterMap Part.argument? = parts'.filterMap Part.argument? := by
  have made := construct_words parts ⟨[], none, none⟩ ⟨∅, []⟩
  rw [same, construct_words] at made
  have args := congrArg (fun s => s.1.args) (Option.some.inj made)
  rw [args_construct, args_construct] at args
  exact args.symm

/-- What a build has made of a line. -/
theorem build_spec {tokens : List Word} {fds : Descriptors} {b : Build}
    (built : build tokens fds = some b) :
    b.operands = vector 0 (cut tokens).1 (cut tokens).2 ∧ PipesJoin (cut tokens).2 ∧
      ∀ c ∈ b.operands.filterMap Operand.command?, ∃ parts : List Part,
        c.cmd = parts.flatMap Part.words ∧
        (b.members c.place).args = parts.filterMap Part.argument? := by
  obtain ⟨b₀, pushed, set⟩ := build_eq_some built
  obtain ⟨operands, -, commands⟩ := pushSegments_spec pushed
  rw [List.nil_append] at operands
  obtain ⟨same, args⟩ := setPipes_spec set
  rw [same, operands]
  refine ⟨rfl, ?_, fun c member => ?_⟩
  · rw [← isSome_setPipes b₀ none 0 (cut tokens).1]
    exact Option.isSome_of_eq_some (operands ▸ set)
  · obtain ⟨parts, words, own⟩ := commands c member
    exact ⟨parts, words, (args c.place).trans own⟩

/-- A safe line is well formed. -/
theorem Safe.wellFormed {tokens : List Word} {fds : Descriptors} {b : Build}
    (built : build tokens fds = some b) (safe : Safe b) : WellFormed tokens := by
  obtain ⟨operands, joined, commands⟩ := build_spec built
  have all : ∀ segment ∈ segments (cut tokens).1 (cut tokens).2, Complete segment := by
    intro segment member
    rw [← map_vector 0, ← operands] at member
    obtain ⟨c, listed, rfl⟩ := List.mem_map.mp member
    obtain ⟨parts, words, args⟩ := commands c listed
    refine ⟨parts, words, args ▸ safe.arguments (loud b.operands) (.exited 0) c ?_⟩
    have whole : b.operands.drop 0 = vector 0 (cut tokens).1 (cut tokens).2 := operands
    have executed := runLoop_loud whole (.exited 0)
    rw [← operands] at executed
    rwa [run, executed]
  obtain ⟨complete, last⟩ := (forall_complete_iff tokens).mp all
  exact ⟨complete, last, (pipesJoin_iff tokens).mp joined⟩

/-- A well-formed line that is not empty is built, and is safe. -/
theorem WellFormed.safe {tokens : List Word} (well : WellFormed tokens) (nonempty : tokens ≠ [])
    (fds : Descriptors) : ∃ b, build tokens fds = some b ∧ Safe b := by
  have all := (forall_complete_iff tokens).mpr ⟨well.complete, well.last⟩
  have joined := (pipesJoin_iff tokens).mpr well.pipe
  obtain ⟨b, built⟩ := exists_build (fun segment member => (all segment member).imp fun _ => And.left)
    joined nonempty fds
  refine ⟨b, built, ?_, ?_⟩
  · intro exitStatus status c executed
    obtain ⟨vector, -, commands⟩ := build_spec built
    have member := (runLoop_sublist exitStatus .outer status b.operands).subset executed
    obtain ⟨parts, words, args⟩ := commands c member
    have listed : c.cmd ∈ segments (cut tokens).1 (cut tokens).2 := by
      rw [← map_vector 0, ← vector]
      exact List.mem_map_of_mem member
    obtain ⟨parts', words', some⟩ := all _ listed
    rwa [args, arguments_eq (words.symm.trans words')]
  · intro before after place
    rw [(build_spec built).1] at place
    exact sides_of_pipe joined place

/-- An empty line is passed over. Any other line is built, without an access outside, into a vector
that can be run with whatever exit statuses, exactly when it is well formed. -/
theorem safe_iff (parser : Parser) (line : List Char) (fds : Descriptors) :
    ((parser.parse line).operands = [] ∨
        ∃ b, build (parser.parse line).operands fds = some b ∧ Safe b) ↔
      WellFormed (parser.parse line).operands := by
  constructor
  · rintro (empty | ⟨b, built, safe⟩)
    · rw [empty]
      exact ⟨by simp, by simp, by simp⟩
    · exact safe.wellFormed built
  · intro well
    by_cases empty : (parser.parse line).operands = []
    · exact .inl empty
    · exact .inr (well.safe empty fds)

/-- The file behind `>` is looked for behind the last word. -/
theorem safe_fails : ¬ ∀ (parser : Parser) (line : List Char) (fds : Descriptors),
    (parser.parse line).operands = [] ∨
      ∃ b, build (parser.parse line).operands fds = some b ∧ Safe b := by
  intro all
  have tokens : (Parser.parse ⟨[]⟩ ['a', '>']).operands = [['a'], ['>']] := by decide
  rcases all ⟨[]⟩ ['a', '>'] ⟨∅, []⟩ with empty | ⟨b, built, -⟩
  · rw [tokens] at empty
    cases empty
  · rw [tokens] at built
    cases built

end SphereMultithreading.Soundness.P4
