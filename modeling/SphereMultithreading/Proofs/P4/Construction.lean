import SphereMultithreading.Model.P4.Construction
import SphereMultithreading.Proofs.P4.Loop

/-! # How a line is built

A line is cut at its operators. The commands in between are constructed from left to right, at every
other place of the vector, and each of them is a sequence of arguments and redirections.
-/

namespace SphereMultithreading.Model.P4

open Machine

/-! ## Redirections -/

inductive Side where
  | input
  | output
deriving DecidableEq, Repr

def Members.fd (m : Members) : Side → Option ℕ
  | .input => m.fdInput
  | .output => m.fdOutput

/-- An argument of a command, or a redirection with its file. -/
inductive Part where
  | argument (word : Word) (plain : word ≠ ['<'] ∧ word ≠ ['>'])
  | redirection (side : Side) (file : Word)

namespace Part

def words : Part → List Word
  | argument word _ => [word]
  | redirection .input file => [['<'], file]
  | redirection .output file => [['>'], file]

def argument? : Part → Option Word
  | argument word _ => some word
  | redirection .. => none

def side? : Part → Option Side
  | argument .. => none
  | redirection side _ => some side

/-- What the constructor does with a part. -/
def construct (s : Members × Descriptors) : Part → Members × Descriptors
  | argument word _ => ({ s.1 with args := s.1.args ++ [word] }, s.2)
  | redirection .input _ => (s.1.setFdInput s.2.create.1, s.2.create.2)
  | redirection .output _ => (s.1.setFdOutput s.2.create.1, s.2.create.2)

end Part

/-- The constructor takes its words part by part. -/
theorem construct_words (parts : List Part) (m : Members) (d : Descriptors) :
    m.construct d (parts.flatMap Part.words) = some (parts.foldl Part.construct (m, d)) := by
  induction parts generalizing m d with
  | nil => rfl
  | cons part parts ih =>
    rw [List.flatMap_cons, List.foldl_cons]
    cases part with
    | argument word plain =>
      rw [Part.words, List.singleton_append, Members.construct.eq_def]
      dsimp only
      rw [if_neg plain.1, if_neg plain.2]
      exact ih ..
    | redirection side file =>
      cases side with
      | input => exact ih ..
      | output => exact ih ..

/-- It comes to an end on no other words. -/
theorem exists_parts {m : Members} {d : Descriptors} {cmd : List Word}
    (made : (m.construct d cmd).isSome) : ∃ parts : List Part, cmd = parts.flatMap Part.words := by
  fun_induction Members.construct m d cmd with
  | case1 => exact ⟨[], rfl⟩
  | case2 => cases made
  | case3 m d file rest ih =>
    obtain ⟨parts, rfl⟩ := ih made
    exact ⟨.redirection .input file :: parts, rfl⟩
  | case4 => cases made
  | case5 m d file rest _ ih =>
    obtain ⟨parts, rfl⟩ := ih made
    exact ⟨.redirection .output file :: parts, rfl⟩
  | case6 m d word rest input output ih =>
    obtain ⟨parts, rfl⟩ := ih made
    exact ⟨.argument word ⟨input, output⟩ :: parts, rfl⟩

theorem args_construct (parts : List Part) (s : Members × Descriptors) :
    (parts.foldl Part.construct s).1.args = s.1.args ++ parts.filterMap Part.argument? := by
  induction parts generalizing s with
  | nil => exact (List.append_nil _).symm
  | cons part parts ih =>
    rw [List.foldl_cons, ih]
    cases part with
    | argument word plain =>
      exact List.append_assoc s.1.args [word] _
    | redirection side file => cases side <;> rfl

/-! ## The operators of a line -/

/-- What stands before the first operator, and each operator with what stands behind it. -/
def cut : List Word → List Word × List (OpType × List Word)
  | [] => ([], [])
  | word :: rest =>
      if isOperator word then
        ([], ((operator word).getD .SEPARATOR, (cut rest).1) :: (cut rest).2)
      else (word :: (cut rest).1, (cut rest).2)

/-- The operands for a command at a place, and for what is behind it. -/
def vector (n : ℕ) : List Word → List (OpType × List Word) → List Operand
  | cmd, [] => if cmd ≠ [] then [.cmd ⟨n, cmd⟩] else []
  | cmd, (name, next) :: rest => .cmd ⟨n, cmd⟩ :: .op name :: vector (n + 2) next rest

theorem operator_of_isOperator {word : Word} (isOp : isOperator word = true) :
    operator word = some ((operator word).getD .SEPARATOR) := by
  simp only [isOperator, List.mem_cons, List.not_mem_nil, or_false, decide_eq_true_eq] at isOp
  rcases isOp with rfl | rfl | rfl | rfl <;> rfl

theorem cut_ne_nil {words : List Word} (nonempty : words ≠ []) :
    (cut words).1 ≠ [] ∨ (cut words).2 ≠ [] := by
  obtain ⟨word, words, rfl⟩ := List.exists_cons_of_ne_nil nonempty
  rw [cut]
  split
  · exact .inr (List.cons_ne_nil _ _)
  · exact .inl (List.cons_ne_nil _ _)

namespace Build

/-- The commands are constructed in their order. -/
def pushSegments (b : Build) (cmd : List Word) : List (OpType × List Word) → Option Build
  | [] => if cmd ≠ [] then b.pushCommand cmd else some b
  | (name, next) :: rest =>
      (b.pushCommand cmd).bind fun b =>
        { b with operands := b.operands ++ [Operand.op name] }.pushSegments next rest

theorem pushOperands_cut (b : Build) (cmd words : List Word) :
    b.pushOperands cmd words = b.pushSegments (cmd ++ (cut words).1) (cut words).2 := by
  induction words generalizing b cmd with
  | nil => rw [pushOperands, cut, List.append_nil, pushSegments]
  | cons word words ih =>
    rw [pushOperands, cut]
    split
    · next isOp =>
      rw [List.append_nil, pushSegments]
      cases b.pushCommand cmd with
      | none => rfl
      | some b =>
        refine (ih ..).trans ?_
        rw [pushOperator, operator_of_isOperator isOp]
        rfl
    · rw [ih, List.append_assoc]
      rfl

/-! ## What is constructed -/

theorem pushCommand_words (b : Build) (parts : List Part) :
    b.pushCommand (parts.flatMap Part.words) = some
      { operands := Model.P4.pushCommand b.operands (parts.flatMap Part.words)
        members := Function.update b.members b.operands.length
          (parts.foldl Part.construct (⟨[], none, none⟩, b.fds)).1
        fds := (parts.foldl Part.construct (⟨[], none, none⟩, b.fds)).2 } := by
  rw [pushCommand, construct_words]

theorem exists_parts_of_pushCommand {b b' : Build} {cmd : List Word}
    (pushed : b.pushCommand cmd = some b') : ∃ parts : List Part, cmd = parts.flatMap Part.words := by
  rw [pushCommand] at pushed
  cases made : Members.construct ⟨[], none, none⟩ b.fds cmd with
  | none => rw [made] at pushed; cases pushed
  | some => exact exists_parts (Option.isSome_of_eq_some made)

/-- A command that was pushed, with the members at its place and at the others. -/
structure Pushed (b : Build) (cmd : List Word) (b' : Build) (parts : List Part) : Prop where
  words : cmd = parts.flatMap Part.words
  operands : b'.operands = b.operands ++ [.cmd ⟨b.operands.length, cmd⟩]
  args : (b'.members b.operands.length).args = parts.filterMap Part.argument?
  others : ∀ place ≠ b.operands.length, b'.members place = b.members place

theorem exists_pushed {b b' : Build} {cmd : List Word} (pushed : b.pushCommand cmd = some b') :
    ∃ parts, Pushed b cmd b' parts := by
  obtain ⟨parts, rfl⟩ := exists_parts_of_pushCommand pushed
  rw [pushCommand_words] at pushed
  obtain rfl := Option.some.inj pushed
  refine ⟨parts, rfl, rfl, ?_, fun place other => Function.update_of_ne other ..⟩
  dsimp only
  rw [Function.update_self, args_construct]
  rfl

/-- The words of the commands that are constructed. -/
def segments : List Word → List (OpType × List Word) → List (List Word)
  | cmd, [] => if cmd ≠ [] then [cmd] else []
  | cmd, (_, next) :: rest => cmd :: segments next rest

theorem isSome_pushCommand {b : Build} {cmd : List Word} :
    (b.pushCommand cmd).isSome ↔ ∃ parts : List Part, cmd = parts.flatMap Part.words := by
  constructor
  · intro pushed
    obtain ⟨b', pushed⟩ := Option.isSome_iff_exists.mp pushed
    exact exists_parts_of_pushCommand pushed
  · rintro ⟨parts, rfl⟩
    rw [pushCommand_words]
    rfl

/-- The line is built exactly when all its commands are made of parts. -/
theorem isSome_pushSegments (b : Build) (cmd : List Word) (rest : List (OpType × List Word)) :
    (b.pushSegments cmd rest).isSome ↔
      ∀ segment ∈ segments cmd rest, ∃ parts : List Part, segment = parts.flatMap Part.words := by
  induction rest generalizing b cmd with
  | nil =>
    rw [pushSegments, segments]
    split
    · rw [isSome_pushCommand, List.forall_mem_singleton]
    · simp
  | cons link rest ih =>
    rw [pushSegments, segments, List.forall_mem_cons, ← isSome_pushCommand (b := b)]
    cases b.pushCommand cmd with
    | none => simp
    | some b' => exact (ih ..).trans (iff_and_self.mpr fun _ => rfl)

/-- The vector of a line, and the arguments of each command. -/
theorem pushSegments_spec {b b' : Build} {cmd : List Word} {rest : List (OpType × List Word)}
    (pushed : b.pushSegments cmd rest = some b') :
    b'.operands = b.operands ++ vector b.operands.length cmd rest ∧
      (∀ place < b.operands.length, b'.members place = b.members place) ∧
      ∀ c ∈ (vector b.operands.length cmd rest).filterMap Operand.command?, ∃ parts : List Part,
        c.cmd = parts.flatMap Part.words ∧
        (b'.members c.place).args = parts.filterMap Part.argument? := by
  induction rest generalizing b cmd with
  | nil =>
    rw [pushSegments] at pushed
    rw [vector]
    split at pushed
    · next nonempty =>
      obtain ⟨parts, pushed⟩ := exists_pushed pushed
      rw [if_pos nonempty]
      refine ⟨pushed.operands, fun place below => pushed.others place below.ne, fun c member => ?_⟩
      obtain rfl := List.mem_singleton.mp member
      exact ⟨parts, pushed.words, pushed.args⟩
    · next empty =>
      cases pushed
      rw [if_neg empty]
      exact ⟨(List.append_nil _).symm, fun _ _ => rfl, fun _ absent => absurd absent List.not_mem_nil⟩
  | cons link rest ih =>
    obtain ⟨name, next⟩ := link
    rw [pushSegments] at pushed
    obtain ⟨b₁, first, others⟩ := Option.bind_eq_some_iff.mp pushed
    obtain ⟨parts, first⟩ := exists_pushed first
    obtain ⟨operands, earlier, commands⟩ := ih others
    have length : (b₁.operands ++ [Operand.op name]).length = b.operands.length + 2 := by
      rw [first.operands]
      simp
    dsimp only at operands earlier commands
    rw [length] at operands earlier commands
    rw [vector]
    refine ⟨?_, fun place below => ?_, fun c member => ?_⟩
    · rw [operands, first.operands]
      simp
    · rw [earlier place (by omega), first.others place below.ne]
    · rcases List.mem_cons.mp member with rfl | later
      · refine ⟨parts, first.words, ?_⟩
        rw [earlier _ (by simp), first.args]
      · exact commands c later

/-! ## The pipes -/

/-- Behind every `|` there is a command. -/
def PipesJoin : List (OpType × List Word) → Prop
  | [] => True
  | (name, next) :: rest => (name = .CONVEYOR → next ≠ [] ∨ rest ≠ []) ∧ PipesJoin rest

/-- A vector begins with a command unless it is empty. -/
theorem head?_vector {n : ℕ} {cmd : List Word} {rest : List (OpType × List Word)}
    (more : cmd ≠ [] ∨ rest ≠ []) : (vector n cmd rest).head? = some (.cmd ⟨n, cmd⟩) := by
  cases rest with
  | nil =>
    rw [vector, if_pos (more.resolve_right (not_not_intro rfl))]
    rfl
  | cons link rest => rfl

theorem vector_eq_nil {n : ℕ} {cmd : List Word} {rest : List (OpType × List Word)}
    (none : ¬ (cmd ≠ [] ∨ rest ≠ [])) : vector n cmd rest = [] := by
  push Not at none
  rw [none.1, none.2]
  rfl

section Pipes

variable (b : Build) {previous : Option Operand} {operand : Operand} {rest : List Operand}
  {before behind : Command}

theorem setPipes_pipe (next : rest.head? = some (.cmd behind)) :
    b.setPipes (some (.cmd before)) (.op .CONVEYOR :: rest) =
      (b.setPipe before behind).setPipes (some (.op .CONVEYOR)) rest := by
  rw [setPipes.eq_def]
  dsimp only
  rw [next]

theorem setPipes_last : b.setPipes previous [.op .CONVEYOR] = none := by
  rw [setPipes.eq_def]
  rcases previous with _ | _ | _ <;> rfl

theorem setPipes_other (other : operand ≠ .op .CONVEYOR) :
    b.setPipes previous (operand :: rest) = b.setPipes (some operand) rest := by
  rw [setPipes]
  exact other

theorem args_setPipe (place : ℕ) :
    ((b.setPipe before behind).members place).args = (b.members place).args := by
  simp only [setPipe, Function.update_apply, Members.setFdInput, Members.setFdOutput]
  split_ifs <;> simp_all

end Pipes

theorem isSome_setPipes (b : Build) (previous : Option Operand) (n : ℕ) (cmd : List Word)
    (rest : List (OpType × List Word)) :
    (b.setPipes previous (vector n cmd rest)).isSome ↔ PipesJoin rest := by
  induction rest generalizing b previous n cmd with
  | nil =>
    rw [vector, PipesJoin]
    split <;> simp [setPipes]
  | cons link rest ih =>
    obtain ⟨name, next⟩ := link
    rw [vector, PipesJoin, setPipes_other b (by simp)]
    by_cases pipe : name = .CONVEYOR
    · subst pipe
      by_cases more : next ≠ [] ∨ rest ≠ []
      · rw [setPipes_pipe b (head?_vector more)]
        exact (ih ..).trans ⟨fun joined => ⟨fun _ => more, joined⟩, And.right⟩
      · rw [vector_eq_nil more, setPipes_last]
        exact iff_of_false Bool.false_ne_true fun joined => more (joined.1 rfl)
    · rw [setPipes_other b (by simpa using pipe)]
      exact (ih ..).trans ⟨fun joined => ⟨fun same => absurd same pipe, joined⟩, And.right⟩

theorem setPipes_spec {b b' : Build} {previous : Option Operand} {operands : List Operand}
    (set : b.setPipes previous operands = some b') :
    b'.operands = b.operands ∧ ∀ place, (b'.members place).args = (b.members place).args := by
  fun_induction setPipes b previous operands with
  | case1 => cases set; exact ⟨rfl, fun _ => rfl⟩
  | case2 b rest before behind _ ih =>
    obtain ⟨operands, args⟩ := ih set
    exact ⟨operands, fun place => (args place).trans (args_setPipe b place)⟩
  | case3 => cases set
  | case4 b previous operand rest _ ih => exact ih set

end Build

/-! ## A build as a whole -/

/-- The steps of a build that has a result. -/
theorem build_eq_some {tokens : List Word} {fds : Descriptors} {b : Build}
    (built : build tokens fds = some b) : ∃ b₀,
      Build.pushSegments ⟨[], fun _ => ⟨[], none, none⟩, fds⟩ (cut tokens).1 (cut tokens).2 = some b₀ ∧
      b₀.setPipes none b₀.operands = some b := by
  rw [build, Build.pushOperands_cut, List.nil_append] at built
  split at built
  · cases built
  · next b₀ pushed =>
    split at built
    · cases built
    · next b₁ set =>
      split at built
      · cases built
        exact ⟨b₀, pushed, set⟩
      · cases built

/-- A line is built when its commands are made of parts and its pipes join commands. -/
theorem exists_build {words : List Word}
    (made : ∀ segment ∈ Build.segments (cut words).1 (cut words).2, ∃ parts : List Part,
      segment = parts.flatMap Part.words)
    (joined : Build.PipesJoin (cut words).2) (nonempty : words ≠ []) (fds : Descriptors) :
    ∃ b, build words fds = some b := by
  obtain ⟨b₀, pushed⟩ := Option.isSome_iff_exists.mp
    ((Build.isSome_pushSegments ⟨[], fun _ => ⟨[], none, none⟩, fds⟩ _ _).mpr made)
  have operands := (Build.pushSegments_spec pushed).1
  rw [List.nil_append] at operands
  obtain ⟨b, set⟩ := Option.isSome_iff_exists.mp
    ((Build.isSome_setPipes b₀ none 0 (cut words).1 (cut words).2).mpr joined)
  have back : b.operands.getLast?.isSome := by
    rw [(Build.setPipes_spec set).1, operands, List.getLast?_isSome]
    intro empty
    have first := Build.head?_vector (n := 0) (cut_ne_nil nonempty)
    rw [show vector 0 _ _ = [] from empty] at first
    cases first
  refine ⟨b, ?_⟩
  rw [build, Build.pushOperands_cut, List.nil_append, pushed]
  dsimp only
  rw [operands]
  simp only [List.length_nil, set, back, if_true]

end SphereMultithreading.Model.P4
