import SphereMultithreading.Proofs.P4.Construction

/-! # The descriptors of a line

The members of the commands hold descriptors under the place of a command and the side of it. A build
opens one for each redirection, command by command, and then two for each pipe. A command that is
executed closes those of its two sides.
-/

namespace SphereMultithreading.Model.P4

open Machine Machine.Holders

/-- The redirections among the parts of a command. -/
def sides (parts : List Part) : List Side := parts.filterMap Part.side?

/-- What the redirections of a line open, from the command at place `n` on. -/
def openings (n : ℕ) : List Part → List (OpType × List Part) → List (ℕ × Side)
  | parts, [] => (sides parts).map (n, ·)
  | parts, (_, next) :: rest => (sides parts).map (n, ·) ++ openings (n + 2) next rest

/-- What the pipes open. -/
def pipes {α : Type} (n : ℕ) : List (OpType × α) → List (ℕ × Side)
  | [] => []
  | (name, _) :: rest =>
      (if name = .CONVEYOR then [(n + 2, .input), (n, .output)] else []) ++ pipes (n + 2) rest

/-- Both sides of a command. -/
def ends (c : Command) : List (ℕ × Side) := [(c.place, .input), (c.place, .output)]

/-- The words of the rest of a line. -/
def wordsOf (rest : List (OpType × List Part)) : List (OpType × List Word) :=
  rest.map fun link => (link.1, link.2.flatMap Part.words)

def noMembers : Members := ⟨[], none, none⟩

/-- The open descriptors, and those that members hold. -/
def holders (members : ℕ → Members) (d : Descriptors) : Holders (ℕ × Side) where
  table := d.table
  held key := (members key.1).fd key.2

theorem fd_setFdInput (m : Members) (fd : ℕ) {side : Side} (other : side ≠ .input) :
    (m.setFdInput fd).fd side = m.fd side := by
  cases side with
  | input => exact absurd rfl other
  | output => rfl

theorem fd_setFdOutput (m : Members) (fd : ℕ) {side : Side} (other : side ≠ .output) :
    (m.setFdOutput fd).fd side = m.fd side := by
  cases side with
  | input => rfl
  | output => exact absurd rfl other

/-- A new descriptor is held where it is set. -/
theorem holders_set (members : ℕ → Members) (d : Descriptors) (place : ℕ) (side : Side) {m : Members}
    (own : m.fd side = some d.create.1)
    (other : ∀ side' ≠ side, m.fd side' = (members place).fd side') :
    holders (Function.update members place m) d.create.2 =
      (holders members d).acquire (place, side) := by
  refine Holders.ext rfl (funext fun key => ?_)
  obtain ⟨place', side'⟩ := key
  rw [held_acquire]
  simp only [holders, Function.update_apply, Prod.mk.injEq]
  by_cases here : place' = place
  · subst here
    by_cases same : side' = side
    · subst same
      rw [if_pos rfl, if_pos ⟨rfl, rfl⟩, own]
      rfl
    · rw [if_pos rfl, if_neg (by simpa using same), other side' same]
  · rw [if_neg here, if_neg (by simp [here])]

/-- The constructor opens what the redirections name. -/
theorem holders_construct (parts : List Part) (members : ℕ → Members) (place : ℕ)
    (s : Members × Descriptors) :
    holders (Function.update members place (parts.foldl Part.construct s).1)
        (parts.foldl Part.construct s).2 =
      (holders (Function.update members place s.1) s.2).acquireAll
        ((sides parts).map (place, ·)) := by
  induction parts generalizing s with
  | nil => rfl
  | cons part parts ih =>
    rw [List.foldl_cons, ih]
    have step (side : Side) {m : Members} (own : m.fd side = some s.2.create.1)
        (other : ∀ side' ≠ side, m.fd side' = s.1.fd side') :
        holders (Function.update members place m) s.2.create.2 =
          (holders (Function.update members place s.1) s.2).acquire (place, side) := by
      rw [← holders_set _ s.2 place side own, Function.update_idem]
      intro side' differ
      rw [Function.update_self, other side' differ]
    cases part with
    | argument word plain =>
      refine congrArg (acquireAll · _) (Holders.ext rfl (funext fun key => ?_))
      obtain ⟨place', side⟩ := key
      simp only [holders, Part.construct, Function.update_apply]
      split_ifs
      · cases side <;> rfl
      · rfl
    | redirection side file =>
      cases side with
      | input =>
        exact congrArg (acquireAll · _) (step .input rfl fun _ => fd_setFdInput s.1 _)
      | output =>
        exact congrArg (acquireAll · _) (step .output rfl fun _ => fd_setFdOutput s.1 _)

theorem closed_construct (parts : List Part) (s : Members × Descriptors) :
    (parts.foldl Part.construct s).2.closed = s.2.closed := by
  induction parts generalizing s with
  | nil => rfl
  | cons part parts ih =>
    rw [List.foldl_cons, ih]
    rcases part with _ | ⟨_ | _, _⟩ <;> rfl

theorem acquireAll_append {κ : Type} [DecidableEq κ] (s : Holders κ) (keys keys' : List κ) :
    s.acquireAll (keys ++ keys') = (s.acquireAll keys).acquireAll keys' :=
  List.foldl_append

namespace Build

/-- What is behind the vector holds nothing. -/
def Unused (b : Build) : Prop := ∀ place, b.operands.length ≤ place → b.members place = noMembers

/-- A command that was pushed holds what its redirections open. -/
theorem holders_pushCommand {b b' : Build} (unused : b.Unused) {parts : List Part}
    (pushed : b.pushCommand (parts.flatMap Part.words) = some b') :
    holders b'.members b'.fds = (holders b.members b.fds).acquireAll
        ((sides parts).map (b.operands.length, ·)) ∧
      b'.fds.closed = b.fds.closed ∧ b'.Unused ∧
      b'.operands.length = b.operands.length + 1 := by
  rw [pushCommand_words] at pushed
  obtain rfl := Option.some.inj pushed
  have same : Function.update b.members b.operands.length ⟨[], none, none⟩ = b.members := by
    rw [Function.update_eq_self_iff]
    exact (unused _ le_rfl).symm
  have length : (Model.P4.pushCommand b.operands (parts.flatMap Part.words)).length =
      b.operands.length + 1 := List.length_append
  refine ⟨?_, closed_construct parts _, fun place behind => ?_, length⟩
  · rw [holders_construct, same]
  · rw [length] at behind
    dsimp only
    rw [Function.update_of_ne (by omega)]
    exact unused place (by omega)

theorem holders_pushSegments {b b' : Build} (unused : b.Unused) {parts : List Part}
    {rest : List (OpType × List Part)}
    (pushed : b.pushSegments (parts.flatMap Part.words) (wordsOf rest) = some b') :
    holders b'.members b'.fds = (holders b.members b.fds).acquireAll
        (openings b.operands.length parts rest) ∧
      b'.fds.closed = b.fds.closed := by
  induction rest generalizing b parts with
  | nil =>
    rw [wordsOf, List.map_nil, pushSegments] at pushed
    split at pushed
    · obtain ⟨holds, closed, -⟩ := holders_pushCommand unused pushed
      exact ⟨holds, closed⟩
    · next empty =>
      obtain rfl := Option.some.inj pushed
      push Not at empty
      have none : sides parts = [] := by
        cases parts with
        | nil => rfl
        | cons part parts => rcases part with _ | ⟨_ | _, _⟩ <;> cases empty
      rw [openings, none]
      exact ⟨rfl, rfl⟩
  | cons link rest ih =>
    obtain ⟨name, next⟩ := link
    rw [wordsOf, List.map_cons, pushSegments] at pushed
    obtain ⟨b₁, first, others⟩ := Option.bind_eq_some_iff.mp pushed
    obtain ⟨holds, closed, unused', length⟩ := holders_pushCommand unused first
    have length' : (b₁.operands ++ [Operand.op name]).length = b.operands.length + 2 := by
      rw [List.length_append, length]
      rfl
    obtain ⟨holds', closed'⟩ := ih (b := { b₁ with operands := b₁.operands ++ [Operand.op name] })
      (fun place behind => unused' place (by dsimp only at behind; omega)) others
    dsimp only at holds' closed'
    rw [length', holds, ← acquireAll_append] at holds'
    exact ⟨holds', closed'.trans closed⟩

theorem holders_setPipe (b : Build) (before behind : Command) :
    holders (b.setPipe before behind).members (b.setPipe before behind).fds =
      (holders b.members b.fds).acquireAll [(behind.place, .input), (before.place, .output)] :=
  (holders_set _ b.fds.create.2 before.place .output rfl fun _ => fd_setFdOutput _ _).trans
    (congrArg (acquire · _)
      (holders_set b.members b.fds behind.place .input rfl fun _ => fd_setFdInput _ _))

/-- The pipes are opened from left to right. -/
theorem holders_setPipes {b b' : Build} {previous : Option Operand} {n : ℕ} {cmd : List Word}
    {rest : List (OpType × List Word)}
    (set : b.setPipes previous (vector n cmd rest) = some b') :
    holders b'.members b'.fds = (holders b.members b.fds).acquireAll (pipes n rest) ∧
      b'.fds.closed = b.fds.closed := by
  induction rest generalizing b previous n cmd with
  | nil =>
    have same : b = b' := by
      rw [vector] at set
      split at set <;> exact Option.some.inj set
    rw [same]
    exact ⟨rfl, rfl⟩
  | cons link rest ih =>
    obtain ⟨name, next⟩ := link
    rw [vector, setPipes_other b (by simp)] at set
    rw [pipes]
    by_cases pipe : name = .CONVEYOR
    · subst pipe
      by_cases more : next ≠ [] ∨ rest ≠ []
      · rw [setPipes_pipe b (head?_vector more)] at set
        obtain ⟨holds, closed⟩ := ih set
        rw [holders_setPipe, ← acquireAll_append] at holds
        exact ⟨holds, closed⟩
      · rw [vector_eq_nil more, setPipes_last] at set
        cases set
    · rw [setPipes_other b (by simpa using pipe)] at set
      rw [if_neg pipe]
      exact ih set

/-! ## Closing -/

theorem foldl_close (fds : List ℕ) (d : Descriptors) :
    fds.foldl Descriptors.close d = ⟨d.table \ fds.toFinset, d.closed ++ fds⟩ := by
  induction fds generalizing d with
  | nil => simp
  | cons fd fds ih =>
    rw [List.foldl_cons, ih, Descriptors.close, List.toFinset_cons, List.append_assoc]
    congr 1
    ext other
    simp only [Finset.mem_sdiff, Finset.mem_erase, Finset.mem_insert]
    tauto

/-- What `run` closes is what the executed commands hold on their sides. -/
theorem run_eq (b : Build) (exitStatus : Command → Status) (status : Status) :
    b.run exitStatus status = ((holders b.members b.fds).closed
      ((Model.P4.run exitStatus status b.operands).flatMap ends)).foldl
        Descriptors.close b.fds := by
  have both (c : Command) : (b.members c.place).fdInput.toList ++ (b.members c.place).fdOutput.toList =
      (ends c).filterMap (holders b.members b.fds).held := by
    simp only [ends, holders, List.filterMap_cons, List.filterMap_nil, Members.fd]
    cases (b.members c.place).fdInput <;> cases (b.members c.place).fdOutput <;> rfl
  rw [closed, List.filterMap_flatMap, List.foldl_flatMap, run]
  simp only [Members.release, both]

end Build

end SphereMultithreading.Model.P4
