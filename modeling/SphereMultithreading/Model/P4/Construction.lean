import SphereMultithreading.Machine.Holders
import SphereMultithreading.Model.P4.Shell

/-! # Building and releasing the commands of a p4 line

A command opens the files of its redirections when it is constructed, and the pipes are set when all
commands of the line are there. The shell closes what a command holds when it runs it. An access
outside of a vector, or to an operand that is no command, has no result.
-/

namespace SphereMultithreading.Model.P4

open Machine

/-- The open descriptors of the shell, and those that were given to `close`. -/
structure Descriptors where
  table : Finset ℕ
  closed : List ℕ

namespace Descriptors

/-- `open`, and each end of a `pipe`. -/
def create (d : Descriptors) : ℕ × Descriptors :=
  (newDescriptor d.table, { d with table := insert (newDescriptor d.table) d.table })

def close (d : Descriptors) (fd : ℕ) : Descriptors := ⟨d.table.erase fd, d.closed ++ [fd]⟩

end Descriptors

/-- The members of a `Command`; a descriptor is there if its flag is set. -/
structure Members where
  args : List Word
  fdInput : Option ℕ
  fdOutput : Option ℕ

namespace Members

def setFdInput (m : Members) (fd : ℕ) : Members := { m with fdInput := some fd }

def setFdOutput (m : Members) (fd : ℕ) : Members := { m with fdOutput := some fd }

/-- The loop of the constructor, which takes the file behind a redirection without looking. -/
def construct (m : Members) (d : Descriptors) : List Word → Option (Members × Descriptors)
  | [] => some (m, d)
  | word :: rest =>
      if word = ['<'] then
        match rest with
        | [] => none
        | _ :: rest => construct (m.setFdInput d.create.1) d.create.2 rest
      else if word = ['>'] then
        match rest with
        | [] => none
        | _ :: rest => construct (m.setFdOutput d.create.1) d.create.2 rest
      else construct { m with args := m.args ++ [word] } d rest

/-- What the parent closes in `run`. -/
def release (m : Members) (d : Descriptors) : Descriptors :=
  (m.fdInput.toList ++ m.fdOutput.toList).foldl Descriptors.close d

end Members

/-- The vector of operands, the members of the command at each place, and the descriptors. -/
structure Build where
  operands : List Operand
  members : ℕ → Members
  fds : Descriptors

namespace Build

/-- `operands.push_back(new Command(cmd))` -/
def pushCommand (b : Build) (cmd : List Word) : Option Build :=
  match Members.construct ⟨[], none, none⟩ b.fds cmd with
  | none => none
  | some (m, fds) => some
      { operands := Model.P4.pushCommand b.operands cmd
        members := Function.update b.members b.operands.length m
        fds := fds }

def pushOperator (b : Build) (word : Word) : Build :=
  { b with operands := b.operands ++ (operator word).toList.map .op }

/-- The loop over `commands_parsed`. -/
def pushOperands (b : Build) (commandsToProcess : List Word) : List Word → Option Build
  | [] => if commandsToProcess ≠ [] then b.pushCommand commandsToProcess else some b
  | word :: rest =>
      if isOperator word then
        match b.pushCommand commandsToProcess with
        | none => none
        | some b => (b.pushOperator word).pushOperands [] rest
      else b.pushOperands (commandsToProcess ++ [word]) rest

/-- `pipe`, with its ends given to the commands behind and before the operator. -/
def setPipe (b : Build) (before behind : Command) : Build :=
  let reading := b.fds.create
  let writing := reading.2.create
  let members := Function.update b.members behind.place
    ((b.members behind.place).setFdInput reading.1)
  { b with
    members := Function.update members before.place
      ((members before.place).setFdOutput writing.1)
    fds := writing.2 }

/-- The loop over the operands; `previous` is what `*(i - 1)` is. -/
def setPipes (b : Build) (previous : Option Operand) : List Operand → Option Build
  | [] => some b
  | .op .CONVEYOR :: rest =>
      match previous, rest.head? with
      | some (.cmd before), some (.cmd behind) =>
          (b.setPipe before behind).setPipes (some (.op .CONVEYOR)) rest
      | _, _ => none
  | operand :: rest => b.setPipes (some operand) rest

/-- The commands that `run` executes, one after the other, release their descriptors. -/
def run (b : Build) (exitStatus : Command → Status) (status : Status) : Descriptors :=
  (Model.P4.run exitStatus status b.operands).foldl (fun d c => (b.members c.place).release d) b.fds

end Build

/-- What `main` does with the tokens of a line, up to and with `operands.back()`. -/
def build (commandsParsed : List Word) (fds : Descriptors) : Option Build :=
  match Build.pushOperands ⟨[], fun _ => ⟨[], none, none⟩, fds⟩ [] commandsParsed with
  | none => none
  | some b =>
      match b.setPipes none b.operands with
      | none => none
      | some b => if b.operands.getLast?.isSome then some b else none

end SphereMultithreading.Model.P4
