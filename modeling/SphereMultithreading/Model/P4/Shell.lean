import Mathlib.Data.List.Basic

/-! # The operands of a p4 command line

A line is a list of words. It becomes a vector of operands, commands and operators, which `run`
executes from left to right. What a command does is left open but for the status it ends with.
-/

namespace SphereMultithreading.Model.P4

abbrev Word := List Char

/-- `op_type` -/
inductive OpType where
  | LOGICAL_AND
  | LOGICAL_OR
  | CONVEYOR
  | BACKGROUND_MODE
  | SEPARATOR
deriving DecidableEq, Repr

/-- A command object. It is known by the place in the vector that it was made for. -/
structure Command where
  place : ℕ
  cmd : List Word
deriving DecidableEq, Repr

inductive Operand where
  | cmd (command : Command)
  | op (name : OpType)
deriving DecidableEq, Repr

/-- The test that passes the last test. -/
def isOperator (s : Word) : Bool := s ∈ [['|', '|'], ['&', '&'], ['|'], ['&']]

/-- The operator of a word; `op` stays `NULL` for any other. -/
def operator (s : Word) : Option OpType :=
  if s = ['|'] then some .CONVEYOR
  else if s = ['|', '|'] then some .LOGICAL_OR
  else if s = ['&'] then some .BACKGROUND_MODE
  else if s = ['&', '&'] then some .LOGICAL_AND
  else if s = [';'] then some .SEPARATOR
  else none

def pushCommand (operands : List Operand) (cmd : List Word) : List Operand :=
  operands ++ [.cmd ⟨operands.length, cmd⟩]

/-- The loop over `commands_parsed`, with `commands_to_process`. -/
def pushOperands (operands : List Operand) (commandsToProcess : List Word) :
    List Word → List Operand
  | [] => if commandsToProcess ≠ [] then pushCommand operands commandsToProcess else operands
  | word :: rest =>
      if isOperator word then
        pushOperands (pushCommand operands commandsToProcess ++ (operator word).toList.map .op) []
          rest
      else pushOperands operands (commandsToProcess ++ [word]) rest

def operands (commandsParsed : List Word) : List Operand := pushOperands [] [] commandsParsed

/-- What `wait` stores. -/
inductive Status where
  | exited (code : ℕ)
  | signaled (signal : ℕ)
deriving DecidableEq, Repr

/-- `WIFEXITED(status) && !WEXITSTATUS(status)` -/
def Status.success (status : Status) : Bool := status = .exited 0

/-- The condition under which the inner loop is entered. -/
def shortCircuits (nextOp : OpType) (status : Status) : Bool :=
  nextOp = .LOGICAL_OR ∧ status.success = true ∨ nextOp = .LOGICAL_AND ∧ status.success = false

/-- Which of the two loops of `run` is at an operand. -/
inductive Loop where
  | outer
  | inner (nextOp : OpType)
deriving DecidableEq, Repr

/-- The commands that `run` executes. The inner loop passes the operator it was entered for, breaks at
one of another name, and the increment of the outer loop then steps over that. -/
def runLoop (exitStatus : Command → Status) : Loop → Status → List Operand → List Command
  | _, _, [] => []
  | .outer, _, .cmd cmd :: rest => cmd :: runLoop exitStatus .outer (exitStatus cmd) rest
  | .outer, status, .op nextOp :: rest =>
      if shortCircuits nextOp status then runLoop exitStatus (.inner nextOp) status rest
      else runLoop exitStatus .outer status rest
  | .inner nextOp, status, .cmd _ :: rest => runLoop exitStatus (.inner nextOp) status rest
  | .inner nextOp, status, .op name :: rest =>
      if name ≠ nextOp then runLoop exitStatus .outer status rest
      else runLoop exitStatus (.inner nextOp) status rest

/-- The variable `status` is not initialised. -/
def run (exitStatus : Command → Status) (status : Status) (operands : List Operand) :
    List Command :=
  runLoop exitStatus .outer status operands

end SphereMultithreading.Model.P4
