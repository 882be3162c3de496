import SphereMultithreading.Model.P4.Shell

/-! # The processes of the p4 shell

`fork` copies the interpreter, with its place in `run` and the lines it has read ahead; what nobody
has read yet is shared, and `exit` moves its beginning back where it can be moved. A process is known
by the number of those forked before it, the shell being the first. It stays listed when it has ended,
until a `wait` of its parent returns it and after that. What the descriptors of commands are connected
to is left out, and of signals all but that they may end a process.
-/

namespace SphereMultithreading.Model.P4

/-- A line of the script, with its place there, as `parse` has split it. -/
structure Input where
  number : ℕ
  commandsParsed : List Word
deriving DecidableEq, Repr

/-- What a process does next. -/
inductive Activity where
  | getline
  | run (loop : Loop) (status : Status) (operands : List Operand)
  | exec (command : Command) (rest : List Operand)
  | wait (child : ℕ) (command : Command) (rest : List Operand)
  | program
  | ended (status : Status)
deriving DecidableEq, Repr

def Activity.exitStatus : Activity → Option Status
  | .ended status => some status
  | _ => none

/-- A process that executes the code of the shell, with a line or a script before it. -/
def Activity.interprets : Activity → Bool
  | .getline | .run .. | .wait .. => true
  | _ => false

/-- A process is `background` if `exit` follows its `run`. -/
structure Process where
  parent : Option ℕ
  background : Bool
  collected : Bool
  line : ℕ
  ahead : List Input
  activity : Activity
deriving DecidableEq, Repr

/-- A command of a line and the process forked for it. -/
structure Start where
  line : ℕ
  command : Command
  process : ℕ
deriving DecidableEq, Repr

/-- A `wait` that has returned: the process forked for the command, the status stored, and the status
of that process at the time, if it had ended. -/
structure Wait where
  process : ℕ
  child : ℕ
  status : Status
  actual : Option Status
deriving DecidableEq, Repr

/-- The processes and the lines nobody has read, on a standard input whose offset can be moved or not:
it can in a file, and not in a pipe or on a terminal. What has been started, what failed to, which lines
have been finished and what `wait` returned is kept for comparison. -/
structure System where
  seekable : Bool
  script : List Input
  processes : List Process
  unread : List Input
  started : List Start
  failed : List ℕ
  finished : List ℕ
  waits : List Wait
deriving DecidableEq, Repr

/-- A status in an action is the value of a variable that is not initialised, or the one that a
process ends with; `again` is what will be read again when it ends. -/
inductive Action where
  | read (p n : ℕ)
  | getline (p : ℕ) (status : Status)
  | advance (p : ℕ)
  | fork (p : ℕ)
  | exec (p : ℕ) (status : Status)
  | wait (p q : ℕ)
  | finish (p : ℕ) (again : List Input)
  | endOfFile (p : ℕ)
  | terminate (p : ℕ) (status : Status) (again : List Input)
deriving DecidableEq, Repr

/-- A turn of one of the loops of `run` in which nothing is executed. -/
def advanceLoop : Loop → Status → List Operand → Option (Loop × List Operand)
  | .outer, status, .op nextOp :: rest =>
      some (if shortCircuits nextOp status then .inner nextOp else .outer, rest)
  | .inner nextOp, _, .cmd _ :: rest => some (.inner nextOp, rest)
  | .inner nextOp, _, .op name :: rest =>
      some (if name ≠ nextOp then .outer else .inner nextOp, rest)
  | _, _, _ => none

/-- The lines of a script with their places. -/
def inputs (script : List (List Word)) : List Input :=
  script.zipIdx.map fun (commandsParsed, number) => ⟨number, commandsParsed⟩

namespace System

/-- The shell, before it has read anything of a script. -/
def init (seekable : Bool) (script : List (List Word)) : System where
  seekable := seekable
  script := inputs script
  processes := [⟨none, false, false, 0, [], .getline⟩]
  unread := inputs script
  started := []
  failed := []
  finished := []
  waits := []

def modify (s : System) (p : ℕ) (f : Process → Process) : System :=
  { s with processes := s.processes.modify p f }

def setActivity (s : System) (p : ℕ) (activity : Activity) : System :=
  s.modify p fun process => { process with activity := activity }

def spawn (s : System) (process : Process) : System :=
  { s with processes := s.processes ++ [process] }

/-- The loop `while (waitpid(-1, NULL, WNOHANG) > 0)`. -/
def collect (s : System) (p : ℕ) : System :=
  { s with processes := s.processes.map fun process =>
      if process.parent = some p ∧ process.activity.exitStatus.isSome then
        { process with collected := true }
      else process }

/-- A process that finds nothing read ahead reads some lines. -/
def read (s : System) (p n : ℕ) : Option System :=
  match s.processes[p]? with
  | some ⟨_, _, _, _, [], .getline⟩ =>
      if s.unread ≠ [] then
        some ({ s with unread := s.unread.drop (n + 1) }.modify p fun process =>
          { process with ahead := s.unread.take (n + 1) })
      else none
  | _ => none

/-- The body of the loop of `main`, up to `run`. -/
def getline (s : System) (p : ℕ) (status : Status) : Option System :=
  match s.processes[p]? with
  | some ⟨_, _, _, _, input :: ahead, .getline⟩ =>
      let s := (s.collect p).modify p fun process => { process with ahead := ahead }
      if input.commandsParsed = [] then some s
      else
        let operands := operands input.commandsParsed
        let running := Activity.run .outer status operands
        if operands.getLast? = some (.op .BACKGROUND_MODE) then
          some (s.spawn ⟨some p, true, false, input.number, ahead, running⟩)
        else
          some (s.modify p fun process =>
            { process with line := input.number, activity := running })
  | _ => none

def advance (s : System) (p : ℕ) : Option System :=
  match s.processes[p]? with
  | some ⟨_, _, _, _, _, .run loop status operands⟩ =>
      (advanceLoop loop status operands).map fun (loop, rest) =>
        s.setActivity p (.run loop status rest)
  | _ => none

/-- The first half of `Command::run`. -/
def fork (s : System) (p : ℕ) : Option System :=
  match s.processes[p]? with
  | some ⟨_, background, _, line, ahead, .run .outer _ (.cmd command :: rest)⟩ =>
      let child := s.processes.length
      some { (s.setActivity p (.wait child command rest)).spawn
          ⟨some p, background, false, line, ahead, .exec command rest⟩ with
        started := s.started ++ [⟨line, command, child⟩] }
  | _ => none

/-- When `execvp` fails, the child returns from `Command::run` like its parent. -/
def exec (fails : List Word → Bool) (s : System) (p : ℕ) (status : Status) : Option System :=
  match s.processes[p]? with
  | some ⟨_, _, _, _, _, .exec command rest⟩ =>
      if fails command.cmd then
        some { s.setActivity p (.run .outer status rest) with failed := s.failed ++ [p] }
      else some (s.setActivity p .program)
  | _ => none

/-- `wait` returns any child that has ended. -/
def wait (s : System) (p q : ℕ) : Option System :=
  match s.processes[p]?, s.processes[q]? with
  | some ⟨_, _, _, _, _, .wait child _ rest⟩, some ⟨some parent, _, false, _, _, .ended status⟩ =>
      if parent = p then
        some { (s.modify q fun process => { process with collected := true }).setActivity p
            (.run .outer status rest) with
          waits := s.waits ++
            [⟨p, child, status, s.processes[child]?.bind fun process =>
              process.activity.exitStatus⟩] }
      else none
  | _, _ => none

/-- `exit` of a process that has read ahead. The library moves the offset of standard input back by as
many bytes, so that what stands there is read again: these lines if nobody has read on since, and any
lines and parts of lines otherwise. -/
def exit (s : System) (p : ℕ) (code : ℕ) (ahead again : List Input) : Option System :=
  let t := s.setActivity p (.ended (.exited code))
  if s.seekable ∧ ahead ≠ [] then
    if ahead ++ s.unread <:+ s.script ∧ again ≠ ahead then none
    else some { t with unread := again ++ s.unread }
  else some t

def finish (s : System) (p : ℕ) (again : List Input) : Option System :=
  match s.processes[p]? with
  | some ⟨_, background, _, line, ahead, .run _ _ []⟩ =>
      let s := { s with finished := s.finished ++ [line] }
      if background then s.exit p 0 ahead again else some (s.setActivity p .getline)
  | _ => none

def endOfFile (s : System) (p : ℕ) : Option System :=
  match s.processes[p]? with
  | some ⟨_, _, _, _, [], .getline⟩ =>
      if s.unread = [] then some (s.setActivity p (.ended (.exited 0))) else none
  | _ => none

/-- A program ends, or an interpreter is killed or exits in its handler. -/
def terminate (s : System) (p : ℕ) (status : Status) (again : List Input) : Option System :=
  match s.processes[p]? with
  | some process =>
      if process.activity.interprets then
        match status with
        | .exited code => s.exit p code process.ahead again
        | .signaled _ => some (s.setActivity p (.ended status))
      else if process.activity = .program then some (s.setActivity p (.ended status))
      else none
  | none => none

def step (fails : List Word → Bool) (s : System) : Action → Option System
  | .read p n => s.read p n
  | .getline p status => s.getline p status
  | .advance p => s.advance p
  | .fork p => s.fork p
  | .exec p status => s.exec fails p status
  | .wait p q => s.wait p q
  | .finish p again => s.finish p again
  | .endOfFile p => s.endOfFile p
  | .terminate p status again => s.terminate p status again

end System

end SphereMultithreading.Model.P4
