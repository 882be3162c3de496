import SphereMultithreading.Machine.Pipelines
import SphereMultithreading.Model.P4.Construction
import SphereMultithreading.Model.P4.Processes

/-! # The bytes of a p4 line

A line of commands without redirections is run in the foreground. Its commands read from the terminal or a
pipe and write to the terminal or a pipe. A pipe holds some bytes; a write to a full one waits, and a read
from an empty one as long as a process has a descriptor it can be written through. The parent closes the
descriptors of a command it has forked while the child is running. Programs are found and nobody sends
signals from outside.
-/

namespace SphereMultithreading.Model.P4

open Machine.Pipelines

/-- What an open descriptor is connected to. A pipe is known by the place of the command before it. -/
inductive Channel where
  | terminal
  | readEnd (pipe : ℕ)
  | writeEnd (pipe : ℕ)
deriving DecidableEq, Repr

/-- The descriptors of a process. -/
structure Files where
  table : Finset ℕ
  channel : ℕ → Channel

namespace Files

def dup2 (f : Files) (old new : ℕ) : Files where
  table := insert new f.table
  channel := Function.update f.channel new (f.channel old)

def close (f : Files) (fd : ℕ) : Files := { f with table := f.table.erase fd }

def lookup (f : Files) (fd : ℕ) : Option Channel := if fd ∈ f.table then some (f.channel fd) else none

/-- Some descriptor is connected to the channel. -/
def Connects (f : Files) (channel : Channel) : Prop := ∃ fd ∈ f.table, f.channel fd = channel

instance (f : Files) (channel : Channel) : Decidable (f.Connects channel) :=
  inferInstanceAs (Decidable (∃ fd ∈ f.table, f.channel fd = channel))

end Files

/-- A build with what its descriptors are connected to. -/
structure Wiring where
  build : Build
  channel : ℕ → Channel

namespace Wiring

/-- `pipe`, and the two ends for the commands. -/
def setPipe (w : Wiring) (before behind : Command) : Wiring where
  build := w.build.setPipe before behind
  channel :=
    let reading := w.build.fds.create
    let writing := reading.2.create
    Function.update (Function.update w.channel reading.1 (.readEnd before.place)) writing.1
      (.writeEnd before.place)

/-- The loop over the operands; `previous` is what `*(i - 1)` is. -/
def setPipes (w : Wiring) (previous : Option Operand) : List Operand → Option Wiring
  | [] => some w
  | .op .CONVEYOR :: rest =>
      match previous, rest.head? with
      | some (.cmd before), some (.cmd behind) =>
          (w.setPipe before behind).setPipes (some (.op .CONVEYOR)) rest
      | _, _ => none
  | operand :: rest => w.setPipes (some operand) rest

/-- The descriptors of the shell once the line is built. -/
def files (w : Wiring) : Files := ⟨w.build.fds.table, w.channel⟩

end Wiring

/-- What `main` does with the tokens of a line. -/
def wire (commandsParsed : List Word) (fds : Descriptors) : Option Wiring :=
  match Build.pushOperands ⟨[], fun _ => ⟨[], none, none⟩, fds⟩ [] commandsParsed with
  | none => none
  | some b =>
      match (⟨b, fun _ => .terminal⟩ : Wiring).setPipes none b.operands with
      | none => none
      | some w => if w.build.operands.getLast?.isSome then some w else none

/-- Where the shell is: in `run`, or in the branch of the parent in `Command::run`, with descriptors still to
be closed before it waits. -/
inductive Phase where
  | run (loop : Loop) (status : Status) (operands : List Operand)
  | parent (command : Command) (fds : List ℕ) (rest : List Operand)
deriving DecidableEq, Repr

/-- The child runs its program or has ended. -/
inductive Running (σ : Type) where
  | program (state : σ)
  | ended (status : Status)

structure Child (σ : Type) where
  files : Files
  running : Running σ

/-- What is in the pipes, what is still to be typed, and what has been written to the terminal. -/
structure Streams where
  pipes : ℕ → List UInt8
  input : List UInt8
  output : List UInt8

namespace Streams

/-- What there is to be read. -/
def pending (s : Streams) : Channel → List UInt8
  | .terminal => s.input
  | .readEnd pipe => s.pipes pipe
  | .writeEnd _ => []

/-- What is left after reading. -/
def leave (s : Streams) (channel : Channel) (bytes : List UInt8) : Streams :=
  match channel with
  | .terminal => { s with input := bytes }
  | .readEnd pipe => { s with pipes := Function.update s.pipes pipe bytes }
  | .writeEnd _ => s

def emit (s : Streams) (channel : Channel) (bytes : List UInt8) : Streams :=
  match channel with
  | .terminal => { s with output := s.output ++ bytes }
  | .readEnd _ => s
  | .writeEnd pipe => { s with pipes := Function.update s.pipes pipe (s.pipes pipe ++ bytes) }

end Streams

/-- The shell and its child. -/
structure Foreground (σ : Type) where
  phase : Phase
  files : Files
  child : Option (Child σ)
  streams : Streams

/-- A step of the shell or of its child. -/
inductive Turn where
  | shell
  | child
deriving DecidableEq, Repr

namespace Foreground

variable {σ : Type}

/-- A pipe without a reader kills who writes to it. -/
def brokenPipe : Status := .signaled 13

def init (w : Wiring) (status : Status) (input : List UInt8) : Foreground σ where
  phase := .run .outer status w.build.operands
  files := w.files
  child := none
  streams := ⟨fun _ => [], input, []⟩

/-- What the child does to its descriptors before `execvp`. -/
def redirect (m : Members) (f : Files) : Files :=
  let f := m.fdInput.elim f fun fd => (f.dup2 fd 0).close fd
  m.fdOutput.elim f fun fd => (f.dup2 fd 1).close fd

/-- `fork`, with the child as far as `execvp`. -/
def fork (members : ℕ → Members) (start : Command → σ) (s : Foreground σ) (command : Command)
    (rest : List Operand) : Foreground σ :=
  let m := members command.place
  { s with
    phase := .parent command (m.fdInput.toList ++ m.fdOutput.toList) rest
    child := some ⟨redirect m s.files, .program (start command)⟩ }

/-- A step of `run` or of the parent's branch of `Command::run`. -/
def shell (members : ℕ → Members) (start : Command → σ) (s : Foreground σ) : Option (Foreground σ) :=
  match s.phase with
  | .run .outer _ (.cmd command :: rest) => some (s.fork members start command rest)
  | .run loop status operands =>
      (advanceLoop loop status operands).map fun (loop, rest) =>
        { s with phase := .run loop status rest }
  | .parent command (fd :: fds) rest =>
      some { s with phase := .parent command fds rest, files := s.files.close fd }
  | .parent _ [] rest =>
      match s.child with
      | some ⟨_, .ended status⟩ => some { s with phase := .run .outer status rest, child := none }
      | _ => none

def setRunning (s : Foreground σ) (files : Files) (running : Running σ) : Foreground σ :=
  { s with child := some ⟨files, running⟩ }

def setStreams (s : Foreground σ) (streams : Streams) : Foreground σ := { s with streams := streams }

/-- Somebody has a descriptor for the channel. -/
def Connected (s : Foreground σ) (files : Files) (channel : Channel) : Prop :=
  s.files.Connects channel ∨ files.Connects channel

instance (s : Foreground σ) (files : Files) (channel : Channel) :
    Decidable (s.Connected files channel) := inferInstanceAs (Decidable (_ ∨ _))

/-- Somebody can still add to what is read from the channel. -/
def Awaits (s : Foreground σ) (files : Files) : Channel → Prop
  | .readEnd pipe => s.Connected files (.writeEnd pipe)
  | _ => False

instance (s : Foreground σ) (files : Files) : ∀ channel, Decidable (s.Awaits files channel)
  | .readEnd pipe => inferInstanceAs (Decidable (s.Connected files (.writeEnd pipe)))
  | .terminal | .writeEnd _ => inferInstanceAs (Decidable False)

/-- `read` of a byte from descriptor 0. -/
def read (s : Foreground σ) (files : Files) (next : Option UInt8 → σ) : Option (Foreground σ) :=
  match files.lookup 0 with
  | none | some (.writeEnd _) => none
  | some channel =>
      match s.streams.pending channel with
      | x :: bytes =>
          some ((s.setStreams (s.streams.leave channel bytes)).setRunning files
            (.program (next (some x))))
      | [] =>
          if s.Awaits files channel then none
          else some (s.setRunning files (.program (next none)))

/-- `write` of a byte to descriptor 1. -/
def write (capacity : ℕ) (s : Foreground σ) (files : Files) (x : UInt8) (next : σ) :
    Option (Foreground σ) :=
  match files.lookup 1 with
  | some .terminal =>
      some ((s.setStreams (s.streams.emit .terminal [x])).setRunning files (.program next))
  | some (.writeEnd pipe) =>
      if s.Connected files (.readEnd pipe) then
        if (s.streams.pipes pipe).length < capacity then
          some ((s.setStreams (s.streams.emit (.writeEnd pipe) [x])).setRunning files (.program next))
        else none
      else some (s.setRunning files (.ended brokenPipe))
  | _ => none

/-- A step of the child's program. -/
def childStep (capacity : ℕ) (next : σ → Request σ UInt8 Status) (s : Foreground σ) :
    Option (Foreground σ) :=
  match s.child with
  | some ⟨files, .program state⟩ =>
      match next state with
      | .read k => s.read files k
      | .write x state => s.write capacity files x state
      | .exit status => some (s.setRunning files (.ended status))
  | _ => none

def step (capacity : ℕ) (start : Command → σ) (next : σ → Request σ UInt8 Status)
    (members : ℕ → Members) (s : Foreground σ) : Turn → Option (Foreground σ)
  | .shell => s.shell members start
  | .child => s.childStep capacity next

/-- `run` has returned. -/
def Finished (s : Foreground σ) (status : Status) : Prop := ∃ loop, s.phase = .run loop status []

end Foreground

end SphereMultithreading.Model.P4
