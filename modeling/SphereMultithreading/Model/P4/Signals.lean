import Mathlib.Data.Finset.Basic
import Mathlib.Data.Finset.Range
import SphereMultithreading.Model.P4.Processes

/-! # Interrupts in the p4 shell

Each process that executes the code of the shell has its own `master_pid` and `slave_pids`, copied by `fork`.
The terminal sends SIGINT to all processes, and `handler` sends it on. A program that has been executed does
with it what it likes. Calls of the system that are interrupted start again.

A signal comes between the steps. `slave_pids.insert` is one step with the `fork` before it, and
`slave_pids.clear` with the collection of children before it; `slave_pids.erase` is a step of its own.
-/

namespace SphereMultithreading.Model.P4

/-- The variables that `handler` reads. -/
structure Globals where
  masterPid : ℕ
  slavePids : Finset ℕ

/-- The processes, their variables, the pid that each has got from `wait` and is to erase, and the processes
with a SIGINT that they have not handled. -/
structure Session where
  system : System
  globals : ℕ → Globals
  collected : ℕ → Option ℕ
  pending : Finset ℕ

/-- A step of the system, the end of `Command::run`, a key that interrupts, or the signal at a process, and
what will be read again if that exits. -/
inductive Event where
  | action (a : Action)
  | erase (p : ℕ)
  | keyboard
  | signal (p : ℕ) (again : List Input)
deriving DecidableEq, Repr

namespace Session

/-- `shell_pid` -/
def shellPid : ℕ := 0

def init (seekable : Bool) (script : List (List Word)) : Session :=
  ⟨.init seekable script, fun _ => ⟨shellPid, ∅⟩, fun _ => none, ∅⟩

/-- The loop of `main` clears `slave_pids`. For a line that is left to a new process, `master_pid` is that
process on both sides of the `fork`. -/
def getline (s : Session) (p : ℕ) : ℕ → Globals :=
  let child := s.system.processes.length
  match s.system.processes[p]? with
  | some ⟨_, _, _, _, input :: _, _⟩ =>
      if (operands input.commandsParsed).getLast? = some (.op .BACKGROUND_MODE) then
        Function.update (Function.update s.globals child ⟨child, ∅⟩) p ⟨child, {child}⟩
      else Function.update s.globals p { s.globals p with slavePids := ∅ }
  | _ => s.globals

/-- `slave_pids.insert(pid)` in the parent; the child has what was there before. -/
def fork (s : Session) (p : ℕ) : ℕ → Globals :=
  let child := s.system.processes.length
  let g := s.globals p
  Function.update (Function.update s.globals child g) p
    { g with slavePids := insert child g.slavePids }

/-- The variables after an action. -/
def assign (s : Session) : Action → ℕ → Globals
  | .getline p _ => s.getline p
  | .fork p => s.fork p
  | _ => s.globals

/-- What `wait` returns is to be erased. -/
def collect (s : Session) : Action → ℕ → Option ℕ
  | .wait p q => Function.update s.collected p (some q)
  | _ => s.collected

/-- A process that has a pid to erase does nothing else before, but it may be ended. -/
def busy (s : Session) : Action → Bool
  | .read p _ | .getline p _ | .advance p | .fork p | .exec p _ | .wait p _ | .finish p _ | .endOfFile p =>
      (s.collected p).isSome
  | .terminate .. => false

def act (fails : List Word → Bool) (s : Session) (a : Action) : Option Session :=
  if s.busy a then none
  else (s.system.step fails a).map fun system => ⟨system, s.assign a, s.collect a, s.pending⟩

/-- `slave_pids.erase(pid)`, where `pid` is what `wait` returned. -/
def erase (s : Session) (p : ℕ) : Option Session :=
  (s.collected p).map fun q => { s with
    globals := Function.update s.globals p
      { s.globals p with slavePids := (s.globals p).slavePids.erase q }
    collected := Function.update s.collected p none }

/-- The processes that `handler` sends SIGINT to, in process `p`. -/
def killed (s : Session) (p : ℕ) : Finset ℕ :=
  if (s.globals p).masterPid = p then (s.globals p).slavePids else ∅

/-- `handler`, in a process that has not called `execvp` with success. -/
def handler (s : Session) (p : ℕ) (ahead again : List Input) : Option Session :=
  let s := { s with pending := s.pending ∪ s.killed p }
  if p ≠ shellPid then
    (s.system.exit p 1 ahead again).map fun system => { s with system := system }
  else some s

/-- SIGINT comes to a process. -/
def signal (s : Session) (p : ℕ) (again : List Input) : Option Session :=
  match s.system.processes[p]? with
  | none => none
  | some x =>
      if p ∈ s.pending then
        let s := { s with pending := s.pending.erase p }
        match x.activity with
        | .program | .ended _ => some s
        | _ => s.handler p x.ahead again
      else none

def step (fails : List Word → Bool) (s : Session) : Event → Option Session
  | .action a => s.act fails a
  | .erase p => s.erase p
  | .keyboard => some { s with pending := Finset.range s.system.processes.length }
  | .signal p again => s.signal p again

end Session

end SphereMultithreading.Model.P4
