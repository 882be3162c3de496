import Mathlib
import SphereMultithreading.Machine.Edge

/-! # The acceptor of p6 and its workers

The acceptor takes a connection for each event of its listening socket and passes the descriptor to
a worker at random; a worker takes a descriptor for each event of its channel. Both queues are
edge-triggered, and clients connect at any time. The events of clients, which a worker handles in
between, touch neither queue.

The channels do not block. A send that finds one full fails, which the acceptor does not notice. The acceptor
never closes the descriptors it has passed on; that `accept` fails when it has no more is left out.
-/

namespace SphereMultithreading.Model.P6

open Machine

abbrev numWorkers : ℕ := 4

scoped instance : NeZero numWorkers := ⟨Nat.succ_ne_zero 3⟩

/-- Where an event loop stands: before `epoll_wait`, or before the event it has taken. -/
inductive Loop where
  | epollWait
  | masterEvent
deriving DecidableEq, Repr

/-- The connections in the accept queue, in the channels and with the workers, and those that the acceptor
has failed to pass on. -/
structure Passing where
  listener : Edge ℕ
  arrived : ℕ
  acceptor : Loop
  channels : Fin numWorkers → Edge ℕ
  workers : Fin numWorkers → Loop
  slaveSockets : Fin numWorkers → List ℕ
  lost : List ℕ

namespace Passing

def init : Passing where
  listener := .empty
  arrived := 0
  acceptor := .epollWait
  channels := fun _ => .empty
  workers := fun _ => .epollWait
  slaveSockets := fun _ => []
  lost := []

inductive Action where
  | connect
  | acceptorWait
  | accept (rand : Fin numWorkers) (room : Bool)
  | workerWait (w : Fin numWorkers)
  | read (w : Fin numWorkers)
deriving DecidableEq, Repr

def connect (s : Passing) : Passing :=
  { s with listener := s.listener.arrive [s.arrived], arrived := s.arrived + 1 }

/-- `epoll_wait` returns an event that is announced. -/
def acceptorWait (s : Passing) : Option Passing :=
  if s.acceptor = .epollWait ∧ s.listener.announced = true then
    some { s with listener := s.listener.deliver, acceptor := .masterEvent }
  else none

/-- Without room in the channel `sendmsg` returns -1, and nothing is sent. -/
def sockFdWrite (s : Passing) (w : Fin numWorkers) (room : Bool) (connection : ℕ) : Passing :=
  if room then { s with channels := Function.update s.channels w ((s.channels w).arrive [connection]) }
  else { s with lost := s.lost ++ [connection] }

/-- `Server::process_master_event`; an `accept` that finds nothing returns -1. -/
def accept (s : Passing) (rand : Fin numWorkers) (room : Bool) : Option Passing :=
  match s.acceptor with
  | .epollWait => none
  | .masterEvent =>
      match s.listener.pending with
      | [] => some { s with acceptor := .epollWait }
      | connection :: _ =>
          some ({ s with
            listener := s.listener.drop 1
            acceptor := .epollWait }.sockFdWrite rand room connection)

def workerWait (s : Passing) (w : Fin numWorkers) : Option Passing :=
  if s.workers w = .epollWait ∧ (s.channels w).announced = true then
    some { s with
      channels := Function.update s.channels w (s.channels w).deliver
      workers := Function.update s.workers w .masterEvent }
  else none

/-- `Worker::process_master_event`; the descriptor read from an empty channel is undefined. -/
def read (s : Passing) (w : Fin numWorkers) : Option Passing :=
  match s.workers w, (s.channels w).pending with
  | .masterEvent, connection :: _ =>
      some { s with
        channels := Function.update s.channels w ((s.channels w).drop 1)
        workers := Function.update s.workers w .epollWait
        slaveSockets := Function.update s.slaveSockets w (connection :: s.slaveSockets w) }
  | _, _ => none

def step (s : Passing) : Action → Option Passing
  | .connect => some s.connect
  | .acceptorWait => s.acceptorWait
  | .accept rand room => s.accept rand room
  | .workerWait w => s.workerWait w
  | .read w => s.read w

end Passing

end SphereMultithreading.Model.P6
