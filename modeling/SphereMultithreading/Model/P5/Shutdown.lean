import SphereMultithreading.Model.P5.System

/-! # The end of the p5 server

The destructor sends `QUIT` to every worker, in the queue that still holds requests and replies, and waits
for the workers to end. From then on nobody receives replies. The signal that makes the server end is
sent to the server alone. Before that the destructor disconnects the clients, in a loop over the set it erases
them from; this is left out.
-/

namespace SphereMultithreading.Model.P5

/-- What the queue holds: a request or a reply, or `QUIT` for a worker. -/
inductive Letter where
  | parcel (parcel : Parcel)
  | quit (w : Fin numWorkers)
deriving DecidableEq, Repr

def Letter.mtype : Letter → ℕ
  | .parcel p => p.message.mtype
  | .quit w => workerId w

/-- Where the server stands in `free_worker_resources`: in the loop that sends `QUIT`, in the one that
waits, or behind it. -/
inductive Leaving where
  | quit (i : Fin numWorkers)
  | wait
  | freed
deriving DecidableEq, Repr

/-- The queue is beside the rest of the system, whose own queue is empty. -/
structure Shutdown where
  system : System
  queue : List Letter
  exited : Fin numWorkers → Bool
  leaving : Leaving

namespace Shutdown

/-- The server is called off wherever it stands; a request that it was about to send is not sent. -/
def start (s : System) : Shutdown where
  system := { s with queue := [] }
  queue := s.queue.map .parcel
  exited := fun _ => false
  leaving := .quit 0

inductive Action where
  | quit
  | receive (w : Fin numWorkers)
  | down (w : Fin numWorkers)
  | call (w : Fin numWorkers)
  | up (w : Fin numWorkers)
  | reply (w : Fin numWorkers)
  | wait
deriving DecidableEq, Repr

def setWorker (s : Shutdown) (w : Fin numWorkers) (worker : Worker) : Shutdown :=
  { s with system := s.system.setWorker w worker }

def msgsnd (capacity : ℕ) (s : Shutdown) (letter : Letter) : Option Shutdown :=
  if s.queue.length < capacity then some { s with queue := s.queue ++ [letter] } else none

def msgrcv (s : Shutdown) (mtype : ℕ) : Option (Letter × Shutdown) :=
  (s.queue.find? fun letter => letter.mtype = mtype).map fun letter =>
    (letter, { s with queue := s.queue.eraseP fun letter => letter.mtype = mtype })

/-! ## The server -/

/-- The loop over the workers goes on, or is left. -/
def nextWorker (i : Fin numWorkers) : Leaving :=
  if next : i + 1 < numWorkers then .quit ⟨i + 1, next⟩ else .wait

def quit (capacity : ℕ) (s : Shutdown) : Option Shutdown :=
  match s.leaving with
  | .quit i => (s.msgsnd capacity (.quit i)).map fun s => { s with leaving := nextWorker i }
  | _ => none

/-- `wait` returns -1 when there are no workers any more. -/
def wait (s : Shutdown) : Option Shutdown :=
  match s.leaving with
  | .wait => if ∀ w, s.exited w = true then some { s with leaving := .freed } else none
  | _ => none

/-! ## The workers -/

/-- A worker that receives `QUIT` returns from `main`. -/
def receive (s : Shutdown) (w : Fin numWorkers) : Option Shutdown :=
  match s.exited w, s.system.workers w with
  | false, .receive =>
      match s.msgrcv (workerId w) with
      | some (.parcel parcel, s) =>
          some (s.setWorker w
            (.down { parcel with message := { parcel.message with mtype := serverMsgId } }))
      | some (.quit _, s) => some { s with exited := Function.update s.exited w true }
      | none => none
  | _, _ => none

def reply (capacity : ℕ) (s : Shutdown) (w : Fin numWorkers) : Option Shutdown :=
  match s.system.workers w with
  | .reply parcel =>
      (s.msgsnd capacity (.parcel parcel)).map fun s => s.setWorker w .receive
  | _ => none

/-- The other steps of the workers are those they always take. -/
def step (capacity : ℕ) (s : Shutdown) : Action → Option Shutdown
  | .quit => s.quit capacity
  | .receive w => s.receive w
  | .down w => (s.system.down w).map fun system => { s with system := system }
  | .call w => (s.system.call w).map fun system => { s with system := system }
  | .up w => (s.system.up w).map fun system => { s with system := system }
  | .reply w => s.reply capacity w
  | .wait => s.wait

end Shutdown

end SphereMultithreading.Model.P5
