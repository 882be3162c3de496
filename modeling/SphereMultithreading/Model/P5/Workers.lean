import SphereMultithreading.Model.P5.Message

/-! # The loop of the workers of p5

The workers and the section semaphores by themselves. Any request may arrive, and what the table
does with a call is left open: it returns or throws. A step is one system call of a worker or one
call of the table, with the code around it. A `semop` that has to wait has no step.
-/

namespace SphereMultithreading.Model.P5

open Model.HashTable

/-- Where a worker stands in the loop of `main`: `up` is behind the call in the `try` block, and
`caught` in the `catch` block. -/
inductive Position where
  | receive
  | down (msg : Message)
  | call (msg : Message)
  | up (msg : Message)
  | caught (msg : Message)
  | reply (msg : Message)
  | exited
deriving DecidableEq, Repr

structure Workers where
  sems : Fin numSections → ℕ
  positions : Fin numWorkers → Position

namespace Workers

/-- A step of worker `w`; `msgrcv` gives it a request or `QUIT`, and the table a reply. -/
inductive Action where
  | receive (w : Fin numWorkers) (msg : Message)
  | quit (w : Fin numWorkers)
  | down (w : Fin numWorkers)
  | call (w : Fin numWorkers) (reply : HashTable.Reply)
  | up (w : Fin numWorkers)
  | recover (w : Fin numWorkers)
  | reply (w : Fin numWorkers)
deriving DecidableEq

/-- The semaphores as `init_worker_resources` sets them. -/
def init : Workers where
  sems := fun _ => numWorkers
  positions := fun _ => .receive

def setPosition (s : Workers) (w : Fin numWorkers) (position : Position) : Workers :=
  { s with positions := Function.update s.positions w position }

/-! ## The semaphores -/

/-- Waits while the value would become negative; fails without effect on an index past the
semaphores, and its result is not read. -/
def semop (s : Workers) (semNum : ℕ) (semOp : ℤ) : Option Workers :=
  if valid : semNum < numSections then
    let i : Fin numSections := ⟨semNum, valid⟩
    if 0 ≤ s.sems i + semOp then
      some { s with sems := Function.update s.sems i (s.sems i + semOp).toNat }
    else none
  else some s

def semUp (s : Workers) (i : ℕ) (c : ℤ) : Option Workers := s.semop i c

def semDown (s : Workers) (i : ℕ) (c : ℤ) : Option Workers := s.semUp i (-c)

/-- The `sem_down` of the `switch` in the `try` block. -/
def enter (s : Workers) (msg : Message) : Option Workers :=
  match msg.op with
  | .SET => s.semDown msg.semId numWorkers
  | .GET => s.semDown msg.semId 1
  | .DEL => s.semDown msg.semId numWorkers

/-- The `sem_up` of the `switch` in the `try` block. -/
def leave (s : Workers) (msg : Message) : Option Workers :=
  match msg.op with
  | .SET => s.semUp msg.semId numWorkers
  | .GET => s.semUp msg.semId 1
  | .DEL => s.semUp msg.semId numWorkers

/-- The second `switch` of the `catch` block. -/
def giveBack (s : Workers) (msg : Message) : Option Workers :=
  match msg.op with
  | .SET | .DEL => s.semUp msg.semId numWorkers
  | .GET => s.semUp msg.semId 1

/-! ## The loop -/

def receive (s : Workers) (w : Fin numWorkers) (msg : Message) : Option Workers :=
  match s.positions w with
  | .receive => some (s.setPosition w (.down { msg with mtype := serverMsgId }))
  | _ => none

def quit (s : Workers) (w : Fin numWorkers) : Option Workers :=
  match s.positions w with
  | .receive => some (s.setPosition w .exited)
  | _ => none

def down (s : Workers) (w : Fin numWorkers) : Option Workers :=
  match s.positions w with
  | .down msg => (s.enter msg).map fun s => s.setPosition w (.call msg)
  | _ => none

def call (s : Workers) (w : Fin numWorkers) (reply : HashTable.Reply) : Option Workers :=
  match s.positions w with
  | .call msg =>
      match reply with
      | .ok _ => some (s.setPosition w (.up (msg.answered reply)))
      | .error _ => some (s.setPosition w (.caught (msg.answered reply)))
  | _ => none

def up (s : Workers) (w : Fin numWorkers) : Option Workers :=
  match s.positions w with
  | .up msg => (s.leave msg).map fun s => s.setPosition w (.reply msg)
  | _ => none

def recover (s : Workers) (w : Fin numWorkers) : Option Workers :=
  match s.positions w with
  | .caught msg => (s.giveBack msg).map fun s => s.setPosition w (.reply msg)
  | _ => none

def reply (s : Workers) (w : Fin numWorkers) : Option Workers :=
  match s.positions w with
  | .reply _ => some (s.setPosition w .receive)
  | _ => none

def step (s : Workers) : Action → Option Workers
  | .receive w msg => s.receive w msg
  | .quit w => s.quit w
  | .down w => s.down w
  | .call w reply => s.call w reply
  | .up w => s.up w
  | .recover w => s.recover w
  | .reply w => s.reply w

end Workers

end SphereMultithreading.Model.P5
