import SphereMultithreading.Model.P5.Message

/-! # The server and the workers of p5

All processes share one message queue of a bounded capacity, the memory of the table and the
section semaphores. A step is one system call of a process, or one call of the table, with the code
around it: a process that has to wait has no step. The connections the server has accepted are the
descriptors in `clients`.

What the code does not record is kept beside it. Connections and commands are numbered in the order
of their arrival, a message carries the command it was made from, and `delivered` lists the replies
sent. A message without a command was made from text that did not arrive in its event.
-/

namespace SphereMultithreading.Model.P5

open Model.HashTable HashTable Scanf

abbrev maxEvents : ℕ := 256

abbrev maxBufSize : ℕ := 1024

/-- The descriptors below are the standard ones, the listening socket and the epoll instance. -/
abbrev firstFd : ℕ := 5

/-- A command a client has sent: its number and the connection it came on. -/
structure Command where
  number : ℕ
  connection : ℕ
deriving DecidableEq, Repr

/-- A message on its way, with the command it answers or asks to execute. -/
structure Parcel where
  message : Message
  command : Option Command
deriving DecidableEq, Repr

/-- A reply that reached a client. -/
structure Delivery where
  connection : ℕ
  command : Option Command
deriving DecidableEq, Repr

/-- What `recv` returns: bytes, the end of the stream, or -1. -/
inductive Recv where
  | bytes (text : Text)
  | closed
  | failed
deriving DecidableEq, Repr

/-- The bytes fit the buffer, and the first word fits `cmd`; a longer one is undefined. -/
def Recv.valid : Recv → Bool
  | .bytes text => text ≠ [] ∧ text.length ≤ maxBufSize ∧
      (scanCommand 2 text).all fun scanned => scanned.1.length < 32
  | _ => true

/-- Where the server stands in `start`, with the events that remain of its batch. In `send` it is
in `msgsnd`, for an event that may also carry `EPOLLHUP`. -/
inductive Server where
  | poll
  | events (remaining : ℕ)
  | accept (remaining : ℕ)
  | send (parcel : Parcel) (hup : Bool) (remaining : ℕ)
deriving DecidableEq, Repr

/-- Where a worker stands in its loop. -/
inductive Worker where
  | receive
  | down (parcel : Parcel)
  | call (parcel : Parcel)
  | up (parcel : Parcel)
  | reply (parcel : Parcel)
deriving DecidableEq, Repr

structure System where
  queue : List Parcel
  table : HashTable
  sems : Fin numSections → ℕ
  workers : Fin numWorkers → Worker
  server : Server
  buffer : Text
  clients : List (ℕ × ℕ)
  accepted : ℕ
  commands : ℕ
  delivered : List Delivery

/-- A step of the server or of worker `w`. -/
inductive Action where
  | poll (events : ℕ)
  | master
  | accept
  | acceptDone
  | client (fd : ℕ) (recv : Recv) (hup : Bool) (rand : Fin numWorkers)
  | send
  | drain
  | receive (w : Fin numWorkers)
  | down (w : Fin numWorkers)
  | call (w : Fin numWorkers)
  | up (w : Fin numWorkers)
  | reply (w : Fin numWorkers)
deriving DecidableEq, Repr

namespace System

/-- The state after `init_worker_resources` and `init_client_resources`; the buffer holds the number
given to the last worker. -/
def init (memory : HashTable) : System where
  queue := []
  table := memory.sharedMemorySet
  sems := fun _ => numWorkers
  workers := fun _ => .receive
  server := .poll
  buffer := ['5']
  clients := []
  accepted := 0
  commands := 0
  delivered := []

def setServer (s : System) (server : Server) : System := { s with server := server }

def setWorker (s : System) (w : Fin numWorkers) (worker : Worker) : System :=
  { s with workers := Function.update s.workers w worker }

def setSem (s : System) (i : Fin numSections) (value : ℕ) : System :=
  { s with sems := Function.update s.sems i value }

def setBuffer (s : System) (buffer : Text) : System := { s with buffer := buffer }

/-! ## The queue -/

/-- `msgsnd`, which waits while the queue is full. -/
def msgsnd (capacity : ℕ) (s : System) (parcel : Parcel) : Option System :=
  if s.queue.length < capacity then some { s with queue := s.queue ++ [parcel] } else none

/-- `msgrcv` takes the oldest message of the type; `none` when there is no such message. -/
def msgrcv (s : System) (mtype : ℕ) : Option (Parcel × System) :=
  (s.queue.find? fun parcel => parcel.message.mtype = mtype).map fun parcel =>
    (parcel, { s with queue := s.queue.eraseP fun parcel => parcel.message.mtype = mtype })

/-! ## The server -/

/-- The connection a descriptor stands for. -/
def connection (s : System) (fd : ℕ) : Option ℕ := s.clients.lookup fd

/-- `accept` returns the lowest descriptor that is free. -/
def lowestFd (s : System) : ℕ :=
  (((List.range (s.clients.length + 1)).map (firstFd + ·)).find? fun fd =>
    (s.connection fd).isNone).getD (firstFd + s.clients.length)

def disconnectClient (s : System) (fd : ℕ) : System :=
  { s with clients := s.clients.filter fun client => client.1 ≠ fd }

/-- `send` on a descriptor that is closed reaches nobody. -/
def sendMessageToClient (s : System) (fd : ℕ) (command : Option Command) : System :=
  { s with delivered := s.delivered ++
      ((s.connection fd).map fun connection => ⟨connection, command⟩).toList }

def hangUp (s : System) (fd : ℕ) (hup : Bool) : System := if hup then s.disconnectClient fd else s

def poll (s : System) (events : ℕ) : Option System :=
  match s.server with
  | .poll => if events ≤ maxEvents then some (s.setServer (.events events)) else none
  | _ => none

def master (s : System) : Option System :=
  match s.server with
  | .events (n + 1) => some (s.setServer (.accept n))
  | _ => none

/-- One turn of the loop of `process_master_event` that accepts a connection. -/
def accept (s : System) : Option System :=
  match s.server with
  | .accept _ =>
      some { s with clients := (s.lowestFd, s.accepted) :: s.clients, accepted := s.accepted + 1 }
  | _ => none

def acceptDone (s : System) : Option System :=
  match s.server with
  | .accept n => some (s.setServer (.events n))
  | _ => none

/-- `process_client_event` behind its `recv`, up to a `msgsnd`. -/
def process (s : System) (fd : ℕ) (command : Option Command) (hup : Bool) (rand : Fin numWorkers)
    (n : ℕ) : System :=
  match processMessageFromClient s.buffer fd rand with
  | .blank => (s.hangUp fd hup).setServer (.events n)
  | .wrong =>
      (((s.setBuffer wrongCommand).sendMessageToClient fd command).hangUp fd hup).setServer
        (.events n)
  | .request msg => s.setServer (.send ⟨msg, command⟩ hup n)

/-- The bytes received are a new command of the connection. -/
def received (s : System) (text : Text) : System :=
  { s with buffer := text, commands := s.commands + 1 }

/-- A `recv` that fails leaves the buffer as it was, and the server goes on with it. -/
def client (s : System) (fd : ℕ) (recv : Recv) (hup : Bool) (rand : Fin numWorkers) :
    Option System :=
  match s.server, s.connection fd with
  | .events (n + 1), some connection =>
      if recv.valid then
        match recv with
        | .bytes text =>
            some ((s.received text).process fd (some ⟨s.commands, connection⟩) hup rand n)
        | .closed => some ((s.disconnectClient fd).setServer (.events n))
        | .failed => some (s.process fd none hup rand n)
      else none
  | _, _ => none

def send (capacity : ℕ) (s : System) : Option System :=
  match s.server with
  | .send parcel hup n =>
      (s.msgsnd capacity parcel).map fun s =>
        (s.hangUp parcel.message.client hup).setServer (.events n)
  | _ => none

/-- The end of the loop of `start`: at most one reply is taken, without waiting. -/
def drain (s : System) : Option System :=
  match s.server with
  | .events 0 =>
      match s.msgrcv serverMsgId with
      | none => some (s.setServer .poll)
      | some (parcel, s) =>
          some (((s.setBuffer (processMessageFromWorker parcel.message s.buffer)).sendMessageToClient
            parcel.message.client parcel.command).setServer .poll)
  | _ => none

/-! ## The workers -/

def receive (s : System) (w : Fin numWorkers) : Option System :=
  match s.workers w with
  | .receive =>
      (s.msgrcv (workerId w)).map fun (parcel, s) =>
        s.setWorker w
          (.down { parcel with message := { parcel.message with mtype := serverMsgId } })
  | _ => none

/-- `semop` with a negative count waits; on an index past the semaphores it fails and the worker
goes on. -/
def semDown (s : System) (msg : Message) : Option System :=
  if valid : msg.semId < numSections then
    let i : Fin numSections := ⟨msg.semId, valid⟩
    if msg.permits ≤ s.sems i then some (s.setSem i (s.sems i - msg.permits)) else none
  else some s

def semUp (s : System) (msg : Message) : System :=
  if valid : msg.semId < numSections then
    let i : Fin numSections := ⟨msg.semId, valid⟩
    s.setSem i (s.sems i + msg.permits)
  else s

def down (s : System) (w : Fin numWorkers) : Option System :=
  match s.workers w with
  | .down parcel => (s.semDown parcel.message).map fun s => s.setWorker w (.call parcel)
  | _ => none

/-- A call of the table is one step here, which it amounts to as long as no other worker meanwhile is in a
call that touches a common word; the semaphores do not see to that. -/
def call (s : System) (w : Fin numWorkers) : Option System :=
  match s.workers w with
  | .call parcel =>
      (HashTable.step s.table parcel.message.call).map fun (reply, table) =>
        { s with table := table }.setWorker w
          (.up { parcel with message := parcel.message.answered reply })
  | _ => none

/-- Reached behind the call, or in the `catch` block. -/
def up (s : System) (w : Fin numWorkers) : Option System :=
  match s.workers w with
  | .up parcel => some ((s.semUp parcel.message).setWorker w (.reply parcel))
  | _ => none

def reply (capacity : ℕ) (s : System) (w : Fin numWorkers) : Option System :=
  match s.workers w with
  | .reply parcel => (s.msgsnd capacity parcel).map fun s => s.setWorker w .receive
  | _ => none

def step (capacity : ℕ) (s : System) : Action → Option System
  | .poll events => s.poll events
  | .master => s.master
  | .accept => s.accept
  | .acceptDone => s.acceptDone
  | .client fd recv hup rand => s.client fd recv hup rand
  | .send => s.send capacity
  | .drain => s.drain
  | .receive w => s.receive w
  | .down w => s.down w
  | .call w => s.call w
  | .up w => s.up w
  | .reply w => s.reply capacity w

end System

end SphereMultithreading.Model.P5
