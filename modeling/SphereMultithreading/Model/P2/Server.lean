import SphereMultithreading.Machine.Descriptors
import SphereMultithreading.Machine.Edge
import SphereMultithreading.Model.P2.Message

/-! # The chat server of p2

The clients and the kernel connect, send and hang up at any time; the server takes one system call
after another. Connections are numbered in the order they arrive. The kernel keeps an edge-triggered
queue of connections to accept and one of bytes for each connection, and the table of the server's
descriptors; `slaveSockets` and `messages` are the server's own, and so is `errno`, which a call that
succeeds leaves alone. What was received on each connection and what was broadcast is kept beside it.
-/

namespace SphereMultithreading.Model.P2

open Machine Scanf

abbrev maxEvents : ℕ := 256

/-- The descriptors below are the standard ones, the master socket and the epoll instance. -/
abbrev firstFd : ℕ := 5

/-- A connection: the bytes that wait to be read, and whether the client has closed its end. -/
structure Socket where
  input : Edge Char
  closed : Bool
deriving Repr

/-- An event of the listening socket, or of a client, which may also carry `EPOLLHUP`. -/
inductive Event where
  | master
  | client (fd : ℕ) (hup : Bool)
deriving DecidableEq, Repr

/-- What a `recv` returns: some of the bytes that wait, the end of the stream, or -1 because nothing
waits or because of another error. -/
inductive Recv where
  | bytes (n : ℕ)
  | closed
  | again
  | failed
deriving DecidableEq, Repr

/-- The outcomes there are for a connection. -/
def Recv.possible (socket : Socket) : Recv → Prop
  | .bytes n => 0 < n ∧ n ≤ buffSize ∧ n ≤ socket.input.pending.length
  | .closed => socket.input.pending = [] ∧ socket.closed = true
  | .again => socket.input.pending = [] ∧ socket.closed = false
  | .failed => True

instance (socket : Socket) : ∀ outcome : Recv, Decidable (outcome.possible socket)
  | .bytes n =>
      inferInstanceAs (Decidable (0 < n ∧ n ≤ buffSize ∧ n ≤ socket.input.pending.length))
  | .closed => inferInstanceAs (Decidable (socket.input.pending = [] ∧ socket.closed = true))
  | .again => inferInstanceAs (Decidable (socket.input.pending = [] ∧ socket.closed = false))
  | .failed => isTrue trivial

inductive Errno where
  | EAGAIN
  | other
deriving DecidableEq, Repr

/-- Where the server stands, with the events that remain of its batch: at `epoll_wait` when none
remain, before an `accept`, before a `recv`, or after `is_complete` of an empty message. -/
inductive Server where
  | events (batch : List Event)
  | accepting (batch : List Event)
  | receiving (fd : ℕ) (hup : Bool) (batch : List Event)
  | undefined
deriving DecidableEq, Repr

/-- A message sent to the clients: whose it is, who gets it, and who was connected. -/
structure Broadcast where
  sender : Option ℕ
  text : Text
  recipients : List ℕ
  connected : List ℕ
deriving DecidableEq, Repr

structure System where
  listener : Edge ℕ
  sockets : ℕ → Socket
  arrived : ℕ
  descriptors : List (ℕ × ℕ)
  slaveSockets : List ℕ
  messages : ℕ → Message
  errno : Errno
  server : Server
  received : ℕ → Text
  broadcasts : List Broadcast

/-- A step of the clients or of the server. -/
inductive Action where
  | connect
  | arrive (connection : ℕ) (text : Text)
  | shut (connection : ℕ)
  | epollWait (batch : List Event)
  | processMasterEvent
  | accept
  | processClientEvent
  | recv (outcome : Recv)
deriving DecidableEq, Repr

namespace System

/-- The state after the constructor. -/
def init : System where
  listener := .empty
  sockets := fun _ => ⟨.empty, false⟩
  arrived := 0
  descriptors := []
  slaveSockets := []
  messages := fun _ => .empty
  errno := .other
  server := .events []
  received := fun _ => []
  broadcasts := []

def setServer (s : System) (server : Server) : System := { s with server := server }

def setMessage (s : System) (fd : ℕ) (msg : Message) : System :=
  { s with messages := Function.update s.messages fd msg }

def setSocket (s : System) (connection : ℕ) (socket : Socket) : System :=
  { s with sockets := Function.update s.sockets connection socket }

/-- The connection a descriptor stands for. -/
def connection (s : System) (fd : ℕ) : Option ℕ := s.descriptors.lookup fd

/-! ## The clients -/

def connect (s : System) : System :=
  { s with listener := s.listener.arrive [s.arrived], arrived := s.arrived + 1 }

/-- A client sends on a connection it has not closed. -/
def arrive (s : System) (connection : ℕ) (text : Text) : Option System :=
  let socket := s.sockets connection
  if connection < s.arrived ∧ socket.closed = false ∧ text ≠ [] then
    some (s.setSocket connection { socket with input := socket.input.arrive text })
  else none

def shut (s : System) (connection : ℕ) : Option System :=
  let socket := s.sockets connection
  if connection < s.arrived then
    some (s.setSocket connection { input := socket.input.arrive [], closed := true })
  else none

/-! ## The server -/

/-- An event is announced. -/
def Announced (s : System) : Event → Prop
  | .master => s.listener.announced = true
  | .client fd _ => ∃ connection, s.connection fd = some connection ∧
      (s.sockets connection).input.announced = true

/-- The announcement of an event is taken. -/
def deliver (s : System) : Event → System
  | .master => { s with listener := s.listener.deliver }
  | .client fd _ =>
      match s.connection fd with
      | none => s
      | some connection =>
          let socket := s.sockets connection
          s.setSocket connection { socket with input := socket.input.deliver }

end System

/-- The descriptor of an event; the listening socket has none here. -/
def Event.source : Event → Option ℕ
  | .master => none
  | .client fd _ => some fd

namespace System

instance (s : System) : ∀ event, Decidable (s.Announced event)
  | .master => inferInstanceAs (Decidable (s.listener.announced = true))
  | .client fd _ => inferInstanceAs (Decidable (∃ connection ∈ s.connection fd,
      (s.sockets connection).input.announced = true))

/-- `epoll_wait` takes some of the events announced, each descriptor's at most once; it takes none
when its time is up. -/
def epollWait (s : System) (batch : List Event) : Option System :=
  match s.server with
  | .events [] =>
      if (∀ event ∈ batch, s.Announced event) ∧ (batch.map Event.source).Nodup ∧
          batch.length ≤ maxEvents then
        some ((batch.foldl deliver s).setServer (.events batch))
      else none
  | _ => none

def processMasterEvent (s : System) : Option System :=
  match s.server with
  | .events (.master :: batch) => some (s.setServer (.accepting batch))
  | _ => none

/-- The condition of both loops, `errno != EAGAIN`, behind a call that succeeded. -/
def loop (s : System) (again done : Server) : System :=
  s.setServer (if s.errno = .EAGAIN then done else again)

/-- The descriptor of the next connection accepted. -/
def nextFd (s : System) : ℕ := lowestFree firstFd (s.descriptors.map Prod.fst)

/-- The oldest connection that waits is accepted. -/
def join (s : System) (connection : ℕ) : System :=
  { s with
    listener := s.listener.drop 1
    descriptors := (s.nextFd, connection) :: s.descriptors
    slaveSockets := s.nextFd :: s.slaveSockets
    messages := Function.update s.messages s.nextFd .empty }

/-- One turn of the loop of `process_master_event`. -/
def accept (s : System) : Option System :=
  match s.server with
  | .accepting batch =>
      match s.listener.pending with
      | [] => some ({ s with errno := .EAGAIN }.setServer (.events batch))
      | connection :: _ => some ((s.join connection).loop (.accepting batch) (.events batch))
  | _ => none

def processClientEvent (s : System) : Option System :=
  match s.server with
  | .events (.client fd hup :: batch) => some (s.setServer (.receiving fd hup batch))
  | _ => none

def disconnectClient (s : System) (fd : ℕ) : System :=
  { s with
    descriptors := s.descriptors.filter fun entry => entry.1 ≠ fd
    slaveSockets := s.slaveSockets.filter fun client => client ≠ fd
    messages := Function.update s.messages fd .empty }

/-- `send_message` to every client; the sends are taken to transmit all bytes. -/
def broadcast (s : System) (fd : ℕ) : System :=
  { s with broadcasts := s.broadcasts ++ [{
      sender := s.connection fd
      text := (s.messages fd).text
      recipients := s.slaveSockets.filterMap s.connection
      connected := s.descriptors.map Prod.snd }] }

/-- `process_client_event` behind a `recv_message` that returned true. -/
def finish (s : System) (fd : ℕ) (hup : Bool) (batch : List Event) : System :=
  match (s.messages fd).isComplete with
  | none => s.setServer .undefined
  | some complete =>
      let s := if complete then (s.broadcast fd).setMessage fd (s.messages fd).clear else s
      (if hup then s.disconnectClient fd else s).setServer (.events batch)

/-- The server has received these bytes. -/
def receive (s : System) (fd connection n : ℕ) : System :=
  let socket := s.sockets connection
  let text := socket.input.pending.take n
  let s := { s with
    received := Function.update s.received connection (s.received connection ++ text) }
  (s.setSocket connection { socket with input := socket.input.drop n }).setMessage fd
    ((s.messages fd).append text)

/-- One turn of the loop of `recv_message`, and what `process_client_event` does behind it. -/
def turn (s : System) (fd connection : ℕ) (hup : Bool) (batch : List Event) : Recv → System
  | .bytes n =>
      let text := (s.sockets connection).input.pending.take n
      let s := s.receive fd connection n
      if text.getLast? = some '\n' ∨ s.errno = .EAGAIN then s.finish fd hup batch else s
  | .closed => (s.disconnectClient fd).setServer (.events batch)
  | .again => { s with errno := .EAGAIN }.finish fd hup batch
  | .failed => { s with errno := .other }

def recv (s : System) (outcome : Recv) : Option System :=
  match s.server with
  | .receiving fd hup batch =>
      match s.connection fd with
      | some connection =>
          if outcome.possible (s.sockets connection) then
            some (s.turn fd connection hup batch outcome)
          else none
      | none => none
  | _ => none

def step (s : System) : Action → Option System
  | .connect => some s.connect
  | .arrive connection text => s.arrive connection text
  | .shut connection => s.shut connection
  | .epollWait batch => s.epollWait batch
  | .processMasterEvent => s.processMasterEvent
  | .accept => s.accept
  | .processClientEvent => s.processClientEvent
  | .recv outcome => s.recv outcome

end System

end SphereMultithreading.Model.P2
