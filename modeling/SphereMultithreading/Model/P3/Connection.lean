import Mathlib

/-! # A connection of the p3 proxy

A connection reads from its two sockets and writes to the other one. A buffer and the operations on
it are named after the side its bytes come from: `server_buffer` is filled from the server and sent
to the client. An operation first happens, or fails, and its handler runs at some later time.
-/

namespace SphereMultithreading.Model.P3

inductive Side where
  | client
  | server
deriving DecidableEq, Repr

def Side.other : Side → Side
  | .client => .server
  | .server => .client

abbrev bufSize : ℕ := 1024

structure Buffer where
  bytes : List UInt8
  length_bytes : bytes.length = bufSize

namespace Buffer

/-- After `memset`. -/
def zeros : Buffer := ⟨List.replicate bufSize 0, List.length_replicate⟩

def fill (b : Buffer) (input : List UInt8) : Buffer :=
  ⟨(input ++ b.bytes.drop input.length).take bufSize, by
    have := b.length_bytes
    simp
    omega⟩

/-- Without a zero byte `strlen` reads past the buffer. -/
def strlen (b : Buffer) : Option ℕ := b.bytes.idxOf? 0

end Buffer

/-- The value of `error_code()`. -/
abbrev noError : ℕ := 0

/-- The value of `asio::error::eof`. -/
abbrev eof : ℕ := 2

/-- What is reported to a handler: a number of bytes, or the value of an error. -/
inductive Outcome where
  | done (size : ℕ)
  | failed (error : ℕ) (isError : error ≠ noError)
deriving DecidableEq, Repr

namespace Outcome

def error : Outcome → ℕ
  | done _ => noError
  | failed error _ => error

def size : Outcome → ℕ
  | done size => size
  | failed _ _ => 0

end Outcome

inductive Operation where
  | receive
  | send (size : ℕ)
deriving DecidableEq, Repr

/-- An operation whose handler has not run yet. -/
structure Pending where
  operation : Operation
  outcome : Option Outcome
deriving DecidableEq, Repr

/-- The bytes received from a side and those of them relayed to the other are kept for comparison. A
side is `connected` while bytes can pass its socket. -/
structure Connection where
  buffer : Side → Buffer
  isActive : Bool
  connecting : Bool
  connected : Side → Bool
  pending : Side → List Pending
  undefined : Bool
  received : Side → List UInt8
  relayed : Side → List UInt8

/-- For each side, the number of bytes that a send of its buffer transmits at once, if it does not
have to wait. -/
abbrev AtOnce := Side → Option ℕ

namespace Connection

def push (s : Connection) (origin : Side) (p : Pending) : Connection :=
  { s with pending := Function.update s.pending origin (s.pending origin ++ [p]) }

/-- The client is accepted, and the buffers hold anything. -/
def newInstance (buffer : Side → Buffer) : Connection where
  buffer := buffer
  isActive := false
  connecting := false
  connected side := side = .client
  pending _ := []
  undefined := false
  received _ := []
  relayed _ := []

def start (s : Connection) : Connection :=
  { s with isActive := true, connecting := true }

def doRead (s : Connection) (origin : Side) : Connection := s.push origin ⟨.receive, none⟩

def doReadFromServer (s : Connection) : Connection := s.doRead .server

def doReadFromClient (s : Connection) : Connection := s.doRead .client

def transmit (s : Connection) (origin : Side) (n : ℕ) : Connection :=
  { s with
    relayed := Function.update s.relayed origin
      (s.relayed origin ++ (s.buffer origin).bytes.take n) }

def doWrite (s : Connection) (origin : Side) (size : ℕ) (now : AtOnce) : Connection :=
  match now origin with
  | none => s.push origin ⟨.send size, none⟩
  | some n =>
      if s.connected origin.other ∧ n ≤ size then
        (s.transmit origin n).push origin ⟨.send size, some (.done n)⟩
      else s.push origin ⟨.send size, none⟩

def doWriteToServer (s : Connection) : ℕ → AtOnce → Connection := s.doWrite .client

def doWriteToClient (s : Connection) : ℕ → AtOnce → Connection := s.doWrite .server

/-- What `stop` does for each of the buffers at the end of a file. -/
def resend (s : Connection) (origin : Side) (now : AtOnce) : Connection :=
  if (s.buffer origin).bytes.headD 0 ≠ 0 then
    match (s.buffer origin).strlen with
    | some size => s.doWrite origin size now
    | none => { s with undefined := true }
  else s

/-- The sends are started before the sockets are closed. -/
def stop (s : Connection) (error : ℕ) (now : AtOnce) : Connection :=
  let s := if error = eof then (s.resend .server now).resend .client now else s
  if s.isActive then { s with connected := fun _ => false, isActive := false } else s

def handleConnectServer (s : Connection) (error : ℕ) (now : AtOnce) : Connection :=
  if error ≠ noError then s.stop error now else s.doReadFromClient.doReadFromServer

def handleRead (origin : Side) (s : Connection) (outcome : Outcome) (now : AtOnce) : Connection :=
  if outcome.error ≠ noError then s.stop outcome.error now
  else if outcome.size ≠ 0 then s.doWrite origin outcome.size now
  else s.doRead origin.other

def handleReadFromServer : Connection → Outcome → AtOnce → Connection := handleRead .server

def handleReadFromClient : Connection → Outcome → AtOnce → Connection := handleRead .client

def handleWrite (origin : Side) (s : Connection) (outcome : Outcome) (now : AtOnce) : Connection :=
  if outcome.error ≠ noError then s.stop outcome.error now
  else { s with buffer := Function.update s.buffer origin .zeros }.doRead origin

def handleWriteToServer : Connection → Outcome → AtOnce → Connection := handleWrite .client

def handleWriteToClient : Connection → Outcome → AtOnce → Connection := handleWrite .server

/-- The handler bound to an operation. -/
def handler : Side → Operation → Connection → Outcome → AtOnce → Connection
  | .server, .receive => handleReadFromServer
  | .client, .receive => handleReadFromClient
  | .client, .send _ => handleWriteToServer
  | .server, .send _ => handleWriteToClient

/-- The server is connected to, or not, and the handler of that runs; the `i`-th operation on a
buffer receives, sends or fails; or its handler runs. -/
inductive Action where
  | connect (error : ℕ) (now : AtOnce)
  | receive (origin : Side) (i : ℕ) (bytes : List UInt8)
  | send (origin : Side) (i n : ℕ)
  | fail (origin : Side) (i error : ℕ)
  | complete (origin : Side) (i : ℕ) (now : AtOnce)

def setOutcome (s : Connection) (origin : Side) (i : ℕ) (p : Pending) : Connection :=
  { s with pending := Function.update s.pending origin ((s.pending origin).set i p) }

def receive (s : Connection) (origin : Side) (i : ℕ) (bytes : List UInt8) : Connection :=
  { s with
    buffer := Function.update s.buffer origin ((s.buffer origin).fill bytes)
    received := Function.update s.received origin (s.received origin ++ bytes) }.setOutcome origin i
      ⟨.receive, some (.done bytes.length)⟩

def pop (s : Connection) (origin : Side) (i : ℕ) : Connection :=
  { s with pending := Function.update s.pending origin ((s.pending origin).eraseIdx i) }

/-- Nothing is said of what comes after undefined behaviour. -/
def step (s : Connection) (a : Action) : Option Connection :=
  if s.undefined then none else
  match a with
  | .connect error now =>
      if s.connecting then
        some ({ s with
          connecting := false
          connected := Function.update s.connected .server (error = noError)
            }.handleConnectServer error now)
      else none
  | .receive origin i bytes =>
      if (s.pending origin)[i]? = some ⟨.receive, none⟩ ∧ s.connected origin ∧
          bytes.length ≤ bufSize then
        some (s.receive origin i bytes)
      else none
  | .send origin i n =>
      match (s.pending origin)[i]? with
      | some ⟨.send size, none⟩ =>
          if s.connected origin.other ∧ n ≤ size then
            some ((s.transmit origin n).setOutcome origin i ⟨.send size, some (.done n)⟩)
          else none
      | _ => none
  | .fail origin i error =>
      match (s.pending origin)[i]? with
      | some ⟨operation, none⟩ =>
          if isError : error ≠ noError then
            some (s.setOutcome origin i ⟨operation, some (.failed error isError)⟩)
          else none
      | _ => none
  | .complete origin i now =>
      match (s.pending origin)[i]? with
      | some ⟨operation, some outcome⟩ => some (handler origin operation (s.pop origin i) outcome now)
      | _ => none

end Connection

end SphereMultithreading.Model.P3
