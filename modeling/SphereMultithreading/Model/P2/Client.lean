import SphereMultithreading.Model.P2.Message

/-! # The chat client of p2

What is typed arrives on standard input in any portions. Standard input does not block, so `fgets`
returns what there is of a line when the rest has not arrived. What is read is sent at once if the
socket of the server can be written to, and kept for later if not. What comes from the server and what
is shown on the screen are left out.
-/

namespace SphereMultithreading.Model.P2

open Scanf Stdio

/-- Where the client stands in the loop of `start`. Whether the socket can be written to is what
`select` said of it at the beginning of the turn. -/
inductive Position where
  | start
  | recvMessageFromStdin (writable : Bool)
  | sendMessage (writable : Bool)
deriving DecidableEq, Repr

/-- What is still to be typed, what has arrived of it and is not read, and what is read; `messages[0]`
and the bytes that were sent. -/
structure Client where
  coming : Text
  stdin : Text
  read : Text
  message : Message
  sent : Text
  position : Position
deriving DecidableEq, Repr

/-- The client behind its constructor, before anything is typed. -/
def Client.init (typed : Text) : Client := ⟨typed, [], [], .empty, [], .start⟩

namespace Client

/-- So many characters more arrive. -/
def arrive (c : Client) (n : ℕ) : Client :=
  { c with stdin := c.stdin ++ c.coming.take n, coming := c.coming.drop n }

/-- A turn of the loop of `recv_message_from_stdin`. Of a string of no characters, which begins with a
zero byte, the source looks at the character before the first. -/
def recvMessageFromStdin (c : Client) (writable : Bool) : Option Client :=
  match fgets (buffSize + 1) c.stdin with
  | none => some { c with position := .sendMessage writable }
  | some (piece, rest) =>
      let buffer := cString piece
      let c := { c with stdin := rest, read := c.read ++ piece }
      if buffer = ['\n'] then some { c with position := .sendMessage writable }
      else
        match buffer.getLast? with
        | none => none
        | some last =>
            let c := { c with message := c.message.append buffer }
            some (if last = '\n' then { c with position := .sendMessage writable } else c)

/-- The sends are taken to transmit all bytes. -/
def sendMessage (c : Client) (writable : Bool) : Client :=
  if writable ∧ c.message.size ≠ 0 then
    { c with position := .start, sent := c.sent ++ c.message.text, message := c.message.clear }
  else { c with position := .start }

inductive Action where
  | arrive (n : ℕ)
  /-- `select` finds standard input readable, and the socket of the server writable or not. -/
  | select (writable : Bool)
  | recvMessageFromStdin
  | sendMessage
deriving DecidableEq, Repr

def step (c : Client) : Action → Option Client
  | .arrive n => some (c.arrive n)
  | .select writable =>
      match c.position with
      | .start => some { c with position := .recvMessageFromStdin writable }
      | _ => none
  | .recvMessageFromStdin =>
      match c.position with
      | .recvMessageFromStdin writable => c.recvMessageFromStdin writable
      | _ => none
  | .sendMessage =>
      match c.position with
      | .sendMessage writable => some (c.sendMessage writable)
      | _ => none

end Client

end SphereMultithreading.Model.P2
