import SphereMultithreading.Model.Scanf

/-! # The client events of p6 and p7

The worker of p6 and the server of p7 handle the event of a client alike: one `recv`, what the bytes
received lead to, and the end of the connection. They differ in what they do with the bytes.
-/

namespace SphereMultithreading.Model

open Scanf

abbrev maxBufSize : ℕ := 1024

/-- What `recv` returns: bytes, the end of the stream, or -1. -/
inductive Recv where
  | bytes (text : Text)
  | closed
  | failed
deriving DecidableEq, Repr

def Recv.possible : Recv → Bool
  | .bytes text => text ≠ [] ∧ text.length ≤ maxBufSize
  | _ => true

/-- How a handler fails to return: an exception leaves it, or it leaves what the language defines. -/
inductive Fault where
  | systemError
  | undefined
deriving DecidableEq, Repr

/-- An event loop with its clients, and what else the process has. -/
structure ClientLoop (σ : Type) where
  slaveSockets : List ℕ
  process : σ

namespace ClientLoop

variable {σ : Type}

def disconnectClient (s : ClientLoop σ) (fd : ℕ) : ClientLoop σ :=
  { s with slaveSockets := s.slaveSockets.filter fun client => client ≠ fd }

/-- `process_client_event`, for a process that deals with the bytes received by `handle`. -/
def processClientEvent (handle : σ → ℕ → Text → Except Fault σ) (s : ClientLoop σ) (fd : ℕ)
    (recv : Recv) (hup : Bool) : Except Fault (ClientLoop σ) :=
  match recv with
  | .bytes text =>
      (handle s.process fd text).map fun process =>
        let s := { s with process := process }
        if hup then s.disconnectClient fd else s
  | .closed => .ok (s.disconnectClient fd)
  | .failed => .error .systemError

end ClientLoop

/-! ## The process around the loop -/

/-- A process in its event loop, or one that a handler has not returned to. -/
inductive Process (σ : Type) where
  | running (loop : ClientLoop σ)
  | stopped (fault : Fault)

/-- A client joins, an event of a client is handled, or others change what they share with the
process. -/
inductive Process.Action (χ ω : Type) where
  | join (fd : ℕ)
  | event (context : χ) (fd : ℕ) (recv : Recv) (hup : Bool)
  | change (others : ω)

namespace Process

variable {σ χ ω : Type}

def step (handle : χ → σ → ℕ → Text → Except Fault σ) (change : ω → σ → Option σ) :
    Process σ → Action χ ω → Option (Process σ)
  | .running s, .join fd =>
      if fd ∉ s.slaveSockets then
        some (.running { s with slaveSockets := fd :: s.slaveSockets })
      else none
  | .running s, .event context fd recv hup =>
      if fd ∈ s.slaveSockets ∧ recv.possible then
        match s.processClientEvent (handle context) fd recv hup with
        | .ok s => some (.running s)
        | .error fault => some (.stopped fault)
      else none
  | .running s, .change others =>
      (change others s.process).map fun process => .running { s with process := process }
  | .stopped _, _ => none

end Process

end SphereMultithreading.Model
