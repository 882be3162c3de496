import SphereMultithreading.Model.P7.Dictionary
import SphereMultithreading.Model.P7.Server

/-! # The loop of the p7 server

Before it waits for events, the server compares the time its dictionary was last written with the clock.
Others write the file, at any time and with any contents, and the clock goes on; each writing makes the
time of the file later, but not later than the clock.
-/

namespace SphereMultithreading.Model.P7

open Scanf

abbrev maxEvents : ℕ := 256

structure File where
  contents : Text
  mtime : ℕ
deriving DecidableEq, Repr

/-- Where `start` is: before `stat`; before the clock is read, with `attrib.st_mtime`; before
`epoll_wait`; before the first of the events that remain; or left with an exception. -/
inductive Position where
  | stat
  | compare (stMtime : ℕ)
  | epollWait
  | events (n : ℕ)
  | stopped
deriving DecidableEq, Repr

/-- Beside the server, what the file contained at the last `stat`, and for each request the dictionary it was
answered from and what the file contained at the last `stat` then. -/
structure System where
  file : File
  clock : ℕ
  server : Server
  position : Position
  seen : Text
  answered : List (Trie × Text)

/-- A step of the clock, of those who write the file, or of the server. An event that is no request is a
connection to accept, or a client that has closed. -/
inductive Action where
  | tick (seconds : ℕ)
  | write (contents : Text) (mtime : ℕ)
  | stat
  | compare
  | epollWait (n : ℕ)
  | other
  | request (fd : ℕ) (buffer : Text)
deriving DecidableEq, Repr

namespace System

/-- The state after the constructor, which has loaded the dictionary. -/
def init (file : File) (clock : ℕ) (dict : Trie) : System where
  file := file
  clock := clock
  server := ⟨dict, []⟩
  position := .stat
  seen := file.contents
  answered := []

/-- The loop over the events. -/
def nextEvent (s : System) (n : ℕ) : System :=
  { s with position := if n = 0 then .stat else .events n }

def write (s : System) (contents : Text) (mtime : ℕ) : Option System :=
  if s.file.mtime < mtime ∧ mtime ≤ s.clock then some { s with file := ⟨contents, mtime⟩ } else none

def stat (s : System) : Option System :=
  match s.position with
  | .stat => some { s with position := .compare s.file.mtime, seen := s.file.contents }
  | _ => none

/-- The dictionary is loaded again when the file is newer than now. Nothing catches what its constructor
throws. -/
def compare (s : System) : Option System :=
  match s.position with
  | .compare stMtime =>
      if stMtime > s.clock then
        match Trie.load s.file.contents with
        | some (.ok (), dict) =>
            some { s with server := { s.server with dict := dict }, position := .epollWait }
        | some (.error _, _) => some { s with position := .stopped }
        | none => none
      else some { s with position := .epollWait }
  | _ => none

def epollWait (s : System) (n : ℕ) : Option System :=
  match s.position with
  | .epollWait => if 0 < n ∧ n ≤ maxEvents then some { s with position := .events n } else none
  | _ => none

def other (s : System) : Option System :=
  match s.position with
  | .events (n + 1) => some (s.nextEvent n)
  | _ => none

/-- A request that the language defines an answer to. -/
def request (s : System) (fd : ℕ) (buffer : Text) : Option System :=
  match s.position, s.server.handle fd buffer with
  | .events (n + 1), .ok server =>
      some ({ s with
        server := server, answered := s.answered ++ [(s.server.dict, s.seen)] }.nextEvent n)
  | _, _ => none

def step (s : System) : Action → Option System
  | .tick seconds => some { s with clock := s.clock + seconds }
  | .write contents mtime => s.write contents mtime
  | .stat => s.stat
  | .compare => s.compare
  | .epollWait n => s.epollWait n
  | .other => s.other
  | .request fd buffer => s.request fd buffer

end System

end SphereMultithreading.Model.P7
