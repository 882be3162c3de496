import SphereMultithreading.Model.ClientLoop
import SphereMultithreading.Model.P6.Sections

/-! # The client events of a p6 worker

Each chunk of bytes is parsed on its own, by one `sscanf`. A query is executed at once, and its reply
is sent from the same buffer.
-/

namespace SphereMultithreading.Model.P6

open Model.HashTable HashTable Scanf

/-- What `process_query` finds in the buffer; it returns 0, -1 and 1 for the first three. In the last
case the first word does not fit `cmd`. -/
inductive Parsed where
  | blank
  | wrong
  | query (query : Query)
  | overflow
deriving DecidableEq, Repr

def setWord : Text := ['s', 'e', 't']

def getWord : Text := ['g', 'e', 't']

def delWord : Text := ['d', 'e', 'l']

abbrev cmdSize : ℕ := 32

/-- The fields `sscanf` did not fill are indeterminate in the source; they are 0 here. -/
def processQuery (buffer : Text) : Parsed :=
  match scanCommand 3 buffer with
  | none => .blank
  | some (cmd, args) =>
      if cmdSize ≤ cmd.length then .overflow
      else if cmd = setWord ∧ args.length = 3 then
        .query ⟨args.getD 0 0, args.getD 2 0, args.getD 1 0, .SET⟩
      else if cmd = getWord ∧ args.length = 1 then .query ⟨args.getD 0 0, 0, 0, .GET⟩
      else if cmd = delWord ∧ args.length = 1 then .query ⟨args.getD 0 0, 0, 0, .DEL⟩
      else .wrong

def wrongCommand : Text := "> FAIL: Wrong command or wrong number of params\n".toList

/-- What a worker has beside its clients: the shared memory, and the messages it has sent. -/
structure WorkerState where
  memory : HashTable
  sent : List (ℕ × Text)

namespace WorkerState

def sendMessageToClient (s : WorkerState) (fd : ℕ) (buffer : Text) : WorkerState :=
  { s with sent := s.sent ++ [(fd, buffer)] }

/-- An index past the semaphores is undefined. -/
def executeQuery (s : WorkerState) (clock : ℕ → ℤ) (query : Query) :
    Except Fault (Text × WorkerState) :=
  if query.semId < numSections then
    match s.memory.call clock query.call with
    | some (reply, memory) => .ok ((query.answer reply).toList, { s with memory := memory })
    | none => .error .undefined
  else .error .undefined

/-- The part of `process_client_event` between the `recv` and the test for `EPOLLHUP`. -/
def handle (clock : ℕ → ℤ) (s : WorkerState) (fd : ℕ) (buffer : Text) : Except Fault WorkerState :=
  match processQuery buffer with
  | .blank => .ok s
  | .wrong => .ok (s.sendMessageToClient fd wrongCommand)
  | .query query =>
      (s.executeQuery clock query).map fun (buffer, s) => s.sendMessageToClient fd buffer
  | .overflow => .error .undefined

end WorkerState

end SphereMultithreading.Model.P6
