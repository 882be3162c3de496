import SphereMultithreading.Model.P5.HashTable
import SphereMultithreading.Model.Scanf

/-! # The messages of p5

The server turns the text in its buffer into a request for a worker, and a worker's reply into a
text for the client. The field `from` of a message is `client` here.
-/

namespace SphereMultithreading.Model.P5

open Model.HashTable Scanf

abbrev numWorkers : ℕ := 4

scoped instance : NeZero numWorkers := ⟨Nat.succ_ne_zero 3⟩

abbrev serverMsgId : ℕ := 1

/-- `QUIT`, which has no use for the other fields, is not among them. -/
inductive OpType where
  | GET
  | SET
  | DEL
deriving DecidableEq, Repr

structure Message where
  mtype : ℕ
  op : OpType
  key : ℤ
  value : ℤ
  err : ℕ
  client : ℕ
deriving DecidableEq, Repr

namespace Message

/-- The call of the table in the worker's `switch`. -/
def call (msg : Message) : HashTable.Call :=
  match msg.op with
  | .SET => .set msg.key msg.value
  | .GET => .get msg.key
  | .DEL => .del msg.key

/-- The count given to `sem_down` and `sem_up`. -/
def permits (msg : Message) : ℕ :=
  match msg.op with
  | .GET => 1
  | _ => numWorkers

/-- The index the worker computes; as `uint16_t` it is the same number. -/
def semId (msg : Message) : ℕ := (getHash msg.key : ℕ) / numSections

/-- The worker's message after the call returned or threw. -/
def answered (msg : Message) : HashTable.Reply → Message
  | .ok value => { msg with value := value.getD msg.value, err := 0 }
  | .error err =>
      match err.type with
      | .NoKey => { msg with err := 1 }
      | .NoMemory => { msg with err := 2 }

end Message

/-- The message type a worker receives, its number on the command line. -/
def workerId (w : Fin numWorkers) : ℕ := w + 2

/-! ## Texts -/

/-- What `process_message_from_client` finds in the buffer; it returns 0, -1 and 1 for these. -/
inductive Parsed where
  | blank
  | wrong
  | request (msg : Message)
deriving DecidableEq, Repr

def setWord : Text := ['s', 'e', 't']

def getWord : Text := ['g', 'e', 't']

def delWord : Text := ['d', 'e', 'l']

/-- The fields `sscanf` did not fill and the error are indeterminate in the source; they are 0
here. -/
def processMessageFromClient (buffer : Text) (clientFd : ℕ) (rand : Fin numWorkers) : Parsed :=
  match scanCommand 2 buffer with
  | none => .blank
  | some (cmd, args) =>
      if cmd = setWord ∧ args.length = 2 then
        .request ⟨workerId rand, .SET, args.getD 0 0, args.getD 1 0, 0, clientFd⟩
      else if cmd = getWord ∧ args.length = 1 then
        .request ⟨workerId rand, .GET, args.getD 0 0, 0, 0, clientFd⟩
      else if cmd = delWord ∧ args.length = 1 then
        .request ⟨workerId rand, .DEL, args.getD 0 0, 0, 0, clientFd⟩
      else .wrong

def wrongCommand : Text := "> FAIL: Wrong command or wrong number of params\n".toList

/-- The text for the client; an error number that no worker sends leaves the buffer as it is. -/
def processMessageFromWorker (msg : Message) (buffer : Text) : Text :=
  match msg.err with
  | 0 =>
      if msg.op = .GET then
        ("> DONE: (" ++ toString msg.key ++ " , " ++ toString msg.value ++ ")\n").toList
      else "> DONE\n".toList
  | 1 => ("> FAIL: There is no key " ++ toString msg.key ++ "\n").toList
  | 2 => "> FAIL: There is no more free memory left\n".toList
  | _ => buffer

end SphereMultithreading.Model.P5
