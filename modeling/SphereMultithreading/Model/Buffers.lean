import SphereMultithreading.Machine.Arrays
import SphereMultithreading.Model.P5.System
import SphereMultithreading.Model.P6.Worker
import SphereMultithreading.Model.P7.Dictionary
import SphereMultithreading.Model.P7.Server

/-! # The arrays behind a request

From the `recv` to the reply, the servers of p5, p6 and p7 write to arrays of fixed sizes. The events are
those of the other models, with the arrays in place of texts; a write outside an array has no result. What
an array of a function holds at first is indeterminate, and given here. The queue of p5 is left out: its
calls pass `sizeof(Message)` as the size of a text, which is that of `mtype` more than the text has.
-/

namespace SphereMultithreading.Model

open Machine.Arrays Scanf Stdio

/-- What a `recv` delivers that neither fails nor finds the end of the stream. -/
structure Chunk where
  text : Text
  nonempty : text ≠ []
  length_le : text.length ≤ maxBufSize

namespace Buffers

variable {n : ℕ}

/-- The bytes received, and the terminator `buffer[recv_size]`. -/
def receive (buffer : Vector Char n) (chunk : Chunk) : Option (Vector Char n) := do
  let buffer ← writes buffer 0 chunk.text
  write buffer chunk.text.length '\x00'

/-- A string with its terminator, as `sprintf` and the conversion `%s` of `sscanf` store it. -/
def store (a : Vector Char n) (text : Text) : Option (Vector Char n) := writes a 0 (text ++ ['\x00'])

/-- The string an array holds. -/
def string (a : Vector Char n) : Text := cString a.toList

/-- The conversion `%s`; without a word the array is left alone. -/
def scanString (a : Vector Char n) (text : Text) : Option (Vector Char n) :=
  match scanWord text with
  | none => some a
  | some (word, _) => store a word

end Buffers

end SphereMultithreading.Model

namespace SphereMultithreading.Model.P5

open Buffers

abbrev cmdSize : ℕ := 32

abbrev Buffer := Vector Char (maxBufSize + 1)

/-- An event of a client that has sent something: `recv_message_from_client` and
`process_message_from_client`. The text for a refused command is sent from the buffer. -/
def clientEvent (buffer : Buffer) (cmd : Vector Char cmdSize) (chunk : Chunk) (clientFd : ℕ)
    (rand : Fin numWorkers) : Option Buffer := do
  let buffer ← receive buffer chunk
  let _ ← scanString cmd (string buffer)
  match processMessageFromClient (string buffer) clientFd rand with
  | .blank => some buffer
  | .wrong => store buffer wrongCommand
  | .request _ => some buffer

/-- The `sprintf` of `process_message_from_worker`. -/
def replyEvent (buffer : Buffer) (msg : Message) : Option Buffer :=
  match msg.err with
  | 0 | 1 | 2 => store buffer (processMessageFromWorker msg (string buffer))
  | _ => some buffer

end SphereMultithreading.Model.P5

namespace SphereMultithreading.Model.P6

open Buffers

abbrev Buffer := Vector Char (maxBufSize + 1)

/-- The numbers of a query, as `%d` stores them. -/
def Query.stored (int : ℤ → Int32) (query : Query) : Query :=
  ⟨(int query.key).toInt, (int query.value).toInt, (int query.ttl).toInt, query.op⟩

/-- The calls of the table, with what they return or throw. -/
abbrev Table := Query → Except HashTableError (Option Int32)

/-- An event of a client that has sent something. The reply is sent from the buffer. -/
def clientEvent (buffer : Buffer) (cmd : Vector Char cmdSize) (chunk : Chunk) (int : ℤ → Int32)
    (table : Table) : Option Buffer := do
  let buffer ← receive buffer chunk
  let _ ← scanString cmd (string buffer)
  match processQuery (string buffer) with
  | .blank => some buffer
  | .wrong => store buffer wrongCommand
  | .query query =>
      let query := query.stored int
      let reply := (table query).map fun value => value.map Int32.toInt
      store buffer (query.answer reply).toList
  | .overflow => none

end SphereMultithreading.Model.P6

namespace SphereMultithreading.Model.P7

open Buffers Machine.Arrays Scanf

/-- The size of the array in `get_char_index`. -/
abbrev messageSize : ℕ := 256

abbrev Buffer := Vector Char maxBufSize

/-- What `proccess_message_from_client` is given a pointer to. -/
structure Results where
  words : Vector Text numWords
  n : ℕ
  buffer : Buffer
  err : ℤ

/-- The arrays of `proccess_message_from_client` and `get_char_index`. -/
structure Locals where
  start : Vector Char prefixSize
  message : Vector Char messageSize

/-- `get_char_index` writes the text of its exception to an array of its own. -/
def Locals.throw (locals : Locals) (error : TrieError) : Option (Vector Char messageSize) :=
  match error.type with
  | .NoPrefix => some locals.message
  | .NotAllowedSymbol => store locals.message error.message.toList

/-- `proccess_message_from_client`. -/
def lookUp (dict : Trie) (locals : Locals) (results : Results) : Option Results :=
  match scanWord (string results.buffer) with
  | none => some { results with err := -1 }
  | some _ => do
      let start ← scanString locals.start (string results.buffer)
      match ← dict.getWords (string start) with
      | .error error =>
          let _ ← locals.throw error
          let buffer ← store results.buffer ("FAIL: " ++ error.message ++ "\n").toList
          some { results with buffer := buffer, err := 1 }
      | .ok found =>
          let words ← writes results.words 0 found
          let buffer ← store results.buffer "OK\n".toList
          some ⟨words, found.length, buffer, 0⟩

/-- The loop that sends the words, with what has been sent so far. -/
def sendWords (buffer : Buffer) (sent : List Text) : List Text → Option (Buffer × List Text)
  | [] => some (buffer, sent)
  | word :: words => do
      let buffer ← store buffer ("OK: ".toList ++ word ++ "\n".toList)
      sendWords buffer (sent ++ [string buffer]) words

/-- An event of a client that has sent something, with the messages that are sent to it. -/
def clientEvent (dict : Trie) (locals : Locals) (results : Results) (chunk : Chunk) :
    Option (Buffer × List Text) := do
  let buffer ← receive results.buffer chunk
  let results ← lookUp dict locals { results with buffer := buffer }
  if results.err = 0 then
    sendWords results.buffer [string results.buffer] (results.words.toList.take results.n)
  else if results.err = 1 then some (results.buffer, [string results.buffer])
  else some (results.buffer, [])

end SphereMultithreading.Model.P7
