import SphereMultithreading.Model.ClientLoop
import SphereMultithreading.Model.P7.Trie

/-! # The client events of p7

A client sends the beginning of a word and gets the words it is the beginning of. The thread that
looks them up is joined at once.
-/

namespace SphereMultithreading.Model.P7

open Scanf

abbrev prefixSize : ℕ := 256

/-- What a server has beside its clients: the dictionary, and the messages it has sent. -/
structure Server where
  dict : Trie
  sent : List (ℕ × Text)

namespace Server

/-- What `proccess_message_from_client` leaves: nothing to read, an exception, or words. -/
inductive Answer where
  | blank
  | failed (error : TrieError)
  | words (words : List (List Char))

/-- A word that does not fit `buffer_` is undefined. -/
def processMessageFromClient (dict : Trie) (buffer : Text) : Except Fault Answer :=
  match scanCommand 0 buffer with
  | none => .ok .blank
  | some (word, _) =>
      if prefixSize ≤ word.length then .error .undefined
      else
        match dict.getWords word with
        | none => .error .undefined
        | some (.error error) => .ok (.failed error)
        | some (.ok words) => .ok (.words words)

def sendMessages (s : Server) (fd : ℕ) (messages : List Text) : Server :=
  { s with sent := s.sent ++ messages.map fun message => (fd, message) }

/-- The part of `process_client_event` between the `recv` and the test for `EPOLLHUP`. The byte 0
behind as many bytes as the buffer holds is undefined. -/
def handle (s : Server) (fd : ℕ) (buffer : Text) : Except Fault Server :=
  if buffer.length < maxBufSize then
    (processMessageFromClient s.dict buffer).map fun
      | .blank => s
      | .failed error => s.sendMessages fd [("FAIL: " ++ error.message ++ "\n").toList]
      | .words words =>
          s.sendMessages fd
            ("OK\n".toList :: words.map fun word => "OK: ".toList ++ word ++ "\n".toList)
  else .error .undefined

end Server

end SphereMultithreading.Model.P7
