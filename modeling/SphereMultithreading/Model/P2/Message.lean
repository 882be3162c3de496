import SphereMultithreading.Model.Stdio

/-! # The messages of p2

A message is collected in blocks, one for each successful `recv`, until its last block ends with a
newline. The vectors `blocks` and `blocks_size` are one list of texts here.
-/

namespace SphereMultithreading.Model.P2

open Scanf Stdio

abbrev buffSize : ℕ := 1024

structure Message where
  blocks : List Text
deriving DecidableEq, Repr

namespace Message

/-- The message of the default constructor, and of a descriptor that is not in the map. -/
def empty : Message := ⟨[]⟩

def append (msg : Message) (text : Text) : Message := ⟨msg.blocks ++ [text]⟩

def size (msg : Message) : ℕ := msg.blocks.length

def clear (_ : Message) : Message := empty

/-- The loop of the constructor from a string, over the positions in `c_str()`. -/
def split (string : Text) (msg : Message) (i : ℕ) : Message :=
  if i < string.length + 1 then
    let message := string.drop i
    split string (msg.append (message.take (min (strlen message) buffSize))) (i + buffSize)
  else msg
termination_by string.length + 1 - i
decreasing_by
  simp only [buffSize]
  omega

def ofString (string : Text) : Message := split string empty 0

/-- `none` where the code reads behind the end: there is no block, or the last one is empty. -/
def isComplete (msg : Message) : Option Bool :=
  (msg.blocks.getLast?.bind List.getLast?).map fun last => last = '\n'

/-- What `send_message` sends, block by block. -/
def text (msg : Message) : Text := msg.blocks.flatten

@[simp] theorem text_empty : empty.text = [] := rfl

@[simp] theorem text_append (msg : Message) (more : Text) :
    (msg.append more).text = msg.text ++ more := by
  simp [text, append]

/-- A complete message ends with a newline. -/
theorem getLast?_of_isComplete {msg : Message} (complete : msg.isComplete = some true) :
    msg.text.getLast? = some '\n' := by
  obtain ⟨last, found, newline⟩ := Option.map_eq_some_iff.mp complete
  obtain ⟨block, latest, ends⟩ := Option.bind_eq_some_iff.mp found
  rw [text, ← List.dropLast_append_getLast? block latest, List.flatten_append]
  rw [List.flatten_singleton, List.getLast?_append, ends, of_decide_eq_true newline]
  rfl

/-- Where no block is empty, the last byte of the message is looked at. -/
theorem isComplete_of_filled {msg : Message} (filled : [] ∉ msg.blocks) :
    msg.isComplete = msg.text.getLast?.map fun last => decide (last = '\n') := by
  obtain ⟨blocks⟩ := msg
  induction blocks using List.reverseRecOn with
  | nil => rfl
  | append_singleton front block =>
    have nonempty : block ≠ [] := by
      rintro rfl
      exact filled (by simp)
    simp [isComplete, text, List.getLast?_append_of_ne_nil _ nonempty]

theorem isComplete_append (msg : Message) (more : Text) :
    (msg.append more).isComplete = more.getLast?.map fun last => decide (last = '\n') := by
  simp [isComplete, append]

end Message

end SphereMultithreading.Model.P2
