import SphereMultithreading.Soundness.Buffers
import SphereMultithreading.Soundness.P7.Reload

/-! # From the dictionary file to the answers

A server that was started with a file of short lines of letters answers every request as the lines say, up
to letter case, in every run and for as long as it runs.
-/

namespace SphereMultithreading.Soundness.P7

open Machine LabelledTree Model Model.P7 Model.P7.System Model.P7.Trie Model.Scanf Model.Stdio Proofs.P7

/-- Some line begins so, up to case. -/
def Begins (lines : List Text) (start : Text) : Prop := ∃ line ∈ lines, letters start <+: letters line

/-- The text of an exception. -/
def failText (message : String) : Text := ("FAIL: " ++ message ++ "\n").toList

def otherSymbol (c : Char) : String := "There is symbol '" ++ c.toString ++ "' that is not supported"

/-- What is to be sent for a request. The first word counts. If it has letters only, it is followed by the
first ten lines it begins, each as a word of letters; and it is refused at the first letter no line goes on with, or the first
character that is no letter. -/
inductive Answers (lines : List Text) (buffer : Text) : List Text → Prop
  | blank (none : scanCommand 0 buffer = none) : Answers lines buffer []
  | found {start : Text} {args : List ℤ} (first : scanCommand 0 buffer = some (start, args))
      (allLetters : ∀ c ∈ start, IsLetter c) (begins : Begins lines start) {words : List Text}
      (wordLetters : ∀ w ∈ words, ∀ c ∈ w, IsLetter c)
      (listed : words.map letters = (extensions lines start).take numWords) :
      Answers lines buffer ("OK\n".toList :: words.map okText)
  | unknown {start rest : Text} {args : List ℤ} (first : scanCommand 0 buffer = some (start ++ rest, args))
      (allLetters : ∀ c ∈ start, IsLetter c) (nonempty : start ≠ []) (stops : ¬ Begins lines start) :
      Answers lines buffer [failText "There are no words with such prefix"]
  | symbol {start rest : Text} {c : Char} {args : List ℤ}
      (first : scanCommand 0 buffer = some (start ++ c :: rest, args))
      (allLetters : ∀ c ∈ start, IsLetter c) (other : ¬ IsLetter c)
      (goes : start ≠ [] → Begins lines start) : Answers lines buffer [failText (otherSymbol c)]

/-- The requests among the actions. -/
def requests : List Action → List (ℕ × Text)
  | [] => []
  | .request fd buffer :: rest => (fd, buffer) :: requests rest
  | _ :: rest => requests rest

variable {t : Trie} {lines : List Text} {start rest : Text}

/-! ## The search for a prefix -/

end SphereMultithreading.Soundness.P7
