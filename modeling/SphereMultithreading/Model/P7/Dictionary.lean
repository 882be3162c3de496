import SphereMultithreading.Model.P7.Trie
import SphereMultithreading.Model.Stdio

/-! # The dictionary of p7

The constructor of the trie adds the words of a file, a word a line. The file is there and can be read.
-/

namespace SphereMultithreading.Model.P7

open Scanf Stdio

/-- The size of the array that a line is read into. -/
abbrev lineSize : ℕ := 64

namespace Trie

/-- The loop of the constructor, over what is left of the file. The last character of what was read is
overwritten, whatever it is; a string of no characters has none. -/
def loadLoop (t : Trie) (file : Text) : Option (Except TrieError Unit × Trie) :=
  match _ : fgets lineSize file with
  | none => some (.ok (), t)
  | some (piece, rest) =>
      let buffer := cString piece
      if buffer = [] then none
      else
        match t.addNewWord buffer.dropLast with
        | (.error e, t) => some (.error e, t)
        | (.ok (), t) => loadLoop t rest
termination_by file.length
decreasing_by
  refine length_fgets_lt ?_ ‹_›
  decide

/-- `Trie(file_name)`, for the contents of the file. -/
def load (file : Text) : Option (Except TrieError Unit × Trie) := loadLoop new file

end Trie

/-- A dictionary a server has: its constructor has returned. -/
structure Dictionary where
  file : Text
  trie : Trie
  loaded : Trie.load file = some (.ok (), trie)

end SphereMultithreading.Model.P7
