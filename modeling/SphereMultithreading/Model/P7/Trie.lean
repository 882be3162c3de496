import Mathlib

/-! # The trie of p7

Nodes live on a heap and are named by the order of their creation; two pointers are equal when the
names are. A C string is the list of its characters before the terminator. What a call leaves on
the heap when it throws is returned beside the exception.
-/

namespace SphereMultithreading.Model.P7

/-- `NUM_LATIN_LETTERS`. -/
abbrev numLatinLetters : ℕ := 26

/-- `Trie::NUM_WORDS`. -/
abbrev numWords : ℕ := 10

inductive TrieErrorType where
  | NoPrefix
  | NotAllowedSymbol
deriving DecidableEq, Repr

structure TrieError where
  type : TrieErrorType
  message : String
deriving DecidableEq, Repr

structure Node where
  pNext : Fin numLatinLetters → Option ℕ
  isFinal : Bool
  c : Char

/-- The nodes created so far are those below `size`. -/
structure Trie where
  heap : ℕ → Node
  size : ℕ

namespace Trie

/-- `p_head`, the first node created. -/
abbrev pHead : ℕ := 0

/-- `c - first`, for the letters of one case. -/
def distance (c first : Char) : Fin numLatinLetters := Fin.ofNat _ (c.toNat - first.toNat)

def getCharIndex (c : Char) : Except TrieError (Fin numLatinLetters) :=
  if 'a' ≤ c ∧ c ≤ 'z' then .ok (distance c 'a')
  else if 'A' ≤ c ∧ c ≤ 'Z' then .ok (distance c 'A')
  else .error ⟨.NotAllowedSymbol, "There is symbol '" ++ c.toString ++ "' that is not supported"⟩

def noPrefix : TrieError := ⟨.NoPrefix, "There are no words with such prefix"⟩

/-- A node without children. -/
def blank (c : Char) : Node := ⟨fun _ => none, false, c⟩

def getNewNode (t : Trie) (c : Char) : ℕ × Trie :=
  (t.size, ⟨Function.update t.heap t.size (blank c), t.size + 1⟩)

/-- The constructor creates the head, with the character 0. -/
def new : Trie := (getNewNode ⟨fun _ => blank '\x00', 0⟩ '\x00').2

def setNext (t : Trie) (p : ℕ) (i : Fin numLatinLetters) (q : ℕ) : Trie :=
  let node := { t.heap p with pNext := Function.update (t.heap p).pNext i (some q) }
  { t with heap := Function.update t.heap p node }

def setFinal (t : Trie) (p : ℕ) : Trie :=
  let node := { t.heap p with isFinal := true }
  { t with heap := Function.update t.heap p node }

/-! ## `add_new_word` -/

/-- The loop of `add_new_word`, over the characters not yet read. -/
def addLoop (t : Trie) (p : ℕ) : List Char → Except TrieError Unit × Trie
  | [] => (.ok (), t.setFinal p)
  | ch :: rest =>
      match getCharIndex ch with
      | .error e => (.error e, t)
      | .ok i =>
          match (t.heap p).pNext i with
          | some q => addLoop t q rest
          | none =>
              let (q, t) := t.getNewNode ch
              addLoop (t.setNext p i q) q rest

def addNewWord (t : Trie) (word : List Char) : Except TrieError Unit × Trie :=
  t.addLoop pHead word

/-! ## `get_words` -/

/-- The loop of `get_node_prefix`. -/
def prefixLoop (t : Trie) (p : ℕ) : List Char → Except TrieError ℕ
  | [] => .ok p
  | ch :: rest =>
      match getCharIndex ch with
      | .error e => .error e
      | .ok i =>
          match (t.heap p).pNext i with
          | some q => prefixLoop t q rest
          | none => .error noPrefix

def getNodePrefix (t : Trie) (start : List Char) : Except TrieError ℕ := t.prefixLoop pHead start

/-- One round of the loop over the children: the last child not yet visited goes on the stacks. -/
def pushChild (node : Node) (tops : List ℕ × List Bool) (i : Fin numLatinLetters) :
    List ℕ × List Bool :=
  match node.pNext i.rev with
  | none => tops
  | some q => (q :: tops.1, false :: tops.2)

/-- The loop of `get_words`, for a number of rounds: the stacks of nodes and of marks, the word
spelt by the path to the top, and the words found. `none` when the rounds do not suffice, or when
the marks run out before the nodes. -/
def wordsLoop (t : Trie) :
    ℕ → List ℕ → List Bool → List Char → List (List Char) → Option (List (List Char))
  | 0, _, _, _, _ => none
  | _ + 1, [], _, _, words => some words
  | _ + 1, _ :: _, [], _, _ => none
  | fuel + 1, _ :: nodes, true :: isVisited, word, words =>
      wordsLoop t fuel nodes isVisited word.dropLast words
  | fuel + 1, p :: nodes, false :: isVisited, word, words =>
      let node := t.heap p
      let word := word ++ [node.c]
      let words := if node.isFinal then words ++ [word] else words
      if node.isFinal ∧ words.length = numWords then some words
      else
        let tops := (List.finRange numLatinLetters).foldl (pushChild node)
          (p :: nodes, true :: isVisited)
        if tops.1.head? = some p then
          wordsLoop t fuel tops.1.tail tops.2.tail word.dropLast words
        else wordsLoop t fuel tops.1 tops.2 word words

/-- Every node comes to the top twice at most. An empty prefix, of which the source has undefined behaviour
remove the last character, stays empty here. -/
def getWords (t : Trie) (start : List Char) : Option (Except TrieError (List (List Char))) :=
  let word := start.dropLast
  match t.getNodePrefix start with
  | .error e => some (.error e)
  | .ok p => (t.wordsLoop (2 * t.size + 1) [p] [false] word []).map .ok

/-! ## The destructor -/

/-- What the destructor does with a node: it looks for children, or deletes it. -/
inductive Access where
  | read (p : ℕ)
  | delete (p : ℕ)
deriving DecidableEq, Repr

/-- The loop of the destructor, for a number of rounds: the stacks of nodes and of marks, and the accesses
so far. `none` when the rounds do not suffice, or when the marks run out before the nodes. -/
def deleteLoop (t : Trie) : ℕ → List ℕ → List Bool → List Access → Option (List Access)
  | 0, _, _, _ => none
  | _ + 1, [], _, accesses => some accesses
  | _ + 1, _ :: _, [], _ => none
  | fuel + 1, p :: nodes, true :: isVisited, accesses =>
      deleteLoop t fuel nodes isVisited (accesses ++ [.delete p])
  | fuel + 1, p :: nodes, false :: isVisited, accesses =>
      let accesses := accesses ++ [.read p]
      let tops := (List.finRange numLatinLetters).foldl (pushChild (t.heap p))
        (p :: nodes, true :: isVisited)
      if tops.1.head? = some p then
        deleteLoop t fuel tops.1.tail tops.2.tail (accesses ++ [.delete p])
      else deleteLoop t fuel tops.1 tops.2 accesses

/-- Every node comes to the top twice at most. -/
def destroy (t : Trie) : Option (List Access) :=
  t.deleteLoop (2 * t.size + 1) [pHead] [false] []

end Trie

end SphereMultithreading.Model.P7
