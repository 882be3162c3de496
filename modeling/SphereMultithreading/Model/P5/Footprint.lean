import SphereMultithreading.Model.P5.HashTable

/-! # The words a call of the p5 table touches

The words of the shared memory are the heads in `p_table` and the nodes in `p_data`. The lists here
follow the operations and name every word that each of them reads or writes; a null `NodePtr` has
none.
-/

namespace SphereMultithreading.Model

open HashTable

inductive HashTable.Word where
  | head (c : Fin (hashTableSize + 1))
  | node (p : ℤ)
deriving DecidableEq

namespace HashTable.Memory

variable {α : Type}

def nodeWords (p : ℤ) : List Word := if p = null then [] else [.node p]

/-- The nodes the loop of `find_node` meets. -/
def findLoopWords (m : Memory α) (key : ℤ) : ℕ → ℤ → List Word
  | 0, _ => []
  | fuel + 1, p =>
      nodeWords p ++
        if p ≠ null ∧ (m.pData p).key ≠ key then findLoopWords m key fuel (m.getNext p) else []

def findNodeWords (m : Memory α) (key : ℤ) : List Word :=
  .head (getHash key).castSucc ::
    m.findLoopWords key (bufferSize + 1) (m.pTable (getHash key).castSucc)

def getNodeFreeWords (m : Memory α) : List Word :=
  .head (Fin.last hashTableSize) ::
    (nodeWords m.getNumFreeNode ++ nodeWords (m.getNext m.getNumFreeNode))

/-- The heads the loop of `set_node_free` reads: those up to the first that is the node. -/
def unhookWords (m : Memory α) (p : ℤ) : List (Fin hashTableSize) → List Word
  | [] => []
  | i :: rest =>
      .head i.castSucc :: if m.pTable i.castSucc = p then [] else unhookWords m p rest

def setNodeFreeWords (m : Memory α) (p : ℤ) : List Word :=
  nodeWords p ++ nodeWords (m.getPrev p) ++ nodeWords (m.getNext p) ++
    m.unhookWords p (List.finRange hashTableSize) ++
    .head (Fin.last hashTableSize) :: nodeWords m.getNumFreeNode

/-- The last lines of `set`; the node itself was touched when it was taken. -/
def pushFrontWords (m : Memory α) (hash : Fin hashTableSize) : List Word :=
  .head hash.castSucc :: nodeWords (m.pTable hash.castSucc)

end HashTable.Memory

namespace P5.HashTable

/-- The words of the operations behind their search, which has found `p`. -/
def foundWords (m : HashTable) (p : ℤ) : Call → List Word
  | .set key _ =>
      if p ≠ null then Memory.nodeWords p
      else m.getNodeFreeWords ++
        if m.getNumFreeNode = null then [] else m.pushFrontWords (getHash key)
  | .get _ => Memory.nodeWords p
  | .del _ => if p ≠ null then m.setNodeFreeWords p else []

def Call.key : Call → ℤ
  | .set key _ => key
  | .get key => key
  | .del key => key

/-- Every word the call reads or writes. -/
def words (m : HashTable) (call : Call) : List Word :=
  m.findNodeWords call.key ++ (m.findNode call.key).elim [] fun p => m.foundWords p call

/-- `set` and `del` change the memory. -/
def Call.writes : Call → Bool
  | .get _ => false
  | _ => true

/-- Two calls touch a common word, and one of them may write. -/
def Conflict (m : HashTable) (call other : Call) : Prop :=
  (call.writes ∨ other.writes) ∧ ∃ word ∈ m.words call, word ∈ m.words other

end P5.HashTable

end SphereMultithreading.Model
