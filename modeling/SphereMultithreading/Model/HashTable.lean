import Mathlib

/-! # The shared memory of the hash tables

p5 and p6 keep their table in one block of shared memory: `p_table` with a head for each bucket
and one more for the free nodes, and `p_data` with the nodes, which are linked by index. The code
that searches a bucket, takes a node from the free list and returns one to it is the same in both,
and so is the layout written by `shared_memory_set`. The programs differ in what a node holds
beside its key, which is the parameter here.

A `NodePtr` is the index it holds, with `-1` for a null one.
-/

namespace SphereMultithreading.Model.HashTable

/-! ## Constants of `HashTable` -/

abbrev hashTableSize : ℕ := 256

abbrev bufferSize : ℕ := 2048

abbrev numSections : ℕ := 8

/-- The index of a null `NodePtr`. -/
abbrev null : ℤ := -1

/-- `std::hash<int>` converts the key to `size_t`. -/
def getHash (key : ℤ) : Fin hashTableSize :=
  ⟨(key % 2 ^ 64).toNat % hashTableSize, Nat.mod_lt _ (by decide)⟩

structure Node (α : Type) where
  key : ℤ
  data : α
  nPrev : ℤ
  nNext : ℤ

structure Memory (α : Type) where
  pTable : Fin (hashTableSize + 1) → ℤ
  pData : ℤ → Node α

namespace Memory

variable {α : Type}

/-- Empty buckets, and all nodes on the free list in the order of their indices. What the nodes
held before stays. -/
def sharedMemorySet (m : Memory α) : Memory α where
  pTable := Fin.snoc (fun _ => null) 0
  pData := fun i =>
    if 0 ≤ i ∧ i < bufferSize then
      { m.pData i with
        nPrev := if 0 < i then i - 1 else null
        nNext := if i < bufferSize - 1 then i + 1 else null }
    else m.pData i

/-! ## `NodePtr` -/

/-- A write through a `NodePtr`; the setters do nothing when it is null. -/
def write (m : Memory α) (p : ℤ) (f : Node α → Node α) : Memory α :=
  if p = null then m else { m with pData := Function.update m.pData p (f (m.pData p)) }

def setKey (m : Memory α) (p key : ℤ) : Memory α := m.write p fun node => { node with key := key }

def setData (m : Memory α) (p : ℤ) (data : α) : Memory α :=
  m.write p fun node => { node with data := data }

def setNext (m : Memory α) (p n : ℤ) : Memory α := m.write p fun node => { node with nNext := n }

def setPrev (m : Memory α) (p n : ℤ) : Memory α := m.write p fun node => { node with nPrev := n }

def getNext (m : Memory α) (p : ℤ) : ℤ := if p = null then null else (m.pData p).nNext

def getPrev (m : Memory α) (p : ℤ) : ℤ := if p = null then null else (m.pData p).nPrev

/-! ## Lists -/

def setHead (m : Memory α) (c : Fin (hashTableSize + 1)) (n : ℤ) : Memory α :=
  { m with pTable := Function.update m.pTable c n }

def getNumFreeNode (m : Memory α) : ℤ := m.pTable (Fin.last hashTableSize)

def setNumFreeNode (m : Memory α) (k : ℤ) : Memory α := m.setHead (Fin.last hashTableSize) k

/-- The loop of `find_node`, for as many nodes as the buffer has. A walk over more of them has met
one twice and does not end; it is answered by `none`. -/
def findLoop (m : Memory α) (key : ℤ) : ℕ → ℤ → Option ℤ
  | 0, _ => none
  | fuel + 1, p =>
      if p ≠ null ∧ (m.pData p).key ≠ key then findLoop m key fuel (m.getNext p) else some p

def findNode (m : Memory α) (key : ℤ) : Option ℤ :=
  m.findLoop key (bufferSize + 1) (m.pTable (getHash key).castSucc)

/-- `none` stands for the exception. -/
def getNodeFree (m : Memory α) : Option (ℤ × Memory α) :=
  let p := m.getNumFreeNode
  if p = null then none
  else
    let pFree := m.getNext p
    some (p, (m.setPrev pFree null).setNumFreeNode pFree)

/-- The loop of `set_node_free`: the first bucket head that is the node gets its successor. -/
def unhook (m : Memory α) (p n : ℤ) : Memory α :=
  match (List.finRange hashTableSize).find? fun i => m.pTable i.castSucc = p with
  | none => m
  | some i => m.setHead i.castSucc n

def setNodeFree (m : Memory α) (p : ℤ) : Memory α :=
  let pPrev := m.getPrev p
  let pNext := m.getNext p
  let m := m.unhook p pNext
  let m := m.setNext pPrev pNext
  let m := m.setPrev pNext pPrev
  let pFree := m.getNumFreeNode
  let m := m.setPrev pFree p
  let m := m.setNext p pFree
  let m := m.setPrev p null
  m.setNumFreeNode p

/-- The last lines of `set`: the node becomes the first one of the bucket. -/
def pushFront (m : Memory α) (p : ℤ) (hash : Fin hashTableSize) : Memory α :=
  let pNext := m.pTable hash.castSucc
  let m := m.setNext p pNext
  let m := m.setPrev pNext p
  m.setHead hash.castSucc p

end Memory

end SphereMultithreading.Model.HashTable
