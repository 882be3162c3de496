import SphereMultithreading.Model.HashTable

/-! # The hash table of p5

A node holds a key and a value. Each operation returns or throws, and its effect on the shared
memory is the second component; `none` stands for a search that does not end.
-/

namespace SphereMultithreading.Model.P5

open HashTable

inductive HashTableErrorType where
  | NoKey
  | NoMemory
deriving DecidableEq, Repr

structure HashTableError where
  type : HashTableErrorType
  message : String
deriving DecidableEq, Repr

def noKey : HashTableError := ⟨.NoKey, "There is no element with such key in hash-table."⟩

def noMemory : HashTableError := ⟨.NoMemory, "There is no more free memory left. Sorry!"⟩

/-- The shared memory; the data of a node is its value. -/
abbrev HashTable := Memory ℤ

namespace HashTable

def set (m : HashTable) (key value : ℤ) : Option (Except HashTableError Unit × HashTable) := do
  let p ← m.findNode key
  if p ≠ null then some (.ok (), m.setData p value)
  else
    match m.getNodeFree with
    | none => some (.error noMemory, m)
    | some (p, m) =>
        let m := m.setKey p key
        let m := m.setData p value
        some (.ok (), m.pushFront p (getHash key))

def get (m : HashTable) (key : ℤ) : Option (Except HashTableError ℤ) := do
  let p ← m.findNode key
  if p ≠ null then some (.ok (m.pData p).data) else some (.error noKey)

def del (m : HashTable) (key : ℤ) : Option (Except HashTableError Unit × HashTable) := do
  let p ← m.findNode key
  if p ≠ null then some (.ok (), m.setNodeFree p) else some (.error noKey, m)

/-- A call of the table. -/
inductive Call where
  | set (key value : ℤ)
  | get (key : ℤ)
  | del (key : ℤ)
deriving DecidableEq, Repr

/-- What a call returns or throws; only `get` returns a value. -/
abbrev Reply := Except HashTableError (Option ℤ)

def step (m : HashTable) : Call → Option (Reply × HashTable)
  | .set key value => (m.set key value).map fun (result, m) => (result.map fun _ => none, m)
  | .get key => (m.get key).map fun result => (result.map some, m)
  | .del key => (m.del key).map fun (result, m) => (result.map fun _ => none, m)

end HashTable

end SphereMultithreading.Model.P5
