import SphereMultithreading.Model.HashTable

/-! # The hash table of p6

A node holds a value, the time to live it was set with and the time it dies. Every call reads the
clock: `clock i` is its `i`-th reading during the call.
-/

namespace SphereMultithreading.Model.P6

open HashTable

inductive HashTableErrorType where
  | NoKey
  | NoMemory
  | NotExists
deriving DecidableEq, Repr

structure HashTableError where
  type : HashTableErrorType
  message : String
deriving DecidableEq, Repr

def noKey : HashTableError := ⟨.NoKey, "There is no element with such key in hash-table."⟩

def noMemory : HashTableError := ⟨.NoMemory, "There is no more free memory left. Sorry!"⟩

def notExists : HashTableError := ⟨.NotExists, "The element with such key is expired."⟩

/-- What a node holds beside its key and links. -/
structure Entry where
  value : ℤ
  ttl : ℤ
  tDeath : ℤ
deriving DecidableEq, Repr

abbrev HashTable := Memory Entry

/-- The shared memory as `ftruncate` hands it out. -/
def zeroed : HashTable := ⟨fun _ => 0, fun _ => ⟨0, ⟨0, 0, 0⟩, 0, 0⟩⟩

namespace HashTable

def setValue (m : HashTable) (p value : ℤ) : HashTable :=
  m.setData p { (m.pData p).data with value := value }

def setTtl (m : HashTable) (now p ttl : ℤ) : HashTable :=
  m.setData p { (m.pData p).data with tDeath := now + ttl, ttl := ttl }

def isExpired (m : HashTable) (now p : ℤ) : Bool := (m.pData p).data.tDeath < now

def set (m : HashTable) (clock : ℕ → ℤ) (key ttl value : ℤ) :
    Option (Except HashTableError Unit × HashTable) := do
  let p ← m.findNode key
  if p ≠ null then
    let m := setValue m p value
    some (.ok (), setTtl m (clock 0) p ttl)
  else
    match m.getNodeFree with
    | none => some (.error noMemory, m)
    | some (p, m) =>
        let m := m.setKey p key
        let m := setValue m p value
        let m := setTtl m (clock 0) p ttl
        some (.ok (), m.pushFront p (getHash key))

def get (m : HashTable) (clock : ℕ → ℤ) (key : ℤ) :
    Option (Except HashTableError ℤ × HashTable) := do
  let p ← m.findNode key
  if p ≠ null then
    if !isExpired m (clock 0) p then
      let m := setTtl m (clock 1) p (m.pData p).data.ttl
      some (.ok (m.pData p).data.value, m)
    else some (.error notExists, m.setNodeFree p)
  else some (.error noKey, m)

def del (m : HashTable) (clock : ℕ → ℤ) (key : ℤ) :
    Option (Except HashTableError Unit × HashTable) := do
  let p ← m.findNode key
  if p ≠ null then
    if !isExpired m (clock 0) p then some (.ok (), m.setNodeFree p)
    else some (.error notExists, m.setNodeFree p)
  else some (.error noKey, m)

/-- A call of the table. -/
inductive Call where
  | set (key ttl value : ℤ)
  | get (key : ℤ)
  | del (key : ℤ)
deriving DecidableEq, Repr

/-- What a call returns or throws; only `get` returns a value. -/
abbrev Reply := Except HashTableError (Option ℤ)

def call (m : HashTable) (clock : ℕ → ℤ) : Call → Option (Reply × HashTable)
  | .set key ttl value =>
      (m.set clock key ttl value).map fun (result, m) => (result.map fun _ => none, m)
  | .get key => (m.get clock key).map fun (result, m) => (result.map some, m)
  | .del key => (m.del clock key).map fun (result, m) => (result.map fun _ => none, m)

end HashTable

end SphereMultithreading.Model.P6
