import SphereMultithreading.Model.P6.HashTable

/-! # The cleaner of p6

`clean` walks buckets and returns expired nodes to the free list, section by section; the
semaphore it holds meanwhile is not part of the memory. Its two loops share the bucket index `i`,
and the readings of the clock are counted by `tick`.
-/

namespace SphereMultithreading.Model.P6.HashTable

open Model.HashTable Model.HashTable.Memory

/-- The `while` loop of `clean`, for as many nodes as the buffer has. The successor is read before
the node is returned. -/
def cleanBucket (clock : ℕ → ℤ) : ℕ → HashTable → ℤ → ℕ → Option (HashTable × ℕ)
  | 0, _, _, _ => none
  | fuel + 1, m, p, tick =>
      if p = null then some (m, tick)
      else
        let pNodeFree := p
        let p := m.getNext p
        if isExpired m (clock tick) pNodeFree then
          cleanBucket clock fuel (m.setNodeFree pNodeFree) p (tick + 1)
        else cleanBucket clock fuel m p (tick + 1)

/-- The inner `for` loop of `clean`. -/
def cleanSection (clock : ℕ → ℤ) (j i : ℕ) (m : HashTable) (tick : ℕ) :
    Option (ℕ × HashTable × ℕ) :=
  if inside : i / numSections = j ∧ i < numSections then do
    let head := m.pTable ⟨i, inside.2.trans (by decide)⟩
    let (m, tick) ← cleanBucket clock (bufferSize + 1) m head tick
    cleanSection clock j (i + 1) m tick
  else some (i, m, tick)
termination_by numSections - i

/-- The outer `for` loop of `clean`, over the sections not yet visited. -/
def cleanSections (clock : ℕ → ℤ) : List ℕ → ℕ → HashTable → ℕ → Option HashTable
  | [], _, m, _ => some m
  | j :: rest, i, m, tick => do
      let (i, m, tick) ← cleanSection clock j i m tick
      cleanSections clock rest i m tick

def clean (m : HashTable) (clock : ℕ → ℤ) : Option HashTable :=
  cleanSections clock (List.range numSections) 0 m 0

end SphereMultithreading.Model.P6.HashTable
