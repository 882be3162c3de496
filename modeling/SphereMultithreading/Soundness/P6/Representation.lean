import SphereMultithreading.Machine.Run
import SphereMultithreading.Proofs.P6.Cleaner

/-! # The shared memory of p6 stays well formed

Every call of a worker and every pass of the cleaner, at whatever times, returns or throws and
leaves all nodes in the chains of the buckets and of the free list, doubly linked, with each key in
the bucket of its hash. In particular every search ends.
-/

namespace SphereMultithreading.Soundness.P6

open Machine Chains Model.HashTable Model.HashTable.Memory Model.P6 Model.P6.HashTable
  Proofs.HashTable Proofs.P6

/-- Following `n_next` from `p` visits the listed nodes and ends in `-1`. -/
def Follows {α : Type} (m : Memory α) : ℤ → List ℤ → Prop
  | p, [] => p = -1
  | p, i :: rest => p = i ∧ p ≠ -1 ∧ Follows m (m.pData i).nNext rest

/-- Following `n_prev` leads back from each listed node to the one before it, and from the first
one to `back`. -/
def Returns {α : Type} (m : Memory α) : ℤ → List ℤ → Prop
  | _, [] => True
  | back, i :: rest => (m.pData i).nPrev = back ∧ Returns m i rest

/-- The chains of all heads hold every node once, are linked both ways, and keep every key in the
bucket of its hash and in one node. -/
structure WellFormed {α : Type} (m : Memory α) (chains : Fin (hashTableSize + 1) → List ℤ) :
    Prop where
  follows : ∀ c, Follows m (m.pTable c) (chains c)
  returns : ∀ c, Returns m (-1) (chains c)
  once : ((List.finRange (hashTableSize + 1)).flatMap chains).Perm
    ((List.range bufferSize).map Int.ofNat)
  hashed : ∀ b : Fin hashTableSize, ∀ i ∈ chains b.castSucc, getHash (m.pData i).key = b
  distinct : ∀ b c : Fin hashTableSize, ∀ i ∈ chains b.castSucc, ∀ j ∈ chains c.castSucc,
    (m.pData i).key = (m.pData j).key → i = j

/-- What the processes do with the memory, with the readings of the clock each call makes. -/
inductive Action where
  | call (call : Call) (clock : ℕ → ℤ)
  | clean (clock : ℕ → ℤ)

/-- A call that runs alone to its return or exception. -/
def step (m : HashTable) : Action → Option HashTable
  | .call call clock => (m.call clock call).map (·.2)
  | .clean clock => clean m clock

private theorem follows_of_chain {α : Type} {m : Memory α} {back p : ℤ} {l : List ℤ}
    (first : p = l.headD null) (proper : null ∉ l)
    (joined : (back :: (l ++ [null])).IsChain ((links m).Joined null)) :
    Follows m p l ∧ Returns m back l := by
  induction l generalizing back p with
  | nil => exact ⟨first, trivial⟩
  | cons i rest ih =>
    obtain ⟨here, tail⟩ := List.isChain_cons_cons.mp joined
    have properHere : i ≠ null := fun same => proper (same ▸ List.mem_cons_self)
    have next : (m.pData i).nNext = rest.headD null := by
      cases rest with
      | nil => exact (List.isChain_cons_cons.mp tail).1.1 properHere
      | cons j rest => exact (List.isChain_cons_cons.mp tail).1.1 properHere
    obtain ⟨follows, returns⟩ := ih next (fun member => proper (List.mem_cons_of_mem i member)) tail
    refine ⟨⟨first, first ▸ properHere, follows⟩, here.2 properHere, returns⟩

/-- The representation invariant spelt out. -/
private theorem wellFormed {α : Type} {m : Memory α} {chains : Fin (hashTableSize + 1) → List ℤ}
    (table : Table m chains) : WellFormed m chains := by
  have chained (c : Fin (hashTableSize + 1)) : Follows m (m.pTable c) (chains c) ∧
      Returns m null (chains c) := by
    have chain := table.family.chain c
    exact follows_of_chain chain.head_eq chain.proper chain.joined
  have nodup : ((List.finRange (hashTableSize + 1)).flatMap chains).Nodup := by
    refine List.nodup_flatMap.mpr ⟨fun c _ => (table.family.chain c).nodup, ?_⟩
    refine (List.nodup_finRange _).imp fun apart i inFirst inSecond => ?_
    exact apart (table.family.apart _ _ i inFirst inSecond)
  refine ⟨fun c => (chained c).1, fun c => (chained c).2, ?_, table.hashed, ?_⟩
  · refine (List.perm_ext_iff_of_nodup nodup (List.nodup_range.map fun _ _ => Int.ofNat.inj)).mpr ?_
    intro i
    simp only [List.mem_flatMap, List.mem_finRange, true_and, table.covers, List.mem_map,
      List.mem_range]
    constructor
    · rintro ⟨lower, upper⟩
      exact ⟨i.toNat, by omega, Int.toNat_of_nonneg lower⟩
    · rintro ⟨n, inside, rfl⟩
      exact ⟨Int.natCast_nonneg n, Int.ofNat_lt.mpr inside⟩
  · intro b c i inFirst j inSecond same
    have own : b = c := by rw [← table.hashed b i inFirst, ← table.hashed c j inSecond, same]
    subst own
    exact table.distinct b i inFirst j inSecond same

/-- The memory has chains that make a table of it. -/
def Valid (m : HashTable) : Prop := ∃ chains, Table m chains

private theorem Table.setData {α : Type} {m : Memory α} {chains : Fin (hashTableSize + 1) → List ℤ}
    (table : Table m chains) (p : ℤ) (data : α) : Table (m.setData p data) chains := by
  refine table.congr (by simp) (by simp) fun i => ?_
  rw [Memory.setData, pData_write]
  split <;> rfl

/-- A call of a worker returns or throws, and leaves a table. -/
theorem call_valid {m : HashTable} (valid : Valid m) (clock : ℕ → ℤ) (call : Call) :
    ∃ reply next, m.call clock call = some (reply, next) ∧ Valid next := by
  obtain ⟨chains, table⟩ := valid
  cases call with
  | set key ttl value =>
    obtain ⟨p, found, ⟨rfl, absent⟩ | ⟨member, -⟩⟩ := table.findNode_cases key
    · cases taken : m.getNodeFree with
      | none =>
        refine ⟨.error noMemory, m, ?_, chains, table⟩
        simp [HashTable.call, HashTable.set, found, taken, Except.map]
      | some result =>
        obtain ⟨p, m₁⟩ := result
        have proper := ne_null_of_getNodeFree m taken
        have inserted := table.insert taken (by simp) (by simp)
          (entry_fill m₁ proper key ⟨value, ttl, clock 0 + ttl⟩) absent
        refine ⟨.ok none, _, ?_, _, inserted.2.2⟩
        simp [HashTable.call, HashTable.set, found, taken, Except.map, setTtl, setValue,
          data_setData, setData_setData, proper]
    · have proper := table.family.ne_null member
      refine ⟨.ok none, _, ?_, chains, Table.setData table p ⟨value, ttl, clock 0 + ttl⟩⟩
      simp [HashTable.call, HashTable.set, found, proper, Except.map, setTtl, setValue,
        data_setData, setData_setData]
  | get key =>
    obtain ⟨p, found, ⟨rfl, absent⟩ | ⟨member, -⟩⟩ := table.findNode_cases key
    · refine ⟨.error noKey, m, ?_, chains, table⟩
      simp [HashTable.call, HashTable.get, found, Except.map]
    · have proper := table.family.ne_null member
      cases expired : isExpired m (clock 0) p with
      | true =>
        refine ⟨.error notExists, _, ?_, _, table.setNodeFree member⟩
        simp [HashTable.call, HashTable.get, found, proper, expired, Except.map]
      | false =>
        refine ⟨.ok (some (m.pData p).data.value), _, ?_, chains, Table.setData table p
          { (m.pData p).data with tDeath := clock 1 + (m.pData p).data.ttl }⟩
        simp [HashTable.call, HashTable.get, found, proper, expired, Except.map, setTtl,
          data_setData]
  | del key =>
    obtain ⟨p, found, ⟨rfl, absent⟩ | ⟨member, -⟩⟩ := table.findNode_cases key
    · refine ⟨.error noKey, m, ?_, chains, table⟩
      simp [HashTable.call, HashTable.del, found, Except.map]
    · have proper := table.family.ne_null member
      cases expired : isExpired m (clock 0) p with
      | true =>
        refine ⟨.error notExists, _, ?_, _, table.setNodeFree member⟩
        simp [HashTable.call, HashTable.del, found, proper, expired, Except.map]
      | false =>
        refine ⟨.ok none, _, ?_, _, table.setNodeFree member⟩
        simp [HashTable.call, HashTable.del, found, proper, expired, Except.map]

private theorem cleanSection_valid (clock : ℕ → ℤ) (j i : ℕ) {m : HashTable} (valid : Valid m)
    (tick : ℕ) : ∃ i' m' tick', cleanSection clock j i m tick = some (i', m', tick') ∧ Valid m' := by
  induction remaining : numSections - i generalizing i m tick with
  | zero =>
    rw [cleanSection, dif_neg (by omega)]
    exact ⟨i, m, tick, rfl, valid⟩
  | succ n ih =>
    rw [cleanSection]
    split
    · next inside =>
      obtain ⟨chains, table⟩ := valid
      let b : Fin hashTableSize := ⟨i, inside.2.trans (by decide)⟩
      obtain ⟨m', tick', chains', walked, table', -⟩ := cleanBucket_spec table clock b tick
      obtain ⟨i', m'', tick'', cleaned, valid''⟩ := ih (i + 1) ⟨chains', table'⟩ tick' (by omega)
      refine ⟨i', m'', tick'', ?_, valid''⟩
      change (cleanBucket clock (bufferSize + 1) m (m.pTable b.castSucc) tick).bind _ = _
      rw [walked]
      exact cleaned
    · exact ⟨i, m, tick, rfl, valid⟩

private theorem cleanSections_valid (clock : ℕ → ℤ) (js : List ℕ) (i : ℕ) {m : HashTable}
    (valid : Valid m) (tick : ℕ) :
    ∃ next, cleanSections clock js i m tick = some next ∧ Valid next := by
  induction js generalizing i m tick with
  | nil => exact ⟨m, rfl, valid⟩
  | cons j js ih =>
    obtain ⟨i', m', tick', cleaned, valid'⟩ := cleanSection_valid clock j i valid tick
    obtain ⟨next, rest, kept⟩ := ih i' valid' tick'
    refine ⟨next, ?_, kept⟩
    rw [cleanSections, cleaned]
    exact rest

theorem step_valid {m : HashTable} (valid : Valid m) (action : Action) :
    ∃ next, step m action = some next ∧ Valid next := by
  cases action with
  | call call clock =>
    obtain ⟨reply, next, called, valid'⟩ := call_valid valid clock call
    exact ⟨next, by rw [step, called]; rfl, valid'⟩
  | clean clock => exact cleanSections_valid clock (List.range numSections) 0 valid 0

/-- Every sequence of calls and cleanings, at any times, goes through and leaves the memory well
formed. -/
theorem memory_wellFormed (memory : HashTable) (actions : List Action) : ∃ m,
    run step memory.sharedMemorySet actions = some m ∧ ∃ chains, WellFormed m chains := by
  have initial : Valid memory.sharedMemorySet := ⟨_, table_sharedMemorySet memory⟩
  obtain ⟨m, ran, chains, table⟩ :=
    run_total (fun m action valid => step_valid valid action) initial actions
  exact ⟨m, ran, chains, wellFormed table⟩

end SphereMultithreading.Soundness.P6
