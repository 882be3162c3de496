import SphereMultithreading.Machine.BoundedMap
import SphereMultithreading.Machine.Chains
import SphereMultithreading.Model.HashTable

/-! # The shared memory represents a bounded map

`Table` is the representation invariant: a chain for every bucket and one for the free nodes,
which together hold every node once, with every key in the bucket of its hash and in one node only.
`Represents` adds what the buckets hold. The operations that p5 and p6 share keep the two:
`Represents.setData` overwrites, `Represents.insert` takes a node from the free list, and
`Represents.setNodeFree` gives one back.
-/

namespace SphereMultithreading.Proofs.HashTable

open Model.HashTable Model.HashTable.Memory Chains

variable {α : Type}

/-- The link fields of all nodes. -/
def links (m : Memory α) : Links ℤ := ⟨fun i => (m.pData i).nNext, fun i => (m.pData i).nPrev⟩

/-- What a node holds beside its links. -/
def entry (m : Memory α) (i : ℤ) : ℤ × α := ((m.pData i).key, (m.pData i).data)

/-! ## What the setters change -/

theorem pData_write (m : Memory α) (p : ℤ) (f : Node α → Node α) (i : ℤ) :
    (m.write p f).pData i = if i = p ∧ p ≠ null then f (m.pData i) else m.pData i := by
  rw [write]
  split
  · next isNull => simp [isNull]
  · next proper =>
    by_cases same : i = p
    · simp [same, proper]
    · simp [same]

@[simp] theorem pTable_write (m : Memory α) (p : ℤ) (f : Node α → Node α) :
    (m.write p f).pTable = m.pTable := by rw [write]; split <;> rfl

section Setters

variable (m : Memory α) (p n : ℤ)

@[simp] theorem pTable_setNext : (m.setNext p n).pTable = m.pTable := pTable_write ..

@[simp] theorem pTable_setPrev : (m.setPrev p n).pTable = m.pTable := pTable_write ..

/-- A setter of one link is the write to that link. -/
@[simp] theorem links_setNext : links (m.setNext p n) = (links m).setNext null p n := by
  rw [Links.setNext, setNext, links]
  simp only [pData_write, apply_ite Node.nNext, apply_ite Node.nPrev, ite_self]
  split
  · next isNull => simp [isNull, links]
  · next proper =>
    ext i
    · simp [proper, Function.update_apply, links]
    · rfl

@[simp] theorem links_setPrev : links (m.setPrev p n) = (links m).setPrev null p n := by
  rw [Links.setPrev, setPrev, links]
  simp only [pData_write, apply_ite Node.nNext, apply_ite Node.nPrev, ite_self]
  split
  · next isNull => simp [isNull, links]
  · next proper =>
    ext i
    · rfl
    · simp [proper, Function.update_apply, links]

/-- A write that keeps key and data changes no entry. -/
private theorem entry_write {f : Node α → Node α}
    (blind : ∀ node, ((f node).key, (f node).data) = (node.key, node.data)) :
    entry (m.write p f) = entry m := by
  funext i
  rw [entry, entry, pData_write]
  split
  · exact blind _
  · rfl

@[simp] theorem entry_setNext : entry (m.setNext p n) = entry m := entry_write m p fun _ => rfl

@[simp] theorem entry_setPrev : entry (m.setPrev p n) = entry m := entry_write m p fun _ => rfl

/-- A write that keeps both links changes no link. -/
private theorem links_write {f : Node α → Node α}
    (blind : ∀ node, ((f node).nNext, (f node).nPrev) = (node.nNext, node.nPrev)) :
    links (m.write p f) = links m := by
  have kept (i : ℤ) : (((m.write p f).pData i).nNext, ((m.write p f).pData i).nPrev) =
      ((m.pData i).nNext, (m.pData i).nPrev) := by
    rw [pData_write]
    split
    · exact blind _
    · rfl
  ext i
  · exact congrArg Prod.fst (kept i)
  · exact congrArg Prod.snd (kept i)

@[simp] theorem links_setKey (key : ℤ) : links (m.setKey p key) = links m :=
  links_write m p fun _ => rfl

@[simp] theorem links_setData (data : α) : links (m.setData p data) = links m :=
  links_write m p fun _ => rfl

@[simp] theorem pTable_setKey (key : ℤ) : (m.setKey p key).pTable = m.pTable := pTable_write ..

@[simp] theorem pTable_setData (data : α) : (m.setData p data).pTable = m.pTable := pTable_write ..

theorem entry_setKey {p : ℤ} (proper : p ≠ null) (key : ℤ) :
    entry (m.setKey p key) = Function.update (entry m) p (key, (m.pData p).data) := by
  funext i
  rw [entry, setKey, pData_write]
  by_cases same : i = p
  · simp [same, proper]
  · simp [same, entry]

theorem entry_setData {p : ℤ} (proper : p ≠ null) (data : α) :
    entry (m.setData p data) = Function.update (entry m) p ((m.pData p).key, data) := by
  funext i
  rw [entry, setData, pData_write]
  by_cases same : i = p
  · simp [same, proper]
  · simp [same, entry]

theorem data_setData {p : ℤ} (proper : p ≠ null) (data : α) :
    ((m.setData p data).pData p).data = data := by
  rw [setData, pData_write, if_pos ⟨rfl, proper⟩]

theorem setData_setData (data data' : α) :
    (m.setData p data).setData p data' = m.setData p data' := by
  rw [setData, setData, setData, write, write, write]
  split
  · rfl
  · simp

/-- Filling a node sets its key and its data. -/
theorem entry_fill {p : ℤ} (proper : p ≠ null) (key : ℤ) (data : α) :
    entry ((m.setKey p key).setData p data) = Function.update (entry m) p (key, data) := by
  have filled : ((m.setKey p key).pData p).key = key := by
    rw [setKey, pData_write, if_pos ⟨rfl, proper⟩]
  rw [entry_setData _ proper, filled, entry_setKey m proper, Function.update_idem]

theorem ne_null_of_getNodeFree {p : ℤ} {m₁ : Memory α} (taken : m.getNodeFree = some (p, m₁)) :
    p ≠ null := by
  rw [getNodeFree] at taken
  split at taken
  · contradiction
  · next proper => cases taken; exact proper

@[simp] theorem links_setHead (c : Fin (hashTableSize + 1)) : links (m.setHead c n) = links m := rfl

@[simp] theorem entry_setHead (c : Fin (hashTableSize + 1)) : entry (m.setHead c n) = entry m := rfl

end Setters

/-! ## The representation invariant -/

/-- Every node is in one chain, and every key in one node, of the bucket of its hash. -/
structure Table (m : Memory α) (chains : Fin (hashTableSize + 1) → List ℤ) : Prop where
  family : Family (links m) null m.pTable chains
  covers : ∀ i, (∃ c, i ∈ chains c) ↔ 0 ≤ i ∧ i < bufferSize
  hashed : ∀ b : Fin hashTableSize, ∀ i ∈ chains b.castSucc, getHash (m.pData i).key = b
  distinct : ∀ b : Fin hashTableSize, ∀ i ∈ chains b.castSucc, ∀ j ∈ chains b.castSucc,
    (m.pData i).key = (m.pData j).key → i = j

namespace Table

variable {m : Memory α} {chains : Fin (hashTableSize + 1) → List ℤ}

/-- No chain has more nodes than the buffer. -/
theorem length_le (table : Table m chains) (c : Fin (hashTableSize + 1)) :
    (chains c).length ≤ bufferSize := by
  have inside : (chains c).toFinset ⊆ Finset.Ico 0 (bufferSize : ℤ) := by
    intro i member
    rw [Finset.mem_Ico]
    exact (table.covers i).mp ⟨c, List.mem_toFinset.mp member⟩
  have bound := Finset.card_le_card inside
  rw [List.toFinset_card_of_nodup (table.family.chain c).nodup, Int.card_Ico] at bound
  simpa using bound

/-- The search walks the rest of a chain and ends. -/
theorem findLoop_eq (table : Table m chains) (key : ℤ) {c : Fin (hashTableSize + 1)}
    {front behind : List ℤ} (cut : chains c = front ++ behind) {fuel : ℕ}
    (enough : behind.length < fuel) :
    m.findLoop key fuel (behind.headD null) =
      some ((behind.find? fun i => (m.pData i).key = key).getD null) := by
  induction behind generalizing front fuel with
  | nil =>
    obtain ⟨fuel, rfl⟩ := Nat.exists_eq_add_of_lt enough
    simp [findLoop]
  | cons i rest ih =>
    obtain ⟨fuel, rfl⟩ : ∃ n, fuel = n + 1 := ⟨fuel - 1, by rw [List.length_cons] at enough; omega⟩
    have proper : i ≠ null := table.family.ne_null (c := c) (by rw [cut]; simp)
    have chain := table.family.chain c
    rw [cut] at chain
    have step : m.getNext i = rest.headD null := by
      rw [getNext, if_neg proper]
      exact chain.next_of_cut
    rw [List.headD_cons, findLoop, step, List.find?_cons]
    by_cases same : (m.pData i).key = key
    · simp [same]
    · have rest : chains c = (front ++ [i]) ++ rest := by simpa using cut
      rw [if_pos ⟨proper, same⟩, ih rest (by simpa using enough)]
      simp [same]

/-- `find_node` ends, at the node of the key if it is stored and at `NULL` otherwise. -/
theorem findNode_cases (table : Table m chains) (key : ℤ) :
    ∃ p, m.findNode key = some p ∧
      (p = null ∧ (∀ i ∈ chains (getHash key).castSucc, (m.pData i).key ≠ key) ∨
        p ∈ chains (getHash key).castSucc ∧ (m.pData p).key = key) := by
  have first := (table.family.chain (getHash key).castSucc).head_eq
  have whole : chains (getHash key).castSucc = [] ++ chains (getHash key).castSucc := rfl
  have walked := table.findLoop_eq key whole
    (Nat.lt_succ_of_le (table.length_le (getHash key).castSucc))
  rw [← first] at walked
  refine ⟨_, walked, ?_⟩
  cases found : (chains (getHash key).castSucc).find? fun i => (m.pData i).key = key with
  | none => exact .inl ⟨rfl, by simpa using List.find?_eq_none.mp found⟩
  | some p => exact .inr ⟨List.mem_of_find?_eq_some found, by simpa using List.find?_some found⟩

/-- Moving a node keeps the table when its key belongs where it goes. -/
private theorem move {m' : Memory α} {p : ℤ} {c d : Fin (hashTableSize + 1)} (table : Table m chains)
    (member : p ∈ chains c) (family : Family (links m') null m'.pTable (moved chains p c d))
    (kept : ∀ i, i ≠ p → entry m' i = entry m i)
    (placed : ∀ b : Fin hashTableSize, b.castSucc = d → getHash (m'.pData p).key = b ∧
      ∀ i ∈ chains b.castSucc, i ≠ p → (m.pData i).key ≠ (m'.pData p).key) :
    Table m' (moved chains p c d) := by
  have mem (e : Fin (hashTableSize + 1)) (i : ℤ) := table.family.mem_moved member d e i
  have key {i : ℤ} (other : i ≠ p) : (m'.pData i).key = (m.pData i).key :=
    congrArg Prod.fst (kept i other)
  refine ⟨family, fun i => ?_, fun b i listed => ?_, fun b i inChain j alsoInChain same => ?_⟩
  · rw [← table.covers]
    simp only [mem]
    constructor
    · rintro ⟨e, ⟨rfl, -⟩ | ⟨-, listed⟩⟩
      · exact ⟨c, member⟩
      · exact ⟨e, listed⟩
    · rintro ⟨e, listed⟩
      by_cases here : i = p
      · exact ⟨d, .inl ⟨here, rfl⟩⟩
      · exact ⟨e, .inr ⟨here, listed⟩⟩
  · rcases (mem _ i).mp listed with ⟨rfl, here⟩ | ⟨other, listed⟩
    · exact (placed b here).1
    · rw [key other]
      exact table.hashed b i listed
  · rcases (mem _ i).mp inChain with ⟨rfl, here⟩ | ⟨other, inChain'⟩ <;>
      rcases (mem _ j).mp alsoInChain with ⟨rfl, here'⟩ | ⟨other', alsoInChain'⟩
    · rfl
    · rw [key other'] at same
      exact absurd same.symm ((placed b here).2 j alsoInChain' other')
    · rw [key other] at same
      exact absurd same ((placed b here').2 i inChain' other)
    · rw [key other, key other'] at same
      exact table.distinct b i inChain' j alsoInChain' same

/-- A write that keeps the keys and all links keeps the table. -/
theorem congr {m' : Memory α} (table : Table m chains) (linked : links m' = links m)
    (heads : m'.pTable = m.pTable) (keys : ∀ i, (m'.pData i).key = (m.pData i).key) :
    Table m' chains := by
  refine ⟨?_, table.covers, ?_, ?_⟩
  · rw [linked, heads]
    exact table.family
  · simpa only [keys] using table.hashed
  · simpa only [keys] using table.distinct

/-- Only the head of the node's own bucket is replaced. -/
private theorem pTable_unhook (table : Table m chains) {p : ℤ} {b : Fin hashTableSize}
    (member : p ∈ chains b.castSucc) (n : ℤ) :
    (m.unhook p n).pTable = Function.update m.pTable b.castSucc
      (if m.pTable b.castSucc = p then n else m.pTable b.castSucc) := by
  rw [unhook]
  split
  · next none =>
    have elsewhere : m.pTable b.castSucc ≠ p := by
      simpa using List.find?_eq_none.mp none b (List.mem_finRange b)
    rw [if_neg elsewhere, Function.update_eq_self]
  · next i found =>
    have head : m.pTable i.castSucc = p := by simpa using List.find?_some found
    have proper : m.pTable i.castSucc ≠ null := head ▸ table.family.ne_null member
    have own : i.castSucc = b.castSucc :=
      table.family.apart _ _ p (head ▸ table.family.head_mem proper) member
    rw [← own, if_pos head]
    rfl

theorem entry_setNodeFree (p : ℤ) : entry (m.setNodeFree p) = entry m := by
  have unhooked (n : ℤ) : entry (m.unhook p n) = entry m := by
    rw [unhook]
    split <;> rfl
  simp only [Memory.setNodeFree, setNumFreeNode, entry_setHead, entry_setPrev, entry_setNext, unhooked]

/-- `set_node_free` moves a stored node to the free list. -/
theorem setNodeFree (table : Table m chains) {p : ℤ} {b : Fin hashTableSize}
    (member : p ∈ chains b.castSucc) :
    Table (m.setNodeFree p) (moved chains p b.castSucc (Fin.last hashTableSize)) := by
  have proper : p ≠ null := table.family.ne_null member
  have apart : Fin.last hashTableSize ≠ b.castSucc := (Fin.castSucc_ne_last b).symm
  refine table.move member ?_ (fun i _ => congrFun (entry_setNodeFree p) i)
    fun c last => absurd last (Fin.castSucc_ne_last c)
  have family := table.family.move member (Fin.last hashTableSize)
  have unhooked (n : ℤ) : links (m.unhook p n) = links m := by
    rw [unhook]
    split <;> rfl
  have heads := table.pTable_unhook member ((links m).next p)
  have prev : m.getPrev p = (links m).prev p := if_neg proper
  have next : m.getNext p = (links m).next p := if_neg proper
  have free : (m.unhook p ((links m).next p)).pTable (Fin.last hashTableSize) =
      m.pTable (Fin.last hashTableSize) := by rw [heads, Function.update_of_ne apart]
  have relinked : links (m.setNodeFree p) =
      ((links m).unlink null p).push null p (m.pTable (Fin.last hashTableSize)) := by
    simp only [Memory.setNodeFree, setNumFreeNode, getNumFreeNode, links_setHead, links_setPrev,
      links_setNext, unhooked, pTable_setPrev, pTable_setNext, prev, next, free]
    rfl
  have reheaded : (m.setNodeFree p).pTable =
      Function.update (m.unhook p ((links m).next p)).pTable (Fin.last hashTableSize) p := by
    simp only [Memory.setNodeFree, setNumFreeNode, Memory.setHead, pTable_setPrev, pTable_setNext,
      next]
  dsimp only at family
  rw [relinked, reheaded, heads]
  rwa [Function.update_of_ne apart] at family

/-- `get_node_free` throws when the free list is empty, else it takes its first node. -/
theorem getNodeFree_cases (table : Table m chains) :
    (m.getNodeFree = none ∧ chains (Fin.last hashTableSize) = []) ∨
    ∃ p m₁, m.getNodeFree = some (p, m₁) ∧ p ∈ chains (Fin.last hashTableSize) ∧
      m.pTable (Fin.last hashTableSize) = p ∧ (links m).prev p = null ∧
      links m₁ = (links m).unlink null p ∧ entry m₁ = entry m ∧
      m₁.pTable = Function.update m.pTable (Fin.last hashTableSize) ((links m).next p) := by
  have chain := table.family.chain (Fin.last hashTableSize)
  have first := chain.head_eq
  cases listed : chains (Fin.last hashTableSize) with
  | nil =>
    rw [listed] at first
    have isNull : m.pTable (Fin.last hashTableSize) = null := first
    exact .inl ⟨by rw [getNodeFree, getNumFreeNode, if_pos isNull], rfl⟩
  | cons p rest =>
    have member : p ∈ chains (Fin.last hashTableSize) := by rw [listed]; exact List.mem_cons_self
    have proper : p ≠ null := table.family.ne_null member
    rw [listed] at first chain
    rw [← List.nil_append (p :: rest)] at chain
    have head : m.pTable (Fin.last hashTableSize) = p := first
    have before : (links m).prev p = null := chain.links_of_cut.1
    have next : m.getNext p = (links m).next p := if_neg proper
    refine .inr ⟨p, (m.setPrev (m.getNext p) null).setNumFreeNode (m.getNext p), ?_,
      List.mem_cons_self, head, before, ?_, ?_, ?_⟩
    · rw [getNodeFree, getNumFreeNode, head, if_neg proper]
    · rw [setNumFreeNode, links_setHead, links_setPrev, Links.unlink, before, next]
      simp [Links.setNext]
    · rw [setNumFreeNode, entry_setHead, entry_setPrev]
    · rw [setNumFreeNode, Memory.setHead, pTable_setPrev, next]

/-- A node taken from the free list and filled is put in front of the bucket of its key. -/
theorem insert (table : Table m chains) {p : ℤ} {m₁ m₂ : Memory α}
    (taken : m.getNodeFree = some (p, m₁)) {key : ℤ} {data : α} (links₂ : links m₂ = links m₁)
    (heads₂ : m₂.pTable = m₁.pTable) (entries : entry m₂ = Function.update (entry m₁) p (key, data))
    (absent : ∀ i ∈ chains (getHash key).castSucc, (m.pData i).key ≠ key) :
    p ∈ chains (Fin.last hashTableSize) ∧
      entry (m₂.pushFront p (getHash key)) = Function.update (entry m) p (key, data) ∧
      Table (m₂.pushFront p (getHash key))
        (moved chains p (Fin.last hashTableSize) (getHash key).castSucc) := by
  rcases table.getNodeFree_cases with ⟨throws, -⟩ | ⟨p', m', taken', member, head, before, linked,
    untouched, heads⟩
  · rw [throws] at taken
    contradiction
  · rw [taken] at taken'
    cases taken'
    rw [untouched] at entries
    have filled : entry (m₂.pushFront p (getHash key)) = Function.update (entry m) p (key, data) := by
      simpa only [pushFront, entry_setHead, entry_setPrev, entry_setNext] using entries
    have key' : ((m₂.pushFront p (getHash key)).pData p).key = key := by
      have here := congrFun filled p
      rw [Function.update_self] at here
      exact congrArg Prod.fst here
    refine ⟨member, filled, table.move member ?_ (fun i other => ?_) fun b own => ?_⟩
    · have proper : p ≠ null := table.family.ne_null member
      have taken := table.family.unlink member
      have family := taken.push proper (table.family.notMem_unlink member)
        (c := (getHash key).castSucc)
      rw [if_pos head, ← heads, ← linked] at family taken
      have apart : p ≠ m₁.pTable (getHash key).castSucc := by
        intro same
        have listed := taken.head_mem (c := (getHash key).castSucc) (same ▸ proper)
        rw [← same] at listed
        exact table.family.notMem_unlink member _ listed
      have first : (links m₁).prev p = null := linked ▸ (links m).prev_unlink_self before
      have relinked : links (m₂.pushFront p (getHash key)) =
          (links m₁).push null p (m₁.pTable (getHash key).castSucc) := by
        rw [Links.push_of_prev_eq_null _ apart first, pushFront, links_setHead, links_setPrev,
          links_setNext, links₂, heads₂]
      have reheaded : (m₂.pushFront p (getHash key)).pTable =
          Function.update m₁.pTable (getHash key).castSucc p := by
        simp only [pushFront, Memory.setHead, pTable_setPrev, pTable_setNext, heads₂]
      rw [relinked, reheaded]
      exact family
    · rw [filled, Function.update_of_ne other]
    · have own : b = getHash key := Fin.castSucc_injective _ own
      subst own
      rw [key']
      exact ⟨rfl, fun i listed _ => absent i listed⟩

/-- The memory says which chains there are. -/
theorem unique {chains' : Fin (hashTableSize + 1) → List ℤ} (table : Table m chains)
    (table' : Table m chains') : chains = chains' :=
  funext fun c => (table.family.chain c).unique (table'.family.chain c)

/-- The chains have all nodes together. -/
theorem sum_length (table : Table m chains) : ∑ c, (chains c).length = bufferSize := by
  have disjoint : Set.PairwiseDisjoint (Finset.univ : Finset (Fin (hashTableSize + 1)))
      fun c => (chains c).toFinset := by
    intro c _ d _ differ
    refine Finset.disjoint_left.mpr fun i inC inD => differ ?_
    exact table.family.apart c d i (List.mem_toFinset.mp inC) (List.mem_toFinset.mp inD)
  have whole : Finset.univ.biUnion (fun c => (chains c).toFinset) = Finset.Ico 0 (bufferSize : ℤ) := by
    ext i
    simpa using table.covers i
  have card := Finset.card_biUnion disjoint
  rw [whole, Int.card_Ico] at card
  rw [Finset.sum_congr rfl fun c _ => (List.toFinset_card_of_nodup (table.family.chain c).nodup).symm, ← card]
  rfl

/-- The nodes in the buckets are those that are not free. -/
theorem stored_iff (table : Table m chains) (i : ℤ) :
    i ∈ chains (getHash (m.pData i).key).castSucc ↔
      (0 ≤ i ∧ i < bufferSize) ∧ i ∉ chains (Fin.last hashTableSize) := by
  constructor
  · intro stored
    refine ⟨(table.covers i).mp ⟨_, stored⟩, fun free => ?_⟩
    exact Fin.castSucc_ne_last _ (table.family.apart _ _ i stored free)
  · rintro ⟨inside, used⟩
    obtain ⟨c, listed⟩ := (table.covers i).mpr inside
    induction c using Fin.lastCases with
    | last => exact absurd listed used
    | cast b => rwa [table.hashed b i listed]

end Table

/-- Indices linked in their order form a chain. -/
private theorem chain_range {L : Links ℤ} {n : ℕ}
    (next : ∀ i ≤ n, L.next i = if i < n then (i : ℤ) + 1 else null)
    (prev : ∀ i ≤ n, L.prev i = if 0 < i then (i : ℤ) - 1 else null) :
    Chain L null 0 ((List.range (n + 1)).map Int.ofNat) := by
  have first : ((List.range (n + 1)).map Int.ofNat).head? = some 0 := by
    rw [List.head?_map, List.head?_range, if_neg (Nat.succ_ne_zero n)]
    rfl
  have last : ((List.range (n + 1)).map Int.ofNat).getLast? = some (n : ℤ) := by
    simp [List.getLast?_range]
  have steps : ((List.range (n + 1)).map Int.ofNat).IsChain (L.Joined null) := by
    rw [List.isChain_map, List.isChain_range_succ]
    intro i inside
    refine ⟨fun _ => ?_, fun _ => ?_⟩
    · rw [Int.ofNat_eq_natCast, next i inside.le, if_pos inside]
      rfl
    · rw [Int.ofNat_eq_natCast, prev (i + 1) inside, if_pos (Nat.succ_pos i)]
      simp
  refine ⟨?_, ?_, List.nodup_range.map fun _ _ => Int.ofNat.inj, ?_⟩
  · rw [List.headD_eq_head?_getD, first, Option.getD_some]
  · refine List.isChain_cons.mpr ⟨fun a here => ?_, List.isChain_append.mpr
      ⟨steps, .singleton _, fun a here b there => ?_⟩⟩
    · rw [List.head?_append, first] at here
      cases here
      exact ⟨fun proper => absurd rfl proper, fun _ => prev 0 (Nat.zero_le n)⟩
    · rw [last] at here
      cases here
      cases there
      refine ⟨fun _ => ?_, fun proper => absurd rfl proper⟩
      rw [next n le_rfl, if_neg (Nat.lt_irrefl n)]
  · intro member
    obtain ⟨i, -, same⟩ := List.mem_map.mp member
    exact (show ¬ (i : ℤ) = -1 by omega) same

private theorem chain_sharedMemorySet (m : Memory α) :
    Chain (links m.sharedMemorySet) null 0 ((List.range bufferSize).map Int.ofNat) := by
  have inside {i : ℕ} (bound : i ≤ 2047) : (0 : ℤ) ≤ i ∧ (i : ℤ) < bufferSize :=
    ⟨Int.natCast_nonneg i, by exact_mod_cast Nat.lt_succ_of_le bound⟩
  refine chain_range (n := 2047) (fun i bound => ?_) (fun i bound => ?_)
  · simp only [links, sharedMemorySet, if_pos (inside bound)]
    exact if_congr (show (i : ℤ) < (2048 : ℕ) - 1 ↔ i < 2047 by omega) rfl rfl
  · simp only [links, sharedMemorySet, if_pos (inside bound)]
    exact if_congr Int.natCast_pos rfl rfl

/-- The freshly laid out memory: empty buckets and all nodes free. -/
theorem table_sharedMemorySet (m : Memory α) :
    Table m.sharedMemorySet (Fin.snoc (fun _ => []) ((List.range bufferSize).map Int.ofNat)) := by
  have bucket (b : Fin hashTableSize) : (Fin.snoc (fun _ => [])
      ((List.range bufferSize).map Int.ofNat) : Fin (hashTableSize + 1) → List ℤ) b.castSucc = [] :=
    Fin.snoc_castSucc ..
  refine ⟨⟨fun c => ?_, fun c d => ?_⟩, fun i => ?_, fun b => ?_, fun b => ?_⟩
  · induction c using Fin.lastCases with
    | last =>
      have head : m.sharedMemorySet.pTable (Fin.last hashTableSize) = 0 := by
        change @Fin.snoc hashTableSize (fun _ => ℤ) (fun _ => null) 0 (Fin.last hashTableSize) = 0
        exact Fin.snoc_last ..
      rw [head, Fin.snoc_last]
      exact chain_sharedMemorySet m
    | cast b =>
      rw [bucket]
      have empty : m.sharedMemorySet.pTable b.castSucc = null := by
        change @Fin.snoc hashTableSize (fun _ => ℤ) (fun _ => null) 0 b.castSucc = null
        exact Fin.snoc_castSucc ..
      rw [empty]
      exact .nil _ _
  · induction c using Fin.lastCases with
    | last =>
      induction d using Fin.lastCases with
      | last => exact fun _ _ _ => rfl
      | cast b => rw [bucket b]; simp
    | cast b => rw [bucket b]; simp
  · constructor
    · rintro ⟨c, listed⟩
      induction c using Fin.lastCases with
      | last =>
        rw [Fin.snoc_last] at listed
        obtain ⟨n, inRange, rfl⟩ := List.mem_map.mp listed
        have := List.mem_range.mp inRange
        exact ⟨Int.natCast_nonneg n, Int.ofNat_lt.mpr this⟩
      | cast b => rw [bucket b] at listed; simp at listed
    · rintro ⟨lower, upper⟩
      refine ⟨Fin.last _, ?_⟩
      rw [Fin.snoc_last]
      exact List.mem_map.mpr ⟨i.toNat, List.mem_range.mpr (by omega), Int.toNat_of_nonneg lower⟩
  · rw [bucket b]; simp
  · rw [bucket b]; simp

/-! ## The represented map -/

/-- The buckets hold the keys and data of the map. -/
def Represents (m : Memory α) (map : BoundedMap ℤ α bufferSize) : Prop :=
  ∃ chains, Table m chains ∧
    ∀ k d, map.lookup k = some d ↔ ∃ i ∈ chains (getHash k).castSucc, entry m i = (k, d)

theorem represents_sharedMemorySet (m : Memory α) : Represents m.sharedMemorySet .empty :=
  ⟨_, table_sharedMemorySet m, by simp⟩

namespace Represents

variable {m m' : Memory α} {map map' : BoundedMap ℤ α bufferSize} {key p : ℤ} {data : α}

/-- What `find_node` returns. -/
theorem findNode_cases (represents : Represents m map) (key : ℤ) :
    (m.findNode key = some null ∧ map.lookup key = none) ∨
    ∃ p, m.findNode key = some p ∧ p ≠ null ∧ (m.pData p).key = key ∧
      map.lookup key = some (m.pData p).data := by
  obtain ⟨chains, table, stores⟩ := represents
  obtain ⟨p, found, ⟨rfl, absent⟩ | ⟨member, rfl⟩⟩ := table.findNode_cases key
  · refine .inl ⟨found, Option.eq_none_iff_forall_not_mem.mpr fun d present => ?_⟩
    obtain ⟨i, listed, holds⟩ := (stores key d).mp present
    exact absent i listed (congrArg Prod.fst holds)
  · exact .inr ⟨p, found, table.family.ne_null member, rfl, (stores _ _).mpr ⟨p, member, rfl⟩⟩

/-- The node that `find_node` returns is the one of the key. -/
private theorem found_node {chains : Fin (hashTableSize + 1) → List ℤ} (table : Table m chains)
    (found : m.findNode key = some p) (proper : p ≠ null) :
    p ∈ chains (getHash key).castSucc ∧ (m.pData p).key = key := by
  obtain ⟨q, found', ⟨isNull, -⟩ | hit⟩ := table.findNode_cases key <;> rw [found] at found' <;>
    cases found'
  · exact absurd isNull proper
  · exact hit

/-- A key is in one node of its bucket. -/
private theorem eq_of_entry {chains : Fin (hashTableSize + 1) → List ℤ} (table : Table m chains)
    {i : ℤ} {d : α} (member : p ∈ chains (getHash key).castSucc) (own : (m.pData p).key = key)
    (listed : i ∈ chains (getHash key).castSucc) (holds : entry m i = (key, d)) : i = p := by
  have same : (m.pData i).key = key := congrArg Prod.fst holds
  exact table.distinct (getHash key) i listed p member (same.trans own.symm)

/-- Writing the data of the node of a key overwrites the value of the key. -/
theorem overwrite (represents : Represents m map) (found : m.findNode key = some p)
    (proper : p ≠ null) (linked : links m' = links m) (heads : m'.pTable = m.pTable)
    (entries : entry m' = Function.update (entry m) p (key, data))
    (inserted : map.insert? key data = some map') : Represents m' map' := by
  obtain ⟨chains, table, stores⟩ := represents
  obtain ⟨member, own⟩ := found_node table found proper
  refine ⟨chains, table.congr linked heads fun i => ?_, fun k d => ?_⟩
  · have written := congrArg Prod.fst (congrFun entries i)
    by_cases here : i = p
    · subst here
      rw [Function.update_self] at written
      exact written.trans own.symm
    · rwa [Function.update_of_ne here] at written
  · rw [BoundedMap.lookup_insert? inserted, entries]
    by_cases same : k = key
    · subst same
      rw [if_pos rfl]
      constructor
      · intro equal
        cases equal
        exact ⟨p, member, by rw [Function.update_self]⟩
      · rintro ⟨i, listed, holds⟩
        by_cases here : i = p
        · rw [here, Function.update_self] at holds
          cases holds
          rfl
        · rw [Function.update_of_ne here] at holds
          exact absurd (eq_of_entry table member own listed holds) here
    · rw [if_neg same, stores]
      refine exists_congr fun i => and_congr_right fun listed => ?_
      by_cases here : i = p
      · subst here
        rw [Function.update_self]
        refine iff_of_false (fun holds => ?_) fun holds => ?_
        · exact same ((congrArg Prod.fst holds).symm.trans own)
        · exact same (congrArg Prod.fst holds).symm
      · rw [Function.update_of_ne here]

/-- Returning the node of a key to the free list erases the key. -/
theorem setNodeFree (represents : Represents m map) (found : m.findNode key = some p)
    (proper : p ≠ null) : Represents (m.setNodeFree p) (map.erase key) := by
  obtain ⟨chains, table, stores⟩ := represents
  obtain ⟨member, own⟩ := found_node table found proper
  refine ⟨_, table.setNodeFree member, fun k d => ?_⟩
  have bucket : (getHash k).castSucc ≠ Fin.last hashTableSize := Fin.castSucc_ne_last _
  simp only [BoundedMap.lookup_erase, table.family.mem_moved member, Table.entry_setNodeFree, bucket,
    and_false, false_or]
  by_cases same : k = key
  · subst same
    rw [if_pos rfl]
    refine iff_of_false (by simp) ?_
    rintro ⟨i, ⟨elsewhere, listed⟩, holds⟩
    exact elsewhere (eq_of_entry table member own listed holds)
  · rw [if_neg same, stores]
    refine exists_congr fun i => and_congr_left fun holds => (and_iff_right ?_).symm
    rintro rfl
    exact same ((congrArg Prod.fst holds).symm.trans own)

/-- Filling a free node and putting it into the bucket of an absent key adds the key. -/
theorem insert (represents : Represents m map) (absent : map.lookup key = none) {m₁ m₂ : Memory α}
    (taken : m.getNodeFree = some (p, m₁)) (links₂ : links m₂ = links m₁)
    (heads₂ : m₂.pTable = m₁.pTable) (entries : entry m₂ = Function.update (entry m₁) p (key, data))
    (inserted : map.insert? key data = some map') :
    Represents (m₂.pushFront p (getHash key)) map' := by
  obtain ⟨chains, table, stores⟩ := represents
  have fresh : ∀ i ∈ chains (getHash key).castSucc, (m.pData i).key ≠ key := by
    rintro i listed rfl
    have present := (stores _ (m.pData i).data).mpr ⟨i, listed, rfl⟩
    rw [absent] at present
    contradiction
  obtain ⟨member, filled, table'⟩ := table.insert taken links₂ heads₂ entries fresh
  refine ⟨_, table', fun k d => ?_⟩
  simp only [BoundedMap.lookup_insert? inserted, table.family.mem_moved member, filled]
  by_cases same : k = key
  · subst same
    rw [if_pos rfl]
    constructor
    · intro equal
      cases equal
      exact ⟨p, .inl ⟨rfl, rfl⟩, by rw [Function.update_self]⟩
    · rintro ⟨i, ⟨rfl, -⟩ | ⟨other, listed⟩, holds⟩
      · rw [Function.update_self] at holds
        cases holds
        rfl
      · rw [Function.update_of_ne other] at holds
        exact absurd (congrArg Prod.fst holds) (fresh i listed)
  · rw [if_neg same, stores]
    have outside : ∀ i ∈ chains (getHash k).castSucc, i ≠ p := by
      rintro i listed rfl
      exact Fin.castSucc_ne_last _ (table.family.apart _ _ i listed member)
    constructor
    · rintro ⟨i, listed, holds⟩
      exact ⟨i, .inr ⟨outside i listed, listed⟩, by rwa [Function.update_of_ne (outside i listed)]⟩
    · rintro ⟨i, ⟨rfl, -⟩ | ⟨other, listed⟩, holds⟩
      · rw [Function.update_self] at holds
        exact absurd (congrArg Prod.fst holds).symm same
      · exact ⟨i, listed, by rwa [Function.update_of_ne other] at holds⟩

/-- Stored keys and free nodes add up to the size of the buffer. -/
private theorem size_add_free {chains : Fin (hashTableSize + 1) → List ℤ} (table : Table m chains)
    (stores : ∀ k d, map.lookup k = some d ↔
      ∃ i ∈ chains (getHash k).castSucc, entry m i = (k, d)) :
    map.size + (chains (Fin.last hashTableSize)).length = bufferSize := by
  have nodup := (table.family.chain (Fin.last hashTableSize)).nodup
  have keys : map.map.keys = (Finset.Ico 0 (bufferSize : ℤ) \
      (chains (Fin.last hashTableSize)).toFinset).image fun i => (m.pData i).key := by
    ext k
    rw [BoundedMap.mem_keys, Option.isSome_iff_exists, Finset.mem_image]
    constructor
    · rintro ⟨d, present⟩
      obtain ⟨i, listed, holds⟩ := (stores k d).mp present
      have own : (m.pData i).key = k := congrArg Prod.fst holds
      rw [← own] at listed
      exact ⟨i, by simpa using (table.stored_iff i).mp listed, own⟩
    · rintro ⟨i, stored, rfl⟩
      have listed := (table.stored_iff i).mpr (by simpa using stored)
      exact ⟨_, (stores _ _).mpr ⟨i, listed, rfl⟩⟩
  have free : (chains (Fin.last hashTableSize)).toFinset ⊆ Finset.Ico 0 (bufferSize : ℤ) := by
    intro i member
    rw [Finset.mem_Ico]
    exact (table.covers i).mp ⟨_, List.mem_toFinset.mp member⟩
  rw [BoundedMap.size, keys, Finset.card_image_of_injOn, Finset.card_sdiff_of_subset free,
    List.toFinset_card_of_nodup nodup, Int.card_Ico]
  · have bound := table.length_le (Fin.last hashTableSize)
    simp only [sub_zero, Int.toNat_natCast]
    omega
  · intro i stored j stored' same
    have listed := (table.stored_iff i).mpr (by simpa using stored)
    have listed' := (table.stored_iff j).mpr (by simpa using stored')
    dsimp only at same
    rw [← same] at listed'
    exact table.distinct _ i listed j listed' same

/-- The free list is empty exactly when the map is full. -/
theorem getNodeFree_eq_none_iff (represents : Represents m map) :
    m.getNodeFree = none ↔ map.size = bufferSize := by
  obtain ⟨chains, table, stores⟩ := represents
  have sum := size_add_free table stores
  rcases table.getNodeFree_cases with ⟨throws, empty⟩ | ⟨p, m₁, taken, member, -⟩
  · rw [empty, List.length_nil, Nat.add_zero] at sum
    exact iff_of_true throws sum
  · have positive := List.length_pos_of_mem member
    exact iff_of_false (by simp [taken]) (by omega)

/-- When the map is full, all nodes are in the buckets. -/
theorem sum_length_of_full (represents : Represents m map) (full : map.size = bufferSize) :
    ∃ chains, Table m chains ∧ ∑ b : Fin hashTableSize, (chains b.castSucc).length = bufferSize := by
  obtain ⟨chains, table, stores⟩ := represents
  have free := size_add_free table stores
  have sum := table.sum_length
  rw [Fin.sum_univ_castSucc] at sum
  exact ⟨chains, table, by omega⟩

end Represents

end SphereMultithreading.Proofs.HashTable
