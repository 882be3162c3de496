import SphereMultithreading.Proofs.P5.Footprint

/-! # When two calls of the p5 table share a word

On a well-formed table every word is the head or a node of one list. A call reaches the bucket of
its key, the free list if it takes or returns a node, and the heads that the loop of
`set_node_free` reads.
-/

namespace SphereMultithreading.Proofs.P5

open Model Model.HashTable Model.HashTable.Memory Model.P5 Model.P5.HashTable Proofs.HashTable

variable {m m' : Model.P5.HashTable} {call other : Call} {word : Word}

/-! ## Keys and buckets -/

/-- The search finds a node of the key. -/
def Stored (m : Model.P5.HashTable) (key : ℤ) : Prop := ∃ p, m.findNode key = some p ∧ p ≠ null

/-- The call takes a node from the free list, or tries to, or returns one to it. -/
def UsesFreeList (m : Model.P5.HashTable) : Call → Prop
  | .set key _ => ¬ Stored m key
  | .get _ => False
  | .del key => Stored m key

/-- The call deletes a node, and no bucket before this one has the node as its head: the loop of
`set_node_free` reads this one. -/
def Unhooks (m : Model.P5.HashTable) (b : Fin hashTableSize) : Call → Prop
  | .del key => ∃ p, m.findNode key = some p ∧ p ≠ null ∧ ∀ j < b, m.pTable j.castSucc ≠ p
  | _ => False

/-- One of the calls may write, and they come to the same list. -/
def Clash (m : Model.P5.HashTable) (call other : Call) : Prop :=
  (call.writes ∨ other.writes) ∧
    (getHash call.key = getHash other.key ∨ (UsesFreeList m call ∧ UsesFreeList m other) ∨
      Unhooks m (getHash other.key) call ∨ Unhooks m (getHash call.key) other)

theorem Unhooks.usesFreeList {b : Fin hashTableSize} (unhooks : Unhooks m b call) :
    UsesFreeList m call := by
  cases call with
  | del key =>
    obtain ⟨p, found, proper, -⟩ := unhooks
    exact ⟨p, found, proper⟩
  | _ => exact unhooks.elim

theorem mem_unhookWords {α : Type} (m : Memory α) {word : Word} {p : ℤ}
    {buckets : List (Fin hashTableSize)} (sorted : buckets.Pairwise (· < ·)) :
    word ∈ m.unhookWords p buckets ↔ ∃ i ∈ buckets, word = .head i.castSucc ∧
      ∀ j ∈ buckets, j < i → m.pTable j.castSucc ≠ p := by
  induction buckets with
  | nil => simp [unhookWords]
  | cons i rest ih =>
    obtain ⟨least, sorted⟩ := List.pairwise_cons.mp sorted
    rw [unhookWords, List.mem_cons]
    constructor
    · rintro (rfl | later)
      · refine ⟨i, List.mem_cons_self, rfl, ?_⟩
        rintro j (_ | ⟨_, member⟩) below
        · exact absurd below (lt_irrefl _)
        · exact absurd below (least j member).not_gt
      · by_cases here : m.pTable i.castSucc = p
        · rw [if_pos here] at later
          cases later
        · rw [if_neg here] at later
          obtain ⟨k, member, rfl, clear⟩ := (ih sorted).mp later
          refine ⟨k, List.mem_cons_of_mem _ member, rfl, ?_⟩
          rintro j (_ | ⟨_, listed⟩) below
          · exact here
          · exact clear j listed below
    · rintro ⟨k, member, rfl, clear⟩
      rcases List.mem_cons.mp member with rfl | member
      · exact .inl rfl
      · right
        rw [if_neg (clear i List.mem_cons_self (least k member))]
        exact (ih sorted).mpr ⟨k, member, rfl,
          fun j listed below => clear j (List.mem_cons_of_mem _ listed) below⟩

section Lists

variable {chains : Fin (hashTableSize + 1) → List ℤ} (table : Table m chains)

/-! ## The words a call certainly touches -/

theorem head_mem_words (m : Model.P5.HashTable) (call : Call) :
    .head (getHash call.key).castSucc ∈ m.words call :=
  List.mem_append_left _ List.mem_cons_self

include table in
theorem last_mem_words (uses : UsesFreeList m call) :
    .head (Fin.last hashTableSize) ∈ m.words call := by
  apply List.mem_append_right
  cases call with
  | set key value =>
    obtain ⟨p, found, outcome⟩ := table.findNode_cases key
    have absent : p = null := by
      by_contra proper
      exact uses ⟨p, found, proper⟩
    simp [Call.key, found, foundWords, absent, getNodeFreeWords]
  | get key => exact uses.elim
  | del key =>
    obtain ⟨p, found, proper⟩ := uses
    simp [Call.key, found, foundWords, proper, setNodeFreeWords]

theorem unhooked_mem_words {b : Fin hashTableSize} (unhooks : Unhooks m b call) :
    .head b.castSucc ∈ m.words call := by
  apply List.mem_append_right
  cases call with
  | del key =>
    obtain ⟨p, found, proper, clear⟩ := unhooks
    have read : .head b.castSucc ∈ m.unhookWords p (List.finRange hashTableSize) :=
      (mem_unhookWords m (List.pairwise_lt_finRange _)).mpr
        ⟨b, List.mem_finRange b, rfl, fun j _ below => clear j below⟩
    simp [Call.key, found, foundWords, proper, setNodeFreeWords, read]
  | _ => exact unhooks.elim

/-! ## The lists a call comes to -/

/-- The word is the head or a node of the list. -/
def InList (chains : Fin (hashTableSize + 1) → List ℤ) (c : Fin (hashTableSize + 1)) :
    Word → Prop
  | .head d => d = c
  | .node p => p ∈ chains c

/-- The lists whose words a call may touch. -/
def Reaches (m : Model.P5.HashTable) (call : Call) (c : Fin (hashTableSize + 1)) : Prop :=
  c = (getHash call.key).castSucc ∨ (c = Fin.last hashTableSize ∧ UsesFreeList m call) ∨
    ∃ b : Fin hashTableSize, c = b.castSucc ∧ Unhooks m b call

include table

theorem inList_unique {c d : Fin (hashTableSize + 1)} (first : InList chains c word)
    (second : InList chains d word) : c = d := by
  cases word with
  | head e => exact first.symm.trans second
  | node p => exact table.family.apart c d p first second

omit table in
theorem inList_nodeWords {c : Fin (hashTableSize + 1)} {p : ℤ} (listed : p ≠ null → p ∈ chains c)
    (member : word ∈ nodeWords p) : InList chains c word := by
  obtain ⟨proper, rfl⟩ := mem_nodeWords.mp member
  exact listed proper

theorem next_mem {c : Fin (hashTableSize + 1)} {p : ℤ} (member : p ∈ chains c)
    (proper : m.getNext p ≠ null) : m.getNext p ∈ chains c := by
  rw [getNext, if_neg (table.family.ne_null member)] at proper ⊢
  exact ((table.family.chain c).links_mem member).2 proper

theorem prev_mem {c : Fin (hashTableSize + 1)} {p : ℤ} (member : p ∈ chains c)
    (proper : m.getPrev p ≠ null) : m.getPrev p ∈ chains c := by
  rw [getPrev, if_neg (table.family.ne_null member)] at proper ⊢
  exact ((table.family.chain c).links_mem member).1 proper

theorem inList_findLoopWords {c : Fin (hashTableSize + 1)} {key : ℤ} {fuel : ℕ} {p : ℤ}
    (listed : p ≠ null → p ∈ chains c) (member : word ∈ m.findLoopWords key fuel p) :
    InList chains c word := by
  induction fuel generalizing p with
  | zero => cases member
  | succ fuel ih =>
    rw [findLoopWords, List.mem_append] at member
    rcases member with here | later
    · exact inList_nodeWords listed here
    · split at later
      · rename_i further
        exact ih (next_mem table (listed further.1)) later
      · cases later

theorem inList_findNodeWords {key : ℤ} (member : word ∈ m.findNodeWords key) :
    InList chains (getHash key).castSucc word := by
  rcases List.mem_cons.mp member with rfl | member
  · rfl
  · exact inList_findLoopWords table (table.family.head_mem (c := (getHash key).castSucc)) member

theorem inList_getNodeFreeWords (member : word ∈ m.getNodeFreeWords) :
    InList chains (Fin.last hashTableSize) word := by
  have first : m.getNumFreeNode ≠ null → m.getNumFreeNode ∈ chains (Fin.last hashTableSize) :=
    table.family.head_mem
  simp only [getNodeFreeWords, List.mem_cons, List.mem_append] at member
  rcases member with rfl | here | next
  · rfl
  · exact inList_nodeWords first here
  · apply inList_nodeWords _ next
    intro proper
    apply next_mem table _ proper
    apply first
    intro isNull
    exact proper (if_pos isNull)

/-- The words behind the search: those of the bucket, of the free list, and the heads read by the
loop of `set_node_free`. -/
theorem mem_setNodeFreeWords {c : Fin (hashTableSize + 1)} {p : ℤ} (listed : p ∈ chains c)
    (member : word ∈ m.setNodeFreeWords p) : InList chains c word ∨
      InList chains (Fin.last hashTableSize) word ∨
      ∃ b : Fin hashTableSize, word = .head b.castSucc ∧ ∀ j < b, m.pTable j.castSucc ≠ p := by
  simp only [setNodeFreeWords, List.mem_append, List.mem_cons] at member
  rcases member with (((own | prev) | next) | heads) | rfl | free
  · exact .inl (inList_nodeWords (fun _ => listed) own)
  · exact .inl (inList_nodeWords (prev_mem table listed) prev)
  · exact .inl (inList_nodeWords (next_mem table listed) next)
  · obtain ⟨b, -, rfl, clear⟩ := (mem_unhookWords m (List.pairwise_lt_finRange _)).mp heads
    exact .inr (.inr ⟨b, rfl, fun j below => clear j (List.mem_finRange j) below⟩)
  · exact .inr (.inl rfl)
  · exact .inr (.inl (inList_nodeWords table.family.head_mem free))

/-- Every word a call touches is of a list it comes to. -/
theorem exists_reaches (member : word ∈ m.words call) :
    ∃ c, InList chains c word ∧ Reaches m call c := by
  obtain ⟨p, found, outcome⟩ := table.findNode_cases call.key
  simp only [words, found, Option.elim_some, List.mem_append] at member
  rcases member with searched | behind
  · exact ⟨_, inList_findNodeWords table searched, .inl rfl⟩
  have listed : p ≠ null → p ∈ chains (getHash call.key).castSucc := by
    intro proper
    rcases outcome with ⟨isNull, -⟩ | ⟨member, -⟩
    · exact absurd isNull proper
    · exact member
  cases call with
  | get key => exact ⟨_, inList_nodeWords listed behind, .inl rfl⟩
  | del key =>
    simp only [foundWords] at behind
    split at behind
    · rename_i proper
      rcases mem_setNodeFreeWords table (listed proper) behind with own | free | ⟨b, rfl, clear⟩
      · exact ⟨_, own, .inl rfl⟩
      · exact ⟨_, free, .inr (.inl ⟨rfl, p, found, proper⟩)⟩
      · exact ⟨b.castSucc, rfl, .inr (.inr ⟨b, rfl, p, found, proper, clear⟩)⟩
    · cases behind
  | set key value =>
    simp only [foundWords] at behind
    split at behind
    · rename_i proper
      exact ⟨_, inList_nodeWords listed behind, .inl rfl⟩
    · rename_i isNull
      have uses : UsesFreeList m (.set key value) := by
        rintro ⟨q, found', proper⟩
        rw [Call.key, found'] at found
        cases found
        exact isNull proper
      rcases List.mem_append.mp behind with free | bucket
      · exact ⟨_, inList_getNodeFreeWords table free, .inr (.inl ⟨rfl, uses⟩)⟩
      · refine ⟨(getHash key).castSucc, ?_, .inl rfl⟩
        split at bucket
        · cases bucket
        · rcases List.mem_cons.mp bucket with rfl | first
          · rfl
          · exact inList_nodeWords table.family.head_mem first

omit table in
/-- Calls that come to a common list clash. -/
private theorem clash_of_reaches {c : Fin (hashTableSize + 1)}
    (writes : call.writes ∨ other.writes) (first : Reaches m call c)
    (second : Reaches m other c) : Clash m call other := by
  refine ⟨writes, ?_⟩
  rcases first with same | ⟨same, uses⟩ | ⟨b, same, unhooks⟩ <;>
    rcases second with same' | ⟨same', uses'⟩ | ⟨b', same', unhooks'⟩ <;> rw [same] at same'
  · exact .inl (Fin.castSucc_injective _ same')
  · exact absurd same' (Fin.castSucc_ne_last _)
  · obtain rfl := Fin.castSucc_injective _ same'
    exact .inr (.inr (.inr unhooks'))
  · exact absurd same'.symm (Fin.castSucc_ne_last _)
  · exact .inr (.inl ⟨uses, uses'⟩)
  · exact absurd same'.symm (Fin.castSucc_ne_last _)
  · obtain rfl := Fin.castSucc_injective _ same'
    exact .inr (.inr (.inl unhooks))
  · exact absurd same' (Fin.castSucc_ne_last _)
  · exact .inr (.inl ⟨unhooks.usesFreeList, unhooks'.usesFreeList⟩)

/-- On a well-formed table two calls share a word exactly if they come to the same list. -/
theorem conflict_iff_clash : Conflict m call other ↔ Clash m call other := by
  constructor
  · rintro ⟨writes, word, first, second⟩
    obtain ⟨c, listed, reaches⟩ := exists_reaches table first
    obtain ⟨d, listed', reaches'⟩ := exists_reaches table second
    obtain rfl := inList_unique table listed listed'
    exact clash_of_reaches writes reaches reaches'
  · rintro ⟨writes, same | ⟨uses, uses'⟩ | unhooks | unhooks⟩ <;> refine ⟨writes, ?_⟩
    · exact ⟨_, head_mem_words m call, same ▸ head_mem_words m other⟩
    · exact ⟨_, last_mem_words table uses, last_mem_words table uses'⟩
    · exact ⟨_, unhooked_mem_words unhooks, head_mem_words m other⟩
    · exact ⟨_, head_mem_words m call, unhooked_mem_words unhooks⟩

end Lists

/-! ## Calls that share no word -/

/-- A call that conflicts with neither of two others leaves the words of both as they are, and so
whether they conflict. -/
theorem conflict_step {executed : Call} {reply : Reply}
    (stepped : m.step executed = some (reply, m')) (first : ¬ Conflict m executed call)
    (second : ¬ Conflict m executed other) : Conflict m' call other ↔ Conflict m call other := by
  by_cases writes : executed.writes
  · have apart (c : Call) (free : ¬ Conflict m executed c) : m'.words c = m.words c := by
      apply words_congr
      intro word member
      apply same_step stepped
      intro touched
      exact free ⟨.inl writes, word, touched, member⟩
    rw [Conflict, Conflict, apart call first, apart other second]
  · have same : m' = m := by
      cases executed with
      | get key =>
        obtain ⟨p, found⟩ := findNode_of_step stepped
        simp only [Call.key] at found
        rw [step_get found] at stepped
        cases stepped
        rfl
      | _ => exact absurd rfl writes
    rw [same]

end SphereMultithreading.Proofs.P5
