import SphereMultithreading.Model.P5.Footprint
import SphereMultithreading.Proofs.HashTable

/-! # Calls of the p5 table stay inside their words

A call leaves every word alone that it does not touch, and the words it touches depend on these
words only. So a call that shares no word with another one leaves the other's words as they are.
On a well-formed table two calls share a word when their keys are in one bucket, when both need the
free list, or when the loop of `set_node_free` in one of them comes to the other's bucket.
-/

namespace SphereMultithreading.Proofs.P5

open Model Model.HashTable Model.HashTable.Memory Proofs.HashTable

variable {α : Type} {m m' : Memory α} {word : Word}

/-- The word holds the same in both memories. -/
def Same (m m' : Memory α) : Word → Prop
  | .head c => m'.pTable c = m.pTable c
  | .node p => m'.pData p = m.pData p

theorem Same.rfl : Same m m word := by cases word <;> rfl

theorem Same.trans {m'' : Memory α} (first : Same m m' word) (second : Same m' m'' word) :
    Same m m'' word := by
  cases word with
  | head c => exact Eq.trans second first
  | node p => exact Eq.trans second first

/-! ## Words not touched -/

theorem mem_nodeWords {p : ℤ} : word ∈ nodeWords p ↔ p ≠ null ∧ word = .node p := by
  unfold nodeWords
  split <;> rename_i isNull <;> simp [isNull]

theorem same_write (m : Memory α) (f : Node α → Node α) {p : ℤ} (untouched : word ∉ nodeWords p) :
    Same m (m.write p f) word := by
  cases word with
  | head c => exact congrFun (pTable_write m p f) c
  | node q =>
    have other : ¬ (q = p ∧ p ≠ null) := by
      rintro ⟨rfl, proper⟩
      exact untouched (mem_nodeWords.mpr ⟨proper, .refl _⟩)
    exact (pData_write m p f q).trans (if_neg other)

theorem same_setHead (m : Memory α) (n : ℤ) {c : Fin (hashTableSize + 1)}
    (untouched : word ≠ .head c) : Same m (m.setHead c n) word := by
  cases word with
  | head d => exact Function.update_of_ne (fun same => untouched (congrArg Word.head same)) ..
  | node p => rfl

private theorem head_mem_unhookWords (m : Memory α) {p : ℤ} {i : Fin hashTableSize}
    {buckets : List (Fin hashTableSize)}
    (found : buckets.find? (fun i => m.pTable i.castSucc = p) = some i) :
    Word.head i.castSucc ∈ m.unhookWords p buckets := by
  induction buckets with
  | nil => cases found
  | cons j rest ih =>
    rw [unhookWords, List.mem_cons]
    by_cases here : m.pTable j.castSucc = p
    · rw [List.find?_cons_of_pos (by simpa using here)] at found
      cases found
      exact .inl (.refl _)
    · rw [List.find?_cons_of_neg (by simpa using here)] at found
      rw [if_neg here]
      exact .inr (ih found)

theorem same_unhook (m : Memory α) (n : ℤ) {p : ℤ}
    (untouched : word ∉ m.unhookWords p (List.finRange hashTableSize)) :
    Same m (m.unhook p n) word := by
  unfold unhook
  split
  · exact .rfl
  · rename_i i found
    apply same_setHead
    rintro rfl
    exact untouched (head_mem_unhookWords m found)

theorem getNumFreeNode_unhook (m : Memory α) (p n : ℤ) :
    (m.unhook p n).getNumFreeNode = m.getNumFreeNode := by
  unfold unhook
  split
  · rfl
  · exact Function.update_of_ne (Fin.castSucc_ne_last _).symm ..

/-- The free list is as it was when `set_node_free` comes to it. -/
theorem getNumFreeNode_relinked (m : Memory α) (p prev next : ℤ) :
    (((m.unhook p next).setNext prev next).setPrev next prev).getNumFreeNode =
      m.getNumFreeNode := by
  simp only [getNumFreeNode, pTable_setPrev, pTable_setNext]
  exact getNumFreeNode_unhook m p next

theorem same_setNodeFree (m : Memory α) {p : ℤ} (untouched : word ∉ m.setNodeFreeWords p) :
    Same m (m.setNodeFree p) word := by
  simp only [setNodeFreeWords, List.mem_append, List.mem_cons, not_or] at untouched
  obtain ⟨⟨⟨⟨own, prev⟩, next⟩, heads⟩, last, free⟩ := untouched
  simp only [Memory.setNodeFree, getNumFreeNode_relinked]
  apply ((((((same_unhook m _ heads).trans (same_write _ _ prev)).trans (same_write _ _ next)).trans
    (same_write _ _ free)).trans (same_write _ _ own)).trans (same_write _ _ own)).trans
  exact same_setHead _ _ last

theorem getNodeFree_eq_some {p : ℤ} :
    m.getNodeFree = some (p, m') ↔ m.getNumFreeNode ≠ null ∧ m.getNumFreeNode = p ∧
      (m.setPrev (m.getNext p) null).setNumFreeNode (m.getNext p) = m' := by
  simp only [getNodeFree, Option.ite_none_left_eq_some, Option.some.injEq, Prod.mk.injEq]
  constructor
  · rintro ⟨proper, rfl, rfl⟩
    exact ⟨proper, .refl _, .refl _⟩
  · rintro ⟨proper, rfl, rfl⟩
    exact ⟨proper, .refl _, .refl _⟩

theorem getNodeFree_eq_none : m.getNodeFree = none ↔ m.getNumFreeNode = null := by
  simp [getNodeFree]

theorem same_getNodeFree {p : ℤ} (taken : m.getNodeFree = some (p, m'))
    (untouched : word ∉ m.getNodeFreeWords) : Same m m' word := by
  simp only [getNodeFreeWords, List.mem_cons, List.mem_append, not_or] at untouched
  obtain ⟨last, -, next⟩ := untouched
  obtain ⟨-, rfl, rfl⟩ := getNodeFree_eq_some.mp taken
  exact (same_write _ _ next).trans (same_setHead _ _ last)

theorem same_pushFront (m : Memory α) {p : ℤ} {hash : Fin hashTableSize}
    (own : word ∉ nodeWords p) (untouched : word ∉ m.pushFrontWords hash) :
    Same m (m.pushFront p hash) word := by
  simp only [pushFrontWords, List.mem_cons, not_or] at untouched
  exact ((same_write _ _ own).trans (same_write _ _ untouched.2)).trans
    (same_setHead _ _ untouched.1)

/-- Taking a free node, filling it and putting it in front of its bucket. -/
theorem same_insert {p : ℤ} {m₁ : Memory α} {hash : Fin hashTableSize} {key : ℤ} {data : α}
    (taken : m.getNodeFree = some (p, m₁)) (free : word ∉ m.getNodeFreeWords)
    (bucket : word ∉ if m.getNumFreeNode = null then [] else m.pushFrontWords hash) :
    Same m (((m₁.setKey p key).setData p data).pushFront p hash) word := by
  have first := same_getNodeFree taken free
  obtain ⟨proper, rfl, rfl⟩ := getNodeFree_eq_some.mp taken
  rw [if_neg proper] at bucket
  simp only [getNodeFreeWords, List.mem_cons, List.mem_append, not_or] at free
  have own := free.2.1
  apply ((first.trans (same_write _ _ own)).trans (same_write _ _ own)).trans
  apply same_pushFront _ own
  simpa [pushFrontWords, setNumFreeNode, Memory.setHead, Fin.castSucc_ne_last] using bucket

section Calls

open Model.P5 Model.P5.HashTable

variable {m m' : Model.P5.HashTable} {call : Call} {reply : Reply}

theorem findNode_of_step (stepped : m.step call = some (reply, m')) :
    ∃ p, m.findNode call.key = some p := by
  rcases found : m.findNode call.key with _ | p
  · cases call <;> simp only [Call.key] at found <;>
      simp [HashTable.step, HashTable.set, HashTable.get, HashTable.del, found] at stepped
  · exact ⟨p, .refl _⟩

theorem step_get {key p : ℤ} (found : m.findNode key = some p) :
    m.step (.get key) =
      some (if p ≠ null then .ok (some (m.pData p).data) else .error noKey, m) := by
  simp only [HashTable.step, HashTable.get, found, Option.bind_eq_bind, Option.bind_some]
  split <;> rfl

theorem step_del {key p : ℤ} (found : m.findNode key = some p) :
    m.step (.del key) =
      some (if p ≠ null then (.ok none, m.setNodeFree p) else (.error noKey, m)) := by
  simp only [HashTable.step, HashTable.del, found, Option.bind_eq_bind, Option.bind_some]
  split <;> rfl

theorem step_set_found {key value p : ℤ} (found : m.findNode key = some p) (proper : p ≠ null) :
    m.step (.set key value) = some (.ok none, m.setData p value) := by
  simp only [HashTable.step, HashTable.set, found, Option.bind_eq_bind, Option.bind_some,
    if_pos proper]
  rfl

theorem step_set_absent {key value : ℤ} (found : m.findNode key = some null) :
    m.step (.set key value) = some (m.getNodeFree.elim (.error noMemory, m) fun taken =>
      (.ok none, ((taken.2.setKey taken.1 key).setData taken.1 value).pushFront taken.1
        (getHash key))) := by
  simp only [HashTable.step, HashTable.set, found, Option.bind_eq_bind, Option.bind_some, ne_eq,
    not_true_eq_false, if_false]
  rcases m.getNodeFree with _ | ⟨p, m₁⟩ <;> rfl

/-- A call leaves every word alone that it does not touch. -/
theorem same_step (stepped : m.step call = some (reply, m')) (untouched : word ∉ m.words call) :
    Same m m' word := by
  obtain ⟨p, found⟩ := findNode_of_step stepped
  simp only [words, found, Option.elim_some, List.mem_append, not_or] at untouched
  obtain ⟨-, behind⟩ := untouched
  cases call with
  | get key =>
    simp only [Call.key] at found
    rw [step_get found] at stepped
    cases stepped
    exact .rfl
  | del key =>
    simp only [Call.key] at found
    rw [step_del found] at stepped
    simp only [foundWords] at behind
    split at stepped <;> rename_i proper <;> cases stepped
    · rw [if_pos proper] at behind
      exact same_setNodeFree m behind
    · exact .rfl
  | set key value =>
    simp only [Call.key] at found
    simp only [foundWords] at behind
    by_cases proper : p ≠ null
    · rw [step_set_found found proper] at stepped
      cases stepped
      rw [if_pos proper] at behind
      exact same_write m _ behind
    · obtain rfl : p = null := not_not.mp proper
      rw [step_set_absent found] at stepped
      simp only [ne_eq, not_true_eq_false, if_false, List.mem_append, not_or] at behind
      rcases taken : m.getNodeFree with _ | ⟨q, m₁⟩ <;> rw [taken] at stepped <;> cases stepped
      · exact .rfl
      · exact same_insert taken behind.1 behind.2

end Calls

/-! ## What the words touched depend on -/

section Congruence

variable {p : ℤ}

theorem pData_congr (proper : p ≠ null) (same : ∀ word ∈ nodeWords p, Same m m' word) :
    m'.pData p = m.pData p := same (.node p) (mem_nodeWords.mpr ⟨proper, rfl⟩)

theorem getNext_congr (same : ∀ word ∈ nodeWords p, Same m m' word) :
    m'.getNext p = m.getNext p := by
  unfold getNext
  split
  · rfl
  · rename_i proper
    rw [pData_congr proper same]

theorem getPrev_congr (same : ∀ word ∈ nodeWords p, Same m m' word) :
    m'.getPrev p = m.getPrev p := by
  unfold getPrev
  split
  · rfl
  · rename_i proper
    rw [pData_congr proper same]

/-- The search takes the same way and finds the same node. -/
theorem findLoop_congr {key : ℤ} {fuel : ℕ}
    (same : ∀ word ∈ m.findLoopWords key fuel p, Same m m' word) :
    m'.findLoopWords key fuel p = m.findLoopWords key fuel p ∧
      m'.findLoop key fuel p = m.findLoop key fuel p := by
  induction fuel generalizing p with
  | zero => exact ⟨rfl, rfl⟩
  | succ fuel ih =>
    simp only [findLoopWords, List.mem_append] at same
    have next := getNext_congr fun word member => same word (.inl member)
    rw [findLoopWords, findLoopWords, findLoop, findLoop]
    by_cases proper : p = null
    · simp [proper]
    · rw [pData_congr proper fun word member => same word (.inl member), next]
      by_cases found : (m.pData p).key = key
      · simp [found]
      · rw [if_pos ⟨proper, found⟩] at same
        obtain ⟨words, result⟩ := ih fun word member => same word (.inr member)
        simp only [words, result, and_self]

theorem findNode_congr {key : ℤ} (same : ∀ word ∈ m.findNodeWords key, Same m m' word) :
    m'.findNodeWords key = m.findNodeWords key ∧ m'.findNode key = m.findNode key := by
  simp only [findNodeWords, List.mem_cons, forall_eq_or_imp] at same
  have head : m'.pTable (getHash key).castSucc = m.pTable (getHash key).castSucc := same.1
  obtain ⟨words, result⟩ := findLoop_congr same.2
  constructor
  · rw [findNodeWords, head, words, findNodeWords]
  · rw [findNode, head, result, findNode]

theorem getNodeFreeWords_congr (same : ∀ word ∈ m.getNodeFreeWords, Same m m' word) :
    m'.getNodeFreeWords = m.getNodeFreeWords ∧ m'.getNumFreeNode = m.getNumFreeNode := by
  simp only [getNodeFreeWords, List.mem_cons, List.mem_append, forall_eq_or_imp] at same
  have head : m'.getNumFreeNode = m.getNumFreeNode := same.1
  have next := getNext_congr fun word member => same.2 word (.inl member)
  refine ⟨?_, head⟩
  rw [getNodeFreeWords, head, next, getNodeFreeWords]

theorem unhookWords_congr {buckets : List (Fin hashTableSize)}
    (same : ∀ word ∈ m.unhookWords p buckets, Same m m' word) :
    m'.unhookWords p buckets = m.unhookWords p buckets := by
  induction buckets with
  | nil => rfl
  | cons i rest ih =>
    simp only [unhookWords, List.mem_cons, forall_eq_or_imp] at same
    have head : m'.pTable i.castSucc = m.pTable i.castSucc := same.1
    rw [unhookWords, unhookWords, head]
    by_cases here : m.pTable i.castSucc = p
    · simp only [if_pos here]
    · rw [if_neg here] at same
      simp only [if_neg here, ih same.2]

theorem setNodeFreeWords_congr (same : ∀ word ∈ m.setNodeFreeWords p, Same m m' word) :
    m'.setNodeFreeWords p = m.setNodeFreeWords p := by
  simp only [setNodeFreeWords, List.mem_append, List.mem_cons, or_imp, forall_and, forall_eq] at same
  obtain ⟨⟨⟨⟨own, -⟩, -⟩, heads⟩, last, -⟩ := same
  have free : m'.getNumFreeNode = m.getNumFreeNode := last
  rw [setNodeFreeWords, getPrev_congr own, getNext_congr own, unhookWords_congr heads, free,
    setNodeFreeWords]

open Model.P5 Model.P5.HashTable in
/-- Memories that agree on the words a call touches in one of them have it touch the same words in
the other. -/
theorem words_congr {m m' : Model.P5.HashTable} {call : Call}
    (same : ∀ word ∈ m.words call, Same m m' word) : m'.words call = m.words call := by
  simp only [words, List.mem_append, or_imp, forall_and] at same
  obtain ⟨searched, behind⟩ := same
  obtain ⟨way, result⟩ := findNode_congr searched
  rw [words, way, result, words]
  rcases found : m.findNode call.key with _ | p
  · rfl
  · rw [found, Option.elim_some] at behind
    simp only [Option.elim_some, List.append_cancel_left_eq]
    cases call with
    | get key => rfl
    | del key =>
      simp only [foundWords] at behind ⊢
      by_cases proper : p ≠ null
      · rw [if_pos proper] at behind
        simp only [if_pos proper, setNodeFreeWords_congr behind]
      · simp only [if_neg proper]
    | set key value =>
      simp only [foundWords] at behind ⊢
      by_cases proper : p ≠ null
      · simp only [if_pos proper]
      · simp only [if_neg proper, List.mem_append, or_imp, forall_and] at behind ⊢
        obtain ⟨words, free⟩ := getNodeFreeWords_congr behind.1
        rw [words, free]
        by_cases empty : m.getNumFreeNode = null
        · simp only [if_pos empty]
        · rw [if_neg empty] at behind
          have head : m'.pTable (getHash key).castSucc = m.pTable (getHash key).castSucc :=
            behind.2 _ List.mem_cons_self
          simp only [if_neg empty, pushFrontWords, head]

end Congruence

/-! ## What a call does depends on its words -/

section Determined

variable {p : ℤ}

theorem Same.write (same : Same m m' word) (p : ℤ) (f : Node α → Node α) :
    Same (m.write p f) (m'.write p f) word := by
  cases word with
  | head c =>
    change (m'.write p f).pTable c = (m.write p f).pTable c
    rw [pTable_write, pTable_write]
    exact same
  | node q =>
    change (m'.write p f).pData q = (m.write p f).pData q
    rw [pData_write, pData_write, show m'.pData q = m.pData q from same]

theorem Same.setHead (same : Same m m' word) (c : Fin (hashTableSize + 1)) (n : ℤ) :
    Same (m.setHead c n) (m'.setHead c n) word := by
  cases word with
  | head d =>
    change Function.update m'.pTable c n d = Function.update m.pTable c n d
    rcases eq_or_ne d c with rfl | differ
    · rw [Function.update_self, Function.update_self]
    · rw [Function.update_of_ne differ, Function.update_of_ne differ]
      exact same
  | node q => exact same

private theorem unhook_find_congr {buckets : List (Fin hashTableSize)}
    (same : ∀ word ∈ m.unhookWords p buckets, Same m m' word) :
    buckets.find? (fun i => m'.pTable i.castSucc = p) =
      buckets.find? fun i => m.pTable i.castSucc = p := by
  induction buckets with
  | nil => rfl
  | cons i rest ih =>
    simp only [unhookWords, List.mem_cons, forall_eq_or_imp] at same
    have head : m'.pTable i.castSucc = m.pTable i.castSucc := same.1
    by_cases here : m.pTable i.castSucc = p
    · simp [head, here]
    · rw [if_neg here] at same
      simp [head, here, ih same.2]

theorem Same.unhook (same : Same m m' word) (n : ℤ)
    (heads : ∀ word ∈ m.unhookWords p (List.finRange hashTableSize), Same m m' word) :
    Same (m.unhook p n) (m'.unhook p n) word := by
  unfold Memory.unhook
  rw [unhook_find_congr heads]
  split
  · exact same
  · exact same.setHead _ _

theorem Same.setNodeFree (same : ∀ word ∈ m.setNodeFreeWords p, Same m m' word)
    (here : Same m m' word) : Same (m.setNodeFree p) (m'.setNodeFree p) word := by
  simp only [setNodeFreeWords, List.mem_append, List.mem_cons, or_imp, forall_and, forall_eq] at same
  obtain ⟨⟨⟨⟨own, -⟩, -⟩, heads⟩, last, -⟩ := same
  have free : m'.getNumFreeNode = m.getNumFreeNode := last
  simp only [Memory.setNodeFree, getPrev_congr own, getNext_congr own, getNumFreeNode_relinked, free]
  exact ((((((here.unhook _ heads).write _ _).write _ _).write _ _).write _ _).write _ _).setHead _ _

theorem Same.pushFront {hash : Fin hashTableSize} (same : Same m m' word)
    (head : m'.pTable hash.castSucc = m.pTable hash.castSucc) :
    Same (m.pushFront p hash) (m'.pushFront p hash) word := by
  simp only [Memory.pushFront, head]
  exact ((same.write _ _).write _ _).setHead _ _

open Model.P5 Model.P5.HashTable in
/-- A call answers the same on memories that agree on the words it touches, and leaves the same in
these words. -/
theorem step_congr {m m' n : Model.P5.HashTable} {call : Call} {reply : Reply}
    (same : ∀ word ∈ m.words call, Same m m' word) (stepped : m.step call = some (reply, n)) :
    ∃ n', m'.step call = some (reply, n') ∧ ∀ word ∈ m.words call, Same n n' word := by
  obtain ⟨p, found⟩ := findNode_of_step stepped
  have whole := same
  simp only [words, found, Option.elim_some, List.mem_append, or_imp, forall_and] at same
  obtain ⟨searched, behind⟩ := same
  have found' := (findNode_congr searched).2.trans found
  cases call with
  | get key =>
    simp only [Call.key] at found found'
    simp only [foundWords] at behind
    rw [step_get found] at stepped
    cases stepped
    refine ⟨m', ?_, whole⟩
    rw [step_get found']
    by_cases proper : p ≠ null
    · rw [if_pos proper, if_pos proper, pData_congr proper behind]
    · rw [if_neg proper, if_neg proper]
  | del key =>
    simp only [Call.key] at found found'
    simp only [foundWords] at behind
    rw [step_del found] at stepped
    rw [step_del found']
    by_cases proper : p ≠ null
    · rw [if_pos proper] at stepped behind ⊢
      cases stepped
      exact ⟨_, rfl, fun word touched => Same.setNodeFree behind (whole word touched)⟩
    · rw [if_neg proper] at stepped ⊢
      cases stepped
      exact ⟨_, rfl, whole⟩
  | set key value =>
    simp only [Call.key] at found found'
    simp only [foundWords] at behind
    by_cases proper : p ≠ null
    · rw [step_set_found found proper] at stepped
      rw [step_set_found found' proper]
      cases stepped
      exact ⟨_, rfl, fun word touched => (whole word touched).write _ _⟩
    · obtain rfl : p = null := not_not.mp proper
      simp only [ne_eq, not_true_eq_false, if_false, List.mem_append, or_imp, forall_and] at behind
      have free := (getNodeFreeWords_congr behind.1).2
      rw [step_set_absent found] at stepped
      rw [step_set_absent found']
      by_cases empty : m.getNumFreeNode = null
      · rw [getNodeFree_eq_none.mpr empty] at stepped
        rw [getNodeFree_eq_none.mpr (free.trans empty)]
        cases stepped
        exact ⟨_, rfl, whole⟩
      · rw [getNodeFree_eq_some.mpr ⟨empty, rfl, rfl⟩] at stepped
        rw [getNodeFree_eq_some.mpr ⟨free.trans_ne empty, rfl, rfl⟩]
        cases stepped
        refine ⟨_, rfl, fun word touched => ?_⟩
        have next : m'.getNext m.getNumFreeNode = m.getNext m.getNumFreeNode :=
          getNext_congr fun word member =>
            behind.1 word (List.mem_cons_of_mem _ (List.mem_append_left _ member))
        have head : m'.pTable (getHash key).castSucc = m.pTable (getHash key).castSucc := by
          rw [if_neg empty] at behind
          exact behind.2 _ List.mem_cons_self
        rw [free, next]
        apply ((((whole word touched).write _ _).setHead _ _).write _ _).write _ _ |>.pushFront
        simpa [setNumFreeNode, Memory.setHead, Fin.castSucc_ne_last] using head

end Determined

end SphereMultithreading.Proofs.P5
