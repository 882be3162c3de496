import SphereMultithreading.Model.P6.Cleaner
import SphereMultithreading.Proofs.HashTable

/-! # The walk of the p6 cleaner over a bucket

The walk follows the chain it takes nodes out of. It visits every node of the bucket once, takes out
those that are expired at the reading of the clock that is theirs, and ends.
-/

namespace SphereMultithreading.Proofs.P6

open Chains Model.HashTable Model.HashTable.Memory Model.P6 Model.P6.HashTable Proofs.HashTable

/-- The nodes that are not expired when the walk comes to them. -/
def survivors (clock : ℕ → ℤ) (m : HashTable) : ℕ → List ℤ → List ℤ
  | _, [] => []
  | tick, i :: rest =>
      if isExpired m (clock tick) i then survivors clock m (tick + 1) rest
      else i :: survivors clock m (tick + 1) rest

variable {clock : ℕ → ℤ} {m m' : HashTable} {chains : Fin (hashTableSize + 1) → List ℤ}

theorem isExpired_congr (same : entry m' = entry m) : isExpired m' = isExpired m := by
  funext T i
  have data : (m'.pData i).data = (m.pData i).data := congrArg Prod.snd (congrFun same i)
  rw [isExpired, isExpired, data]

theorem survivors_congr (same : entry m' = entry m) (tick : ℕ) (l : List ℤ) :
    survivors clock m' tick l = survivors clock m tick l := by
  induction l generalizing tick with
  | nil => rfl
  | cons i rest ih => rw [survivors, survivors, isExpired_congr same, ih]

/-- At one time these are the nodes that are not expired. -/
theorem survivors_const (m : HashTable) (T : ℤ) (tick : ℕ) (l : List ℤ) :
    survivors (fun _ => T) m tick l = l.filter fun i => !isExpired m T i := by
  induction l generalizing tick with
  | nil => rfl
  | cons i rest ih =>
    rw [survivors, List.filter_cons, ih]
    cases isExpired m T i <;> rfl

/-- The walk over the rest of a bucket. -/
private theorem cleanBucket_walk {b : Fin hashTableSize} (table : Table m chains)
    {front behind : List ℤ} (cut : chains b.castSucc = front ++ behind) {fuel : ℕ}
    (enough : behind.length < fuel) (tick : ℕ) :
    ∃ m' tick' chains', cleanBucket clock fuel m (behind.headD null) tick = some (m', tick') ∧
      Table m' chains' ∧ entry m' = entry m ∧
      chains' b.castSucc = front ++ survivors clock m tick behind ∧
      ∀ c : Fin hashTableSize, c ≠ b → chains' c.castSucc = chains c.castSucc := by
  induction behind generalizing m chains front fuel tick with
  | nil =>
    obtain ⟨fuel, rfl⟩ := Nat.exists_eq_add_of_lt enough
    exact ⟨m, tick, chains, by simp [cleanBucket], table, rfl, cut, fun _ _ => rfl⟩
  | cons i rest ih =>
    obtain ⟨fuel, rfl⟩ : ∃ n, fuel = n + 1 := ⟨fuel - 1, by rw [List.length_cons] at enough; omega⟩
    have member : i ∈ chains b.castSucc := by rw [cut]; simp
    have proper : i ≠ null := table.family.ne_null member
    have chain := table.family.chain b.castSucc
    rw [cut] at chain
    -- the successor is read while the node is still in its place
    have next : m.getNext i = rest.headD null := by
      rw [getNext, if_neg proper]
      exact chain.next_of_cut
    have fewer : rest.length < fuel := by simpa using enough
    rw [List.headD_cons, cleanBucket, if_neg proper, next, survivors]
    cases expired : isExpired m (clock tick) i with
    | true =>
      have left : moved chains i b.castSucc (Fin.last hashTableSize) b.castSucc = front ++ rest := by
        rw [moved_source _ _ (Fin.castSucc_ne_last b), cut, chain.erase_of_cut]
      obtain ⟨m', tick', chains', ran, table', same, here, others⟩ :=
        ih (table.setNodeFree member) left fewer (tick + 1)
      rw [Table.entry_setNodeFree] at same
      rw [survivors_congr (Table.entry_setNodeFree i)] at here
      refine ⟨m', tick', chains', ?_, table', same, here, ?_⟩
      · simpa only [expired, if_true] using ran
      · intro c differ
        rw [others c differ, moved_of_ne _ _ (by simpa using differ) (Fin.castSucc_ne_last c)]
    | false =>
      have passed : chains b.castSucc = (front ++ [i]) ++ rest := by simpa using cut
      obtain ⟨m', tick', chains', ran, table', same, here, others⟩ := ih table passed fewer (tick + 1)
      refine ⟨m', tick', chains', ?_, table', same, ?_, others⟩
      · simpa [expired] using ran
      · rw [here, List.append_assoc]
        rfl

/-- The walk over a bucket leaves its survivors in it, and the other buckets as they are. -/
theorem cleanBucket_spec (table : Table m chains) (clock : ℕ → ℤ) (b : Fin hashTableSize)
    (tick : ℕ) : ∃ m' tick' chains',
      cleanBucket clock (bufferSize + 1) m (m.pTable b.castSucc) tick = some (m', tick') ∧
      Table m' chains' ∧ entry m' = entry m ∧
      chains' b.castSucc = survivors clock m tick (chains b.castSucc) ∧
      ∀ c : Fin hashTableSize, c ≠ b → chains' c.castSucc = chains c.castSucc := by
  have first : m.pTable b.castSucc = (chains b.castSucc).headD null :=
    (table.family.chain b.castSucc).head_eq
  have enough := Nat.lt_succ_of_le (table.length_le b.castSucc)
  rw [first]
  exact cleanBucket_walk table (List.nil_append _).symm enough tick

theorem mem_of_mem_survivors {tick : ℕ} {l : List ℤ} {i : ℤ} (member : i ∈ survivors clock m tick l) :
    i ∈ l := by
  induction l generalizing tick with
  | nil => exact member
  | cons j rest ih =>
    rw [survivors] at member
    split at member
    · exact List.mem_cons_of_mem j (ih member)
    · rcases List.mem_cons.mp member with rfl | later
      · exact List.mem_cons_self
      · exact List.mem_cons_of_mem j (ih later)

/-- What is missing was expired when the walk came to it. -/
theorem mem_survivors_or {tick : ℕ} {l : List ℤ} {i : ℤ} (member : i ∈ l) :
    i ∈ survivors clock m tick l ∨ ∃ now, isExpired m (clock now) i = true := by
  induction l generalizing tick with
  | nil => cases member
  | cons j rest ih =>
    rw [survivors]
    rcases List.mem_cons.mp member with rfl | later
    · cases expired : isExpired m (clock tick) i with
      | true => exact .inr ⟨tick, expired⟩
      | false => exact .inl (by simp)
    · have walked : i ∈ survivors clock m (tick + 1) rest ∨ _ := ih later
      refine walked.imp_left fun stays => ?_
      split
      · exact stays
      · exact List.mem_cons_of_mem j stays

/-- Each bucket keeps some of its nodes; the others expired. -/
structure Thinned (clock : ℕ → ℤ) (m : HashTable) (chains chains' : Fin (hashTableSize + 1) → List ℤ) :
    Prop where
  sub : ∀ b : Fin hashTableSize, ∀ i ∈ chains' b.castSucc, i ∈ chains b.castSucc
  gone : ∀ b : Fin hashTableSize, ∀ i ∈ chains b.castSucc,
    i ∈ chains' b.castSucc ∨ ∃ now, isExpired m (clock now) i = true

/-- A visit of any section ends, and takes only expired nodes out of the buckets. -/
theorem cleanSection_thins (table : Table m chains) (clock : ℕ → ℤ) (j i tick : ℕ) :
    ∃ i' m' tick' chains', cleanSection clock j i m tick = some (i', m', tick') ∧ Table m' chains' ∧
      entry m' = entry m ∧ Thinned clock m chains chains' := by
  induction remaining : numSections - i generalizing i m tick chains with
  | zero =>
    rw [cleanSection, dif_neg (by omega)]
    exact ⟨i, m, tick, chains, rfl, table, rfl, fun _ _ member => member, fun _ _ => .inl⟩
  | succ n ih =>
    by_cases inside : i / numSections = j ∧ i < numSections
    · let b : Fin hashTableSize := ⟨i, inside.2.trans (by decide)⟩
      obtain ⟨m₁, tick₁, chains₁, walked, table₁, same₁, here, others⟩ :=
        cleanBucket_spec table clock b tick
      obtain ⟨i', m', tick', chains', cleaned, table', same, thinned⟩ :=
        ih table₁ (i + 1) tick₁ (by omega)
      refine ⟨i', m', tick', chains', ?_, table', same.trans same₁, ?_, ?_⟩
      · rw [cleanSection, dif_pos inside]
        change (cleanBucket clock (bufferSize + 1) m (m.pTable b.castSucc) tick).bind _ = _
        rw [walked]
        exact cleaned
      · intro b' p stays
        have before := thinned.sub b' p stays
        rcases eq_or_ne b' b with rfl | differ
        · rw [here] at before
          exact mem_of_mem_survivors before
        · rwa [others b' differ] at before
      · intro b' p member
        have first : p ∈ chains₁ b'.castSucc ∨ ∃ now, isExpired m (clock now) p = true := by
          rcases eq_or_ne b' b with rfl | differ
          · rw [here]
            exact mem_survivors_or member
          · rw [others b' differ]
            exact .inl member
        rcases first with stays | expired
        · have later := thinned.gone b' p stays
          rwa [isExpired_congr same₁] at later
        · exact .inr expired
    · rw [cleanSection, dif_neg inside]
      exact ⟨i, m, tick, chains, rfl, table, rfl, fun _ _ member => member, fun _ _ => .inl⟩

end SphereMultithreading.Proofs.P6
