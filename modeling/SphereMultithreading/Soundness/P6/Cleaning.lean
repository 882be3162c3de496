import SphereMultithreading.Proofs.P6.Cleaner
import SphereMultithreading.Soundness.P6.MapRefinement

/-! # What the cleaner removes

`clean` compares the bucket index with the number of sections where the number of buckets was meant. It
removes the expired entries of the first `NUM_SECTIONS` buckets, and no others.
-/

namespace SphereMultithreading.Soundness.P6

open Machine Model.HashTable Model.HashTable.Memory Model.P6 Model.P6.HashTable Proofs.HashTable Proofs.P6

abbrev Lists := Fin (hashTableSize + 1) → List ℤ

/-- How many entries are in a bucket of the one and no more in that of the other. -/
def removed (chains chains' : Lists) : ℕ :=
  ∑ b : Fin hashTableSize, ((chains b.castSucc).filter fun i => i ∉ chains' b.castSucc).length

/-- What cleaning at a time is for. -/
structure Cleaned (T : ℤ) (m : HashTable) (chains : Lists) (m' : HashTable) (chains' : Lists) : Prop where
  expired : ∀ b : Fin hashTableSize, ∀ i ∈ chains' b.castSucc, T ≤ (m'.pData i).data.tDeath
  kept : ∀ b : Fin hashTableSize, ∀ i ∈ chains b.castSucc, T ≤ (m.pData i).data.tDeath →
    i ∈ chains' b.castSucc ∧ (m'.pData i).key = (m.pData i).key ∧ (m'.pData i).data = (m.pData i).data
  free : (chains' (Fin.last hashTableSize)).length =
    (chains (Fin.last hashTableSize)).length + removed chains chains'

variable {m m' : HashTable} {chains chains' : Lists} {T : ℤ}

/-- The first section has the buckets whose index is less than the number of sections. -/
private theorem cleanSection_spec {i : ℕ} (bound : i ≤ numSections) (table : Table m chains) (tick : ℕ) :
    ∃ m' tick' chains', cleanSection (fun _ => T) 0 i m tick = some (numSections, m', tick') ∧
      Table m' chains' ∧ entry m' = entry m ∧
      ∀ b : Fin hashTableSize, chains' b.castSucc =
        if i ≤ b ∧ b < numSections then (chains b.castSucc).filter (fun j => !isExpired m T j)
        else chains b.castSucc := by
  induction remaining : numSections - i generalizing i m chains tick with
  | zero =>
    obtain rfl : i = numSections := by omega
    rw [cleanSection, dif_neg (by simp)]
    refine ⟨m, tick, chains, rfl, table, rfl, fun b => ?_⟩
    rw [if_neg (by omega)]
  | succ n ih =>
    have inside : i / numSections = 0 ∧ i < numSections := ⟨Nat.div_eq_of_lt (by omega), by omega⟩
    let b : Fin hashTableSize := ⟨i, inside.2.trans (by decide)⟩
    obtain ⟨m₁, tick₁, chains₁, walked, table₁, same₁, here, others⟩ :=
      cleanBucket_spec table (fun _ => T) b tick
    obtain ⟨m', tick', chains', cleaned, table', same, swept⟩ := ih inside.2 table₁ tick₁ (by omega)
    rw [isExpired_congr same₁] at swept
    refine ⟨m', tick', chains', ?_, table', same.trans same₁, fun c => ?_⟩
    · rw [cleanSection, dif_pos inside]
      change (cleanBucket (fun _ => T) (bufferSize + 1) m (m.pTable b.castSucc) tick).bind _ = _
      rw [walked]
      exact cleaned
    · rw [swept]
      rcases eq_or_ne c b with rfl | differ
      · rw [if_neg (by simp [b]), if_pos ⟨Nat.le_refl i, inside.2⟩, here, survivors_const]
      · have apart : (c : ℕ) ≠ i := fun same => differ (Fin.ext same)
        rw [others c differ]
        exact if_congr (by omega) rfl rfl

/-- The other sections have none. -/
private theorem cleanSections_rest (js : List ℕ) (m : HashTable) (tick : ℕ) :
    cleanSections (fun _ => T) js numSections m tick = some m := by
  induction js with
  | nil => rfl
  | cons j js ih =>
    have stops : cleanSection (fun _ => T) j numSections m tick = some (numSections, m, tick) := by
      rw [cleanSection, dif_neg (by simp)]
    rw [cleanSections, stops]
    exact ih

/-- The cleaner takes the expired entries out of the first buckets. -/
theorem clean_spec (table : Table m chains) (T : ℤ) :
    ∃ m' chains', clean m (fun _ => T) = some m' ∧ Table m' chains' ∧ entry m' = entry m ∧
      ∀ b : Fin hashTableSize, chains' b.castSucc =
        if b < numSections then (chains b.castSucc).filter (fun j => !isExpired m T j)
        else chains b.castSucc := by
  obtain ⟨m', tick', chains', cleaned, table', same, swept⟩ :=
    @cleanSection_spec m chains T 0 (Nat.zero_le _) table 0
  refine ⟨m', chains', ?_, table', same, fun b => ?_⟩
  · rw [clean, List.range_succ_eq_map, cleanSections, cleaned]
    exact cleanSections_rest _ m' tick'
  · rw [swept]
    simp only [Nat.zero_le, true_and]

/-- A filtered list is as much shorter as the list has members it lacks. -/
private theorem length_filter_add (l : List ℤ) (keep : ℤ → Bool) :
    (l.filter keep).length + (l.filter fun i => i ∉ l.filter keep).length = l.length := by
  have lacking : (l.filter fun i => i ∉ l.filter keep) = l.filter fun i => !keep i := by
    apply List.filter_congr
    intro i member
    simp [List.mem_filter, member]
  rw [lacking]
  exact (List.length_eq_length_filter_add keep).symm

/-- What leaves the buckets is free. -/
private theorem free_grows (table : Table m chains) (table' : Table m' chains')
    (kept : ∀ b : Fin hashTableSize, ∃ keep, chains' b.castSucc = (chains b.castSucc).filter keep) :
    (chains' (Fin.last hashTableSize)).length =
      (chains (Fin.last hashTableSize)).length + removed chains chains' := by
  have before := table.sum_length
  have after := table'.sum_length
  rw [Fin.sum_univ_castSucc] at before after
  have stored : ∑ b : Fin hashTableSize, (chains b.castSucc).length =
      (∑ b : Fin hashTableSize, (chains' b.castSucc).length) + removed chains chains' := by
    rw [removed, ← Finset.sum_add_distrib]
    apply Finset.sum_congr rfl
    intro b _
    obtain ⟨keep, filtered⟩ := kept b
    rw [filtered, length_filter_add]
  omega

/-- Alone at one time, the cleaner ends with a well-formed table. It has removed what expired, and only
that, exactly if nothing in the buckets it does not reach has expired. -/
theorem cleaned_iff (table : Table m chains) (T : ℤ) :
    ∃ m', clean m (fun _ => T) = some m' ∧ (∃ chains', Table m' chains') ∧
      ∀ chains', Table m' chains' → (Cleaned T m chains m' chains' ↔
        ∀ b : Fin hashTableSize, numSections ≤ b →
          ∀ i ∈ chains b.castSucc, T ≤ (m.pData i).data.tDeath) := by
  obtain ⟨m', swept, ran, valid, same, filtered⟩ := clean_spec table T
  refine ⟨m', ran, ⟨swept, valid⟩, ?_⟩
  intro chains' table'
  obtain rfl : swept = chains' := valid.unique table'
  have unexpired_iff (i : ℤ) : (!isExpired m T i) = true ↔ T ≤ (m.pData i).data.tDeath := by
    simp [isExpired]
  have data (i : ℤ) : (m'.pData i).data = (m.pData i).data := congrArg Prod.snd (congrFun same i)
  have key (i : ℤ) : (m'.pData i).key = (m.pData i).key := congrArg Prod.fst (congrFun same i)
  constructor
  · rintro ⟨expired, -, -⟩ b past i member
    rw [← data]
    apply expired b
    rwa [filtered, if_neg (Nat.not_lt.mpr past)]
  · intro fresh
    refine ⟨?_, ?_, ?_⟩
    · intro b i member
      rw [data]
      rw [filtered] at member
      split at member
      · exact (unexpired_iff i).mp (List.mem_filter.mp member).2
      · next past => exact fresh b (Nat.not_lt.mp past) i member
    · intro b i member living
      refine ⟨?_, key i, data i⟩
      rw [filtered]
      split
      · exact List.mem_filter.mpr ⟨member, (unexpired_iff i).mpr living⟩
      · exact member
    · apply free_grows table table'
      intro b
      rw [filtered]
      split
      · exact ⟨_, rfl⟩
      · exact ⟨fun _ => true, by simp⟩

/-- The entry is in the bucket of its key. -/
def Stores (m : HashTable) (chains : Lists) (key : ℤ) (e : Entry) : Prop :=
  ∃ i ∈ chains (getHash key).castSucc, entry m i = (key, e)

/-- Two keys of the first buckets, of which one dies at once, and two of the other buckets. -/
def mixed (ttl : ℤ) : List (Call × ℤ) :=
  [(.set 0 0 5, 0), (.set 1 9 6, 0), (.set 8 ttl 7, 0), (.set 9 9 8, 0)]

private theorem exists_mixed (ttl : ℤ) : ∃ m chains,
    (replay tableStep zeroed.sharedMemorySet (mixed ttl)).map (·.2) = some m ∧ Table m chains ∧
      ∀ k e, (replies mapStep .empty (mixed ttl)).2.lookup k = some e ↔ Stores m chains k e := by
  obtain ⟨m, ran, chains, table, stores⟩ :=
    replay_simulates step_simulates (represents_sharedMemorySet zeroed) (mixed ttl)
  exact ⟨m, chains, by rw [ran]; rfl, table, stores⟩

private theorem living_mixed {k : ℤ} {e : Entry} (past : numSections ≤ (getHash k : ℕ))
    (present : (replies mapStep .empty (mixed 9)).2.lookup k = some e) : 1 ≤ e.tDeath := by
  have keys : (replies mapStep .empty (mixed 9)).2.map.keys = {0, 1, 8, 9} := by decide
  have key : k = 0 ∨ k = 1 ∨ k = 8 ∨ k = 9 := by
    have member := BoundedMap.mem_keys.mpr (Option.isSome_of_eq_some present)
    rw [keys] at member
    simpa only [Finset.mem_insert, Finset.mem_singleton] using member
  rcases key with rfl | rfl | rfl | rfl
  · exact absurd past (by decide)
  · exact absurd past (by decide)
  · have own : (⟨7, 9, 9⟩ : Entry) = e := Option.some.inj present
    rw [← own]
    decide
  · have own : (⟨8, 9, 9⟩ : Entry) = e := Option.some.inj present
    rw [← own]
    decide

/-- In the first buckets the dead entry is removed and the living one kept; in the others living ones are
kept, and a dead one is not removed. -/
theorem cleaned_mixed :
    (∃ m chains m', (replay tableStep zeroed.sharedMemorySet (mixed 9)).map (·.2) = some m ∧
      Table m chains ∧ Stores m chains 0 ⟨5, 0, 0⟩ ∧ Stores m chains 1 ⟨6, 9, 9⟩ ∧
      Stores m chains 8 ⟨7, 9, 9⟩ ∧ clean m (fun _ => 1) = some m' ∧ (∃ chains', Table m' chains') ∧
      ∀ chains', Table m' chains' → Cleaned 1 m chains m' chains') ∧
    ∃ m chains m', (replay tableStep zeroed.sharedMemorySet (mixed 0)).map (·.2) = some m ∧
      Table m chains ∧ Stores m chains 8 ⟨7, 0, 0⟩ ∧ Stores m chains 9 ⟨8, 9, 9⟩ ∧
      clean m (fun _ => 1) = some m' ∧ (∃ chains', Table m' chains') ∧
      ∀ chains', Table m' chains' → ¬ Cleaned 1 m chains m' chains' := by
  constructor
  · obtain ⟨m, chains, ran, table, stores⟩ := exists_mixed 9
    obtain ⟨m', cleaned, valid, exactly⟩ := cleaned_iff table 1
    refine ⟨m, chains, m', ran, table, (stores 0 _).mp rfl, (stores 1 _).mp rfl, (stores 8 _).mp rfl,
      cleaned, valid, fun chains' table' => (exactly chains' table').mpr fun b past i listed => ?_⟩
    have hashed := table.hashed b i listed
    subst hashed
    exact living_mixed past ((stores _ _).mpr ⟨i, listed, rfl⟩)
  · obtain ⟨m, chains, ran, table, stores⟩ := exists_mixed 0
    obtain ⟨m', cleaned, valid, exactly⟩ := cleaned_iff table 1
    have present : Stores m chains 8 ⟨7, 0, 0⟩ := (stores 8 _).mp rfl
    refine ⟨m, chains, m', ran, table, present, (stores 9 _).mp rfl, cleaned, valid, ?_⟩
    intro chains' table' all
    obtain ⟨i, listed, dead⟩ := present
    have late := (exactly chains' table').mp all (getHash 8) (by decide) i listed
    rw [show (m.pData i).data = ⟨7, 0, 0⟩ from congrArg Prod.snd dead] at late
    exact absurd late (by decide)

/-- A `set` of key 8 is in bucket 8, and stays there when it has expired. -/
theorem cleaned_fails : ∃ m chains m' chains',
    tableStep zeroed.sharedMemorySet (.set 8 0 5, 0) = some (.ok none, m) ∧ Table m chains ∧
      clean m (fun _ => 1) = some m' ∧ Table m' chains' ∧
      ¬ Cleaned 1 m chains m' chains' := by
  obtain ⟨m, stored, chains, table, stands⟩ :=
    step_simulates _ _ (.set 8 0 5, 0) (represents_sharedMemorySet zeroed)
  have room : ∃ map, BoundedMap.insert? (.empty : Contents) 8 ⟨5, 0, 0 + 0⟩ = some map :=
    ⟨_, dif_pos (.inr (by decide))⟩
  obtain ⟨map, inserted⟩ := room
  simp only [mapStep, inserted] at stored stands
  have present : map.lookup 8 = some ⟨5, 0, 0 + 0⟩ := by
    rw [BoundedMap.lookup_insert? inserted, if_pos rfl]
  obtain ⟨i, member, holds⟩ := (stands 8 _).mp present
  obtain ⟨m', chains', ran, table', same, filtered⟩ := clean_spec table 1
  refine ⟨m, chains, m', chains', stored, table, ran, table', ?_⟩
  intro cleaned
  have remains : i ∈ chains' (getHash 8).castSucc := by
    rw [filtered, if_neg (by decide)]
    exact member
  have late := cleaned.expired (getHash 8) i remains
  have dead : (m'.pData i).data = ⟨5, 0, 0 + 0⟩ := by
    have stayed := congrArg Prod.snd (congrFun same i)
    rw [holds] at stayed
    exact stayed
  rw [dead] at late
  exact absurd late (by decide)

end SphereMultithreading.Soundness.P6
