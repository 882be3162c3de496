import SphereMultithreading.Machine.Expiring
import SphereMultithreading.Soundness.P6.Exclusion
import SphereMultithreading.Soundness.P6.MapRefinement
import SphereMultithreading.Proofs.P6.Cleaner

/-! # Nobody notices the cleaner of p6

To its clients the table is a store whose entries are there until they die. What is left of an entry
after its death, until a call comes across it or the cleaner returns it to the free list, cannot be
read; it only takes room. So the visits of the cleaner may come anywhere between the calls.
-/

namespace SphereMultithreading.Soundness.P6

open Machine Machine.Expiring Model.HashTable Model.HashTable.Memory Model.P6 Model.P6.HashTable
  Proofs.HashTable Proofs.P6

/-- The store of a client, without a bound and without anything expired in it. -/
abbrev Store := ℤ → Option Entry

/-- The entries in time. -/
abbrev Store.at (store : Store) (now : ℤ) : Store := since Entry.tDeath now store

/-- All nodes of the memory are in use: those of entries in time, and those of others that nobody has come
across since they died. -/
def Full (m : HashTable) : Prop :=
  ∃ chains, Table m chains ∧ ∑ b : Fin hashTableSize, (chains b.castSucc).length = bufferSize

/-- What a call may answer to a client of a store whose entries are all in time, when it finds the memory
full or not. A `set` of a new key may be refused if it is full, and a missing key may be reported in two
ways. -/
inductive Answers (full : Prop) (now : ℤ) (store : Store) : Call → Reply → Store → Prop where
  | set (key ttl value : ℤ) :
      Answers full now store (.set key ttl value) (.ok none)
        (Function.update store key (some ⟨value, ttl, now + ttl⟩))
  | refused {key : ℤ} (ttl value : ℤ) (noRoom : full) (absent : store key = none) :
      Answers full now store (.set key ttl value) (.error noMemory) store
  | get {key : ℤ} {e : Entry} (present : store key = some e) :
      Answers full now store (.get key) (.ok (some e.value))
        (Function.update store key (some { e with tDeath := now + e.ttl }))
  | del {key : ℤ} {e : Entry} (present : store key = some e) :
      Answers full now store (.del key) (.ok none) (Function.update store key none)
  | missing {call : Call} {key : ℤ} {err : HashTableError} (touches : call = .get key ∨ call = .del key)
      (absent : store key = none) (error : err = noKey ∨ err = notExists) :
      Answers full now store call (.error err) store

/-- A call, when it is made, what it answers and the memory it finds. -/
structure Answered where
  call : Call
  now : ℤ
  reply : Reply
  memory : HashTable

/-- The calls may be answered so from a store on. -/
def Explained : Store → List Answered → Prop
  | _, [] => True
  | store, one :: rest =>
      ∃ next, Answers (Full one.memory) one.now (store.at one.now) one.call one.reply next ∧
        Explained next rest

/-- A call, or a visit of the cleaner to a section that is over at some time. -/
inductive Timed where
  | call (call : Call) (now : ℤ)
  | visit (j i : ℕ) (clock : ℕ → ℤ) (till : ℤ)

/-- The clock never goes back. -/
def Timely : ℤ → List Timed → Prop
  | _, [] => True
  | last, .call _ now :: rest => last ≤ now ∧ Timely now rest
  | last, .visit _ _ clock till :: rest => last ≤ till ∧ (∀ tick, clock tick ≤ till) ∧ Timely till rest

/-- The calls among the actions, and when they are made. -/
def asked : List Timed → List (Call × ℤ)
  | [] => []
  | .call call now :: rest => (call, now) :: asked rest
  | .visit _ _ _ _ :: rest => asked rest

/-- A call that runs alone, with what it answers, or a visit that does, and answers nobody. -/
def serve (m : HashTable) : Timed → Option (List Answered × HashTable)
  | .call call now => (tableStep m (call, now)).map fun (reply, next) => ([⟨call, now, reply, m⟩], next)
  | .visit j i clock _ => (cleanSection clock j i m 0).map fun (_, m, _) => ([], m)

/-! ## The calls -/

/-- The map with everything that has expired stands for the store at a time. -/
def Shows (now : ℤ) (map : Contents) (store : Store) : Prop := Alike Entry.tDeath now store map.lookup

variable {now later : ℤ} {map map' : Contents} {store : Store} {key : ℤ}

theorem Shows.missing (shown : Shows now map store) (absent : map.lookup key = none) :
    store.at now key = none := by
  rw [Store.at, shown, since_eq_none, absent]
  simp

theorem Shows.expired (shown : Shows now map store) {e : Entry} (stored : map.lookup key = some e)
    (dead : e.tDeath < now) : store.at now key = none := by
  rw [Store.at, shown, since_eq_none, stored]
  rintro _ ⟨⟩
  exact dead

theorem Shows.present (shown : Shows now map store) {e : Entry} (stored : map.lookup key = some e)
    (alive : now ≤ e.tDeath) : store.at now key = some e := by
  rw [Store.at, shown, since_eq_some]
  exact ⟨stored, alive⟩

theorem lookup_eq_update {e : Entry} (inserted : map.insert? key e = some map') :
    map'.lookup = Function.update map.lookup key (some e) := by
  funext k
  rw [BoundedMap.lookup_insert? inserted, Function.update_apply]

theorem erase_eq_update : (map.erase key).lookup = Function.update map.lookup key none := by
  funext k
  rw [BoundedMap.lookup_erase, Function.update_apply]

/-- Forgetting an expired entry shows nobody anything else. -/
theorem Shows.forget (shown : Shows now map store) {e : Entry} (stored : map.lookup key = some e)
    (dead : e.tDeath < now) : Shows now (map.erase key) (store.at now) := by
  apply Alike.trans shown.since_left
  apply alike_of_gone
  intro k
  rw [BoundedMap.lookup_erase]
  split
  · next same =>
    refine .inr ⟨rfl, ?_⟩
    rw [same, stored]
    rintro _ ⟨⟩
    exact dead
  · exact .inl rfl

/-- A call on the map answers as the store may. -/
theorem mapStep_answers {full : Prop} (room : map.size = bufferSize → full) (shown : Shows now map store)
    (call : Call) : ∃ next,
    Answers full now (store.at now) call (mapStep map (call, now)).1 next ∧
      Shows now (mapStep map (call, now)).2 next := by
  cases call with
  | set key ttl value =>
    cases inserted : map.insert? key ⟨value, ttl, now + ttl⟩ with
    | some map' =>
      simp only [mapStep, inserted]
      refine ⟨_, .set key ttl value, ?_⟩
      rw [Shows, lookup_eq_update inserted]
      exact shown.since_left.update key _
    | none =>
      simp only [mapStep, inserted]
      have absent : map.lookup key = none := by
        by_contra present
        obtain ⟨e, stored⟩ := Option.ne_none_iff_exists'.mp present
        obtain ⟨map', done⟩ := BoundedMap.insert?_of_lookup ⟨value, ttl, now + ttl⟩ stored
        cases done.symm.trans inserted
      have noRoom := room ((BoundedMap.insert?_eq_none_iff _ absent).mp inserted)
      exact ⟨_, .refused ttl value noRoom (shown.missing absent), shown.since_left⟩
  | get key =>
    cases stored : map.lookup key with
    | none =>
      simp only [mapStep, stored]
      exact ⟨_, .missing (.inl rfl) (shown.missing stored) (.inl rfl), shown.since_left⟩
    | some e =>
      rcases le_or_gt now e.tDeath with alive | dead
      · obtain ⟨map', inserted⟩ :=
          BoundedMap.insert?_of_lookup ({ e with tDeath := now + e.ttl } : Entry) stored
        simp only [mapStep, stored, if_pos alive, inserted, Option.getD_some]
        refine ⟨_, .get (shown.present stored alive), ?_⟩
        rw [Shows, lookup_eq_update inserted]
        exact shown.since_left.update key _
      · simp only [mapStep, stored, if_neg (not_le.mpr dead)]
        exact ⟨_, .missing (.inl rfl) (shown.expired stored dead) (.inr rfl), shown.forget stored dead⟩
  | del key =>
    cases stored : map.lookup key with
    | none =>
      simp only [mapStep, stored]
      exact ⟨_, .missing (.inr rfl) (shown.missing stored) (.inl rfl), shown.since_left⟩
    | some e =>
      rcases le_or_gt now e.tDeath with alive | dead
      · simp only [mapStep, stored, if_pos alive]
        refine ⟨_, .del (shown.present stored alive), ?_⟩
        rw [Shows, erase_eq_update]
        exact shown.since_left.update key none
      · simp only [mapStep, stored, if_neg (not_le.mpr dead)]
        exact ⟨_, .missing (.inr rfl) (shown.expired stored dead) (.inr rfl), shown.forget stored dead⟩

/-! ## The visits -/

/-- A visit of the cleaner leaves the entries of a map from which only expired ones are missing. -/
theorem visit_represents {m : HashTable} (represents : Represents m map) (clock : ℕ → ℤ) (j i : ℕ) :
    ∃ i' m' tick map', cleanSection clock j i m 0 = some (i', m', tick) ∧ Represents m' map' ∧
      ∀ k, map'.lookup k = map.lookup k ∨
        map'.lookup k = none ∧ ∀ e, map.lookup k = some e → ∃ now, e.tDeath < clock now := by
  obtain ⟨chains, table, stores⟩ := represents
  obtain ⟨i', m', tick, chains', cleaned, table', same, thinned⟩ := cleanSection_thins table clock j i 0
  obtain ⟨map', holds⟩ :=
    map.exists_restrict fun k => ∃ p ∈ chains' (getHash k).castSucc, (entry m p).1 = k
  have key (p : ℤ) : (entry m p).1 = (m.pData p).key := rfl
  refine ⟨i', m', tick, map', cleaned, ⟨chains', table', fun k d => ?_⟩, fun k => ?_⟩
  · rw [same]
    constructor
    · intro present
      obtain ⟨q, stays, own⟩ : ∃ p ∈ chains' (getHash k).castSucc, (entry m p).1 = k := by
        by_contra dropped
        rw [(holds k).2 dropped] at present
        cases present
      rw [(holds k).1 ⟨q, stays, own⟩] at present
      obtain ⟨p, member, stored⟩ := (stores k d).mp present
      -- the key is in one node only
      obtain rfl : q = p := by
        apply table.distinct (getHash k) q (thinned.sub _ q stays) p member
        rw [← key, ← key, own, stored]
      exact ⟨q, stays, stored⟩
    · rintro ⟨p, stays, stored⟩
      rw [(holds k).1 ⟨p, stays, by rw [stored]⟩]
      exact (stores k d).mpr ⟨p, thinned.sub _ p stays, stored⟩
  · by_cases kept : ∃ p ∈ chains' (getHash k).castSucc, (entry m p).1 = k
    · exact .inl ((holds k).1 kept)
    · refine .inr ⟨(holds k).2 kept, fun e stored => ?_⟩
      obtain ⟨p, member, own⟩ := (stores k e).mp stored
      rcases thinned.gone _ p member with stays | ⟨now, expired⟩
      · exact absurd ⟨p, stays, by rw [own]⟩ kept
      · refine ⟨now, ?_⟩
        have data : (m.pData p).data = e := congrArg Prod.snd own
        simpa [isExpired, data] using expired

/-! ## Runs -/

/-- From memory that shows a store on, every sequence of calls and visits is answered as by the store. -/
theorem serve_explained {m : HashTable} (represents : Represents m map) (shown : Shows now map store)
    {actions : List Timed} (timely : Timely now actions) : ∃ answered last,
      replay serve m actions = some (answered, last) ∧
        (answered.flatten.map fun one => (one.call, one.now)) = asked actions ∧
        Explained store answered.flatten := by
  induction actions generalizing now m map store with
  | nil => exact ⟨[], m, rfl, rfl, trivial⟩
  | cons action rest ih =>
    cases action with
    | call call time =>
      obtain ⟨order, tail⟩ := timely
      obtain ⟨next, called, represents'⟩ := step_simulates m map (call, time) represents
      obtain ⟨store', answers, shows'⟩ :=
        mapStep_answers represents.sum_length_of_full (shown.mono order) call
      obtain ⟨answered, last, replayed, calls, explained⟩ := ih represents' shows' tail
      refine ⟨[⟨call, time, (mapStep map (call, time)).1, m⟩] :: answered, last, ?_, ?_, ?_⟩
      · simp [replay, serve, called, replayed]
      · simpa [asked] using calls
      · exact ⟨store', answers, explained⟩
    | visit j i clock till =>
      obtain ⟨order, ticks, tail⟩ := timely
      obtain ⟨i', next, tick, map', cleaned, represents', gone⟩ := visit_represents represents clock j i
      have shows' : Shows till map' store := by
        refine (shown.mono order).trans (alike_of_gone fun k => (gone k).imp_right ?_)
        rintro ⟨missing, dead⟩
        refine ⟨missing, fun e stored => ?_⟩
        obtain ⟨tick, early⟩ := dead e stored
        exact early.trans_le (ticks tick)
      obtain ⟨answered, last, replayed, calls, explained⟩ := ih represents' shows' tail
      refine ⟨[] :: answered, last, ?_, calls, explained⟩
      simp [replay, serve, cleaned, replayed]

/-- From the laid out memory on, as long as the clock does not go back, the calls are answered as by an
empty store whose entries are there until they die, wherever the cleaner's visits come; nothing is refused
unless all nodes are in use. -/
theorem cleaner_unnoticed (memory : HashTable) {start : ℤ} {actions : List Timed}
    (timely : Timely start actions) : ∃ answered last,
      replay serve memory.sharedMemorySet actions = some (answered, last) ∧
        (answered.flatten.map fun one => (one.call, one.now)) = asked actions ∧
        Explained (fun _ => none) answered.flatten := by
  refine serve_explained (represents_sharedMemorySet memory) ?_ timely
  exact alike_of_gone fun k => .inl (BoundedMap.lookup_empty k)

/-- An entry dies at 10, and the cleaner comes to its section at 11. -/
theorem cleaner_unnoticed_dead : ∃ answered last,
    replay serve zeroed.sharedMemorySet
        [.call (.set 5 10 7) 0, .visit 0 0 (fun _ => 11) 11, .call (.get 5) 12] = some (answered, last) ∧
      (answered.flatten.map fun one => (one.call, one.now)) = [(.set 5 10 7, 0), (.get 5, 12)] ∧
      Explained (fun _ => none) answered.flatten := by
  have timely : Timely 0 [.call (.set 5 10 7) 0, .visit 0 0 (fun _ => 11) 11, .call (.get 5) 12] := by
    simp [Timely]
  exact cleaner_unnoticed zeroed timely

end SphereMultithreading.Soundness.P6
