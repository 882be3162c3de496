import SphereMultithreading.Proofs.P5.Clash
import SphereMultithreading.Soundness.P5.SharedTable

/-! # What the section semaphores of p5 protect

The permits keep a `set` or `del` alone in its section. They do not keep apart calls of different
sections, which meet at the free list or at the heads the loop of `set_node_free` reads, nor calls
whose index is past the semaphores. What the workers touch is disjoint exactly when no such calls
are let in together.
-/

namespace SphereMultithreading.Soundness.P5

open Machine Machine.Permits Model.HashTable Model.P5 Model.P5.HashTable Proofs.HashTable Proofs.P5
open System

variable {capacity : ℕ} {s t : System} {a : Action}

/-- No worker is in `set` or `del` while another one is in a call that touches a common word. -/
def Protected (s : System) : Prop :=
  ∀ v w, v ≠ w → ∀ parcel other, s.workers v = .call parcel → s.workers w = .call other →
    ¬ Conflict s.table parcel.message.call other.message.call

/-- A worker let into its call clashes with no call of another worker, unless both are of one
section with a semaphore. -/
def Apart (s : System) (a : Action) : Prop :=
  ∀ w parcel, a = .down w → s.workers w = .down parcel → ∀ v other, s.workers v = .call other →
    ¬ (parcel.message.semId = other.message.semId ∧ parcel.message.semId < numSections) →
    ¬ Clash s.table parcel.message.call other.message.call

/-- A worker is let into its call when nobody else is in one. -/
def Serial (s : System) (a : Action) : Prop :=
  ∀ w, a = .down w → ∀ v, (s.workers v).calling = false

instance (s : System) (a : Action) : Decidable (Serial s a) :=
  inferInstanceAs (Decidable (∀ w, a = .down w → ∀ v, (s.workers v).calling = false))

/-- Calls that come one after the other do not clash. -/
theorem apart_of_serial (serial : Serial s a) : Apart s a := by
  intro w parcel entered _ v other inside
  have calls := serial w entered v
  rw [inside] at calls
  cases calls

/-- So they do in a run in which every worker finds nobody in a call. -/
theorem guarded_apart_of_serial {actions : List Action}
    (serial : Guarded (step capacity) Serial s actions) : Guarded (step capacity) Apart s actions :=
  serial.imp (I := fun _ => True) (fun _ _ _ => apart_of_serial) (fun _ _ _ _ _ _ => trivial) trivial

theorem conflict_comm {m : Model.P5.HashTable} {call other : Call} :
    Conflict m call other ↔ Conflict m other call := by
  simp only [Conflict, or_comm, and_comm]

theorem permits_of_writes {msg : Message} (writes : msg.call.writes) :
    msg.permits = numWorkers := by
  unfold Message.permits
  unfold Message.call at writes
  cases op : msg.op <;> simp_all [Call.writes]

/-- A section with a semaphore has no two workers inside of which one may write. -/
theorem alone_of_writes (accounted : Accounted s) {v w : Fin numWorkers} (differ : v ≠ w)
    {parcel other : Parcel} (first : s.workers v = .call parcel) (second : s.workers w = .call other)
    (same : parcel.message.semId = other.message.semId)
    (valid : parcel.message.semId < numSections) :
    ¬ (parcel.message.call.writes ∨ other.message.call.writes) := by
  have together := accounted.pair_le s.count_held_nonneg differ ⟨parcel.message.semId, valid⟩
  rw [held_eq first, held_eq second] at together
  simp only [Worker.inside, Option.elim_some, Message.count_held, same, if_true] at together
  have one := parcel.message.permits_pos
  have one' := other.message.permits_pos
  rintro (writes | writes)
  · have all := permits_of_writes writes
    omega
  · have all := permits_of_writes writes
    omega

/-- A worker that is let in has no conflict with a worker in its call. -/
private theorem entered_apart (stepped : s.step capacity a = some t) (accounted : Accounted t)
    (represented : Represented s) (apart : Apart s a) {v w : Fin numWorkers} (differ : v ≠ w)
    {parcel other : Parcel} (entered : a = .down v) (before : s.workers v = .down parcel)
    (after : t.workers v = .call parcel) (inside : t.workers w = .call other) :
    ¬ Conflict s.table parcel.message.call other.message.call := by
  have inside' : s.workers w = .call other := by
    rcases step_call stepped inside with there | ⟨also, -⟩
    · exact there
    · rw [entered] at also
      exact absurd (Action.down.inj also) differ
  by_cases section' : parcel.message.semId = other.message.semId ∧
      parcel.message.semId < numSections
  · intro conflict
    exact alone_of_writes accounted differ after inside section'.1 section'.2 conflict.1
  · obtain ⟨map, chains, table, -⟩ := represented
    rw [conflict_iff_clash table]
    exact apart v parcel entered before w other inside' section'

theorem protected_step (stepped : s.step capacity a = some t) (protects : Protected s)
    (accounted : Accounted s) (represented : Represented s) (apart : Apart s a) : Protected t := by
  have accounted' := accounted_step stepped accounted
  intro v w differ parcel other first second
  rcases step_call stepped first with first' | ⟨entered, before⟩
  · rcases step_call stepped second with second' | ⟨entered, before⟩
    · -- both were in their calls before, and a third worker may have left its own
      have old := protects v w differ parcel other first' second'
      rcases step_table stepped with same | ⟨u, executed, reply, position, left, answered⟩
      · rwa [same]
      · have apartFirst : u ≠ v := by
          rintro rfl
          exact left parcel first
        have apartSecond : u ≠ w := by
          rintro rfl
          exact left other second
        rwa [conflict_step answered (protects u v apartFirst _ _ position first')
          (protects u w apartSecond _ _ position second')]
    · subst entered
      rw [(step_down stepped before).1, conflict_comm]
      exact entered_apart stepped accounted' represented apart differ.symm rfl before second first
  · subst entered
    rw [(step_down stepped before).1]
    exact entered_apart stepped accounted' represented apart differ rfl before first second

/-- In every run of the server and the workers, calls that may write share no word with a call of
another worker exactly when no two clashing calls of different sections, or with an index past the
semaphores, are let in together. -/
theorem calls_apart_iff (capacity : ℕ) (memory : Model.P5.HashTable) {actions : List Action}
    {t : System} (success : run (step capacity) (init memory) actions = some t) :
    Throughout (step capacity) Protected (init memory) actions ↔
      Guarded (step capacity) Apart (init memory) actions := by
  apply throughout_iff_guarded (I := fun s => Protected s ∧ Accounted s ∧ Represented s) _ _ _ success
  · refine ⟨?_, accounted_init memory, represented_init memory⟩
    intro v w _ parcel other first
    cases first
  · exact fun _ all => all.1
  · rintro s a t stepped ⟨protects, accounted, represented⟩ apart
    exact ⟨protected_step stepped protects accounted represented apart,
      accounted_step stepped accounted, represented_step stepped represented⟩
  · rintro s a t stepped ⟨-, -, map, chains, table, -⟩ protects
    rintro w parcel rfl before v other inside -
    obtain ⟨same, workers⟩ := step_down stepped before
    have differ : w ≠ v := by
      rintro rfl
      cases before.symm.trans inside
    rw [← conflict_iff_clash table, ← same]
    apply protects w v differ
    · rw [workers, Function.update_self]
    · rw [workers, Function.update_of_ne differ.symm, inside]

/-- A client connects, its commands `set 0 1` and `set 8 1` reach two workers, and both come into
their calls, of sections 0 and 1. -/
def twoSets : List Action :=
  [.poll 1, .master, .accept, .acceptDone, .drain,
    .poll 1, .client 5 (.bytes ['s', 'e', 't', ' ', '0', ' ', '1']) false 0, .send, .drain,
    .poll 1, .client 5 (.bytes ['s', 'e', 't', ' ', '8', ' ', '1']) false 1, .send, .drain,
    .receive 0, .receive 1, .down 0, .down 1]

theorem calls_apart_twoSets : ∃ t, run (step 8) (init zeroed) twoSets = some t ∧
    (Throughout (step 8) Protected (init zeroed) twoSets ↔
      Guarded (step 8) Apart (init zeroed) twoSets) :=
  ⟨_, rfl, calls_apart_iff 8 zeroed rfl⟩

/-- Both calls read and write the head of the free list. -/
theorem calls_apart_fails :
    ∃ t, run (step 8) (init zeroed) twoSets = some t ∧ ¬ Protected t := by
  refine ⟨_, rfl, ?_⟩
  intro protects
  apply protects 0 1 (by decide) _ _ rfl rfl
  exact ⟨.inl rfl, .head (Fin.last hashTableSize), by decide, by decide⟩

end SphereMultithreading.Soundness.P5
