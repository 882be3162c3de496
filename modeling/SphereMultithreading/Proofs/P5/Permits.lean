import SphereMultithreading.Proofs.P5.System

/-! # The permits of the section semaphores of p5

Between its two `semop` calls a worker holds 1 permit of its section for a `get` and all of them
for a `set` or `del`, unless its index is past the semaphores. On every path through the worker's
loop, also through the exceptions of the table, what was taken is given back.
-/

namespace SphereMultithreading.Model.P5

open Model.HashTable HashTable Machine Machine.Permits

namespace Message

@[simp] theorem key_answered (msg : Message) (reply : HashTable.Reply) :
    (msg.answered reply).key = msg.key := by
  unfold answered
  split
  · rfl
  · split <;> rfl

@[simp] theorem op_answered (msg : Message) (reply : HashTable.Reply) :
    (msg.answered reply).op = msg.op := by
  unfold answered
  split
  · rfl
  · split <;> rfl

@[simp] theorem mtype_answered (msg : Message) (reply : HashTable.Reply) :
    (msg.answered reply).mtype = msg.mtype := by
  unfold answered
  split
  · rfl
  · split <;> rfl

@[simp] theorem client_answered (msg : Message) (reply : HashTable.Reply) :
    (msg.answered reply).client = msg.client := by
  unfold answered
  split
  · rfl
  · split <;> rfl

@[simp] theorem semId_answered (msg : Message) (reply : HashTable.Reply) :
    (msg.answered reply).semId = msg.semId := by
  rw [semId, key_answered, semId]

/-- The permits a message's worker holds inside. -/
def held (msg : Message) : Option (Fin numSections × ℤ) :=
  if valid : msg.semId < numSections then some (⟨msg.semId, valid⟩, msg.permits) else none

theorem held_of_valid {msg : Message} {i : Fin numSections} (index : msg.semId = i) :
    msg.held = some (i, (msg.permits : ℤ)) := by
  obtain ⟨i, valid⟩ := i
  subst index
  exact dif_pos valid

theorem held_of_past {msg : Message} (past : ¬ msg.semId < numSections) : msg.held = none :=
  dif_neg past

@[simp] theorem held_answered (msg : Message) (reply : HashTable.Reply) :
    (msg.answered reply).held = msg.held := by
  simp only [held, semId_answered, permits, op_answered]

theorem permits_pos (msg : Message) : 0 < msg.permits := by
  unfold permits
  split <;> decide

theorem permits_le (msg : Message) : msg.permits ≤ numWorkers := by
  unfold permits
  split <;> decide

theorem count_held (msg : Message) (i : Fin numSections) :
    count msg.held i = if msg.semId = i then (msg.permits : ℤ) else 0 := by
  by_cases valid : msg.semId < numSections
  · rw [held_of_valid (i := ⟨msg.semId, valid⟩) rfl]
    by_cases index : msg.semId = i
    · obtain rfl : ⟨msg.semId, valid⟩ = i := Fin.ext index
      rw [count_same, if_pos rfl]
    · rw [if_neg index]
      apply count_other
      rintro rfl
      exact index rfl
  · rw [held_of_past valid, if_neg, count_none]
    intro index
    exact valid (index ▸ i.isLt)

end Message

/-- The worker is in a call of the table. -/
def Worker.calling : Worker → Bool
  | .call _ => true
  | _ => false

/-- The message a worker has between its `semop` calls. -/
def Worker.inside : Worker → Option Message
  | .call parcel => some parcel.message
  | .up parcel => some parcel.message
  | _ => none

namespace System

variable {capacity : ℕ} {s t : System} {w : Fin numWorkers}

def held (s : System) (w : Fin numWorkers) : Option (Fin numSections × ℤ) :=
  (s.workers w).inside.elim none Message.held

/-- Every section's value and the permits held of it make up the number of workers. -/
def Accounted (s : System) : Prop :=
  Balanced (fun _ => (numWorkers : ℤ)) (fun i => (s.sems i : ℤ)) s.held

theorem held_eq {worker : Worker} (position : s.workers w = worker) :
    s.held w = worker.inside.elim none Message.held := by
  rw [held, position]

theorem count_held_nonneg (s : System) (w : Fin numWorkers) (i : Fin numSections) :
    0 ≤ count (s.held w) i := by
  rcases inside : (s.workers w).inside with _ | msg
  · rw [held, inside]
    exact le_rfl
  · rw [held, inside, Option.elim_some, Message.count_held]
    split <;> omega

theorem semDown_count {msg : Message} (passed : s.semDown msg = some t) (i : Fin numSections) :
    (t.sems i : ℤ) + count msg.held i = s.sems i := by
  unfold semDown at passed
  split at passed
  · rename_i valid
    simp only [Option.ite_none_right_eq_some, Option.some.injEq] at passed
    obtain ⟨enough, rfl⟩ := passed
    rw [Message.held_of_valid (i := ⟨msg.semId, valid⟩) rfl]
    rcases eq_or_ne ⟨msg.semId, valid⟩ i with rfl | differ
    · simp only [setSem, Function.update_self, count_same]
      omega
    · simp [setSem, Function.update_of_ne (Ne.symm differ), differ]
  · rename_i past
    cases passed
    rw [Message.held_of_past past, count_none, add_zero]

theorem semUp_count (s : System) (msg : Message) (i : Fin numSections) :
    ((s.semUp msg).sems i : ℤ) = s.sems i + count msg.held i := by
  unfold semUp
  split
  · rename_i valid
    rw [Message.held_of_valid (i := ⟨msg.semId, valid⟩) rfl]
    rcases eq_or_ne ⟨msg.semId, valid⟩ i with rfl | differ
    · simp [setSem]
    · simp [setSem, Function.update_of_ne (Ne.symm differ), differ]
  · rename_i past
    rw [Message.held_of_past past, count_none, add_zero]

/-- A step that puts a worker at a new position, against what the semaphores give or take. -/
private theorem accounted_of_works {worker : Worker} (accounted : Accounted s)
    (workers : t.workers = Function.update s.workers w worker)
    (exchanged : ∀ i, (t.sems i : ℤ) + count (worker.inside.elim none Message.held) i =
      s.sems i + count (s.held w) i) : Accounted t := by
  have moved : t.held = Function.update s.held w (worker.inside.elim none Message.held) := by
    funext v
    rcases eq_or_ne v w with rfl | differ
    · rw [held, workers, Function.update_self, Function.update_self]
    · rw [held, workers, Function.update_of_ne differ, Function.update_of_ne differ, held]
  unfold Accounted
  rw [moved]
  exact accounted.exchange w _ exchanged

theorem accounted_init (memory : HashTable) : Accounted (init memory) :=
  balanced_of_unheld fun _ => rfl

theorem accounted_step {a : Action} (stepped : s.step capacity a = some t)
    (accounted : Accounted s) : Accounted t := by
  cases owner : a.worker with
  | none =>
    obtain ⟨workers, sems, -⟩ := workersIdle_of_server stepped owner
    have same : t.held = s.held := by
      funext w
      rw [held, workers, held]
    unfold Accounted
    rw [same, sems]
    exact accounted
  | some w =>
    cases a with
    | receive v =>
      obtain ⟨parcel, rest, position, taken, rfl⟩ := receive_eq_some.mp stepped
      obtain ⟨before, after, -, -, -, rfl⟩ := msgrcv_eq_some taken
      apply accounted_of_works accounted (w := v) rfl
      intro i
      rw [held_eq position]
      rfl
    | down v =>
      obtain ⟨parcel, next, position, passed, rfl⟩ := down_eq_some.mp stepped
      have only := semDown_eq passed
      apply accounted_of_works accounted (w := v) (by rw [only]; rfl)
      intro i
      rw [held_eq position]
      exact (semDown_count passed i).trans (add_zero _).symm
    | call v =>
      obtain ⟨parcel, reply, table, position, -, rfl⟩ := call_eq_some.mp stepped
      apply accounted_of_works accounted (w := v) rfl
      intro i
      rw [held_eq position]
      simp only [Worker.inside, Option.elim_some, Message.held_answered]
      rfl
    | up v =>
      obtain ⟨parcel, position, rfl⟩ := up_eq_some.mp stepped
      apply accounted_of_works accounted (w := v) (by rw [semUp_eq]; rfl)
      intro i
      rw [held_eq position]
      exact (add_zero _).trans (semUp_count s parcel.message i)
    | reply v =>
      obtain ⟨parcel, position, -, rfl⟩ := reply_eq_some.mp stepped
      apply accounted_of_works accounted (w := v) rfl
      intro i
      rw [held_eq position]
      rfl
    | _ => cases owner

end System

end SphereMultithreading.Model.P5
