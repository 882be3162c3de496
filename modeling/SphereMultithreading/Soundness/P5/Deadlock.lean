import SphereMultithreading.Machine.Progress
import SphereMultithreading.Proofs.P5.Pending
import SphereMultithreading.Soundness.P5.SharedTable

/-! # When the message queue of p5 blocks everybody

Requests and replies share one bounded queue, and only the server makes room from the replies'
side, without ever waiting for one. So when it waits to send a request, the workers may fill the
queue with replies and stop. Whether they can is a matter of counting: a queue that has room for
every command not yet answered never blocks the server, and one that has not can be filled.
-/

namespace SphereMultithreading.Soundness.P5

open Machine Machine.Permits Model.HashTable Model.P5 Model.P5.HashTable Proofs.HashTable System

variable {capacity : ℕ} {s t : System} {a : Action} {w : Fin numWorkers}

/-- The server waits in `msgsnd`, and every worker waits in `msgsnd` or `msgrcv`. -/
structure Deadlocked (capacity : ℕ) (s : System) : Prop where
  server : ∃ parcel hup n, s.server = .send parcel hup n
  full : capacity ≤ s.queue.length
  workers : ∀ w, (∃ parcel, s.workers w = .reply parcel) ∨
    (s.workers w = .receive ∧ ∀ parcel ∈ s.queue, parcel.message.mtype ≠ workerId w)

/-- A step of one of the workers. -/
def ByWorker (a : Action) : Prop := ∃ w, a.worker = some w

/-- However the workers go on while the server waits, they do not come to a deadlock. -/
def Unblockable (capacity : ℕ) (s : System) : Prop :=
  ∀ actions t, (∀ a ∈ actions, ByWorker a) → run (step capacity) s actions = some t →
    ¬ Deadlocked capacity t

/-- A request is taken from a client only while the queue has room for all commands that are not
answered. -/
def Spare (capacity : ℕ) (s : System) (a : Action) : Prop :=
  ∀ msg, Requests s a msg → s.unanswered < capacity

/-- No process has a step. -/
theorem Deadlocked.step_eq_none (deadlocked : Deadlocked capacity s) (a : Action) :
    s.step capacity a = none := by
  obtain ⟨parcel, hup, n, position⟩ := deadlocked.server
  have full := deadlocked.full
  cases owner : a.worker with
  | none => cases a <;> simp_all [System.step, System.poll, master, System.accept, acceptDone,
      System.client, System.send, drain, msgsnd, Action.worker]
  | some w =>
    rcases deadlocked.workers w with ⟨reply, waits⟩ | ⟨waits, unsent⟩
    · cases a <;> cases owner <;> simp [System.step, System.receive, System.down, System.call,
        System.up, System.reply, msgsnd, waits, full]
    · have nothing := msgrcv_eq_none.mpr unsent
      cases a <;> cases owner <;> simp [System.step, System.receive, System.down, System.call,
        System.up, System.reply, waits, nothing]

/-! ## The workers run until they wait -/

/-- The steps a worker has before it can receive again. -/
def rank : Worker → ℕ
  | .receive => 0
  | .reply _ => 1
  | .up _ => 2
  | .call _ => 3
  | .down _ => 4

/-- The steps the workers have before all of them wait, whatever the queue's capacity. -/
def work (s : System) : ℕ :=
  5 * s.queue.countP (fun parcel => parcel.message.mtype ≠ serverMsgId) + ∑ w, rank (s.workers w)

theorem workerId_ne (w : Fin numWorkers) : workerId w ≠ serverMsgId := by
  change (w : ℕ) + 2 ≠ 1
  omega

private theorem work_lt {worker : Worker} {n : ℕ}
    (workers : t.workers = Function.update s.workers w worker)
    (requests : t.queue.countP (fun parcel => parcel.message.mtype ≠ serverMsgId) + n =
      s.queue.countP fun parcel => parcel.message.mtype ≠ serverMsgId)
    (less : rank worker < rank (s.workers w) + 5 * n) : work t < work s := by
  have changed := sum_update rank s.workers w worker
  rw [work, work, workers]
  omega

/-- Each step of a worker is one of those. -/
theorem work_lowered (stepped : s.step capacity a = some t) (works : ByWorker a)
    (typed : Typed capacity s) : work t < work s := by
  obtain ⟨w, owner⟩ := works
  cases a with
  | receive v =>
    obtain ⟨parcel, others, position, taken, rfl⟩ := receive_eq_some.mp stepped
    obtain ⟨before, after, cut, named, -, rfl⟩ := msgrcv_eq_some taken
    apply work_lt (w := v) (n := 1) rfl
    · have request : parcel.message.mtype ≠ serverMsgId := named ▸ workerId_ne v
      rw [cut]
      simp only [setWorker, List.countP_append, List.countP_cons]
      simp [request]
      omega
    · rw [position]
      simp [rank]
  | down v =>
    obtain ⟨parcel, next, position, passed, rfl⟩ := down_eq_some.mp stepped
    rw [semDown_eq passed]
    apply work_lt (w := v) (n := 0) rfl
    · rfl
    · rw [position]
      simp [rank]
  | call v =>
    obtain ⟨parcel, reply, table, position, -, rfl⟩ := call_eq_some.mp stepped
    apply work_lt (w := v) (n := 0) rfl
    · rfl
    · rw [position]
      simp [rank]
  | up v =>
    obtain ⟨parcel, position, rfl⟩ := up_eq_some.mp stepped
    rw [semUp_eq]
    apply work_lt (w := v) (n := 0) rfl
    · rfl
    · rw [position]
      simp [rank]
  | reply v =>
    obtain ⟨parcel, position, -, rfl⟩ := reply_eq_some.mp stepped
    have reply := typed.workers v parcel (by rw [position]; rfl)
    apply work_lt (w := v) (n := 0) rfl
    · simp [setWorker, reply]
    · rw [position]
      simp [rank]
  | _ => cases owner

/-- A worker that waits at `sem_down` waits for one that is between its own `semop` calls. -/
theorem exists_inside (accounted : Accounted s) {msg : Message} (waits : s.semDown msg = none) :
    ∃ v other, (s.workers v).inside = some other := by
  by_contra outside
  push Not at outside
  have unheld : ∀ v, s.held v = none := by
    intro v
    rcases inside : (s.workers v).inside with _ | other
    · rw [held, inside]
      rfl
    · exact absurd inside (outside v other)
  unfold semDown at waits
  split at waits
  · rename_i valid
    have initial := accounted.value_of_unheld (i := ⟨msg.semId, valid⟩)
      fun v => by rw [unheld, count_none]
    simp only [ite_eq_right_iff, reduceCtorEq, imp_false, not_le] at waits
    have most := msg.permits_le
    omega
  · cases waits

/-- What holds of every reachable state. -/
structure Sound (capacity : ℕ) (s : System) : Prop where
  typed : Typed capacity s
  accounted : Accounted s
  represented : Represented s

theorem sound_init (capacity : ℕ) (memory : Model.P5.HashTable) : Sound capacity (init memory) :=
  ⟨typed_init capacity memory, accounted_init memory, represented_init memory⟩

theorem sound_step (stepped : s.step capacity a = some t) (sound : Sound capacity s) :
    Sound capacity t :=
  ⟨typed_step stepped sound.typed, accounted_step stepped sound.accounted,
    represented_step stepped sound.represented⟩

/-- When no worker has a step, each of them waits for the queue. -/
theorem waits_of_stuck (sound : Sound capacity s)
    (stuck : ∀ a, ByWorker a → s.step capacity a = none) (w : Fin numWorkers) :
    (∃ parcel, s.workers w = .reply parcel ∧ capacity ≤ s.queue.length) ∨
      (s.workers w = .receive ∧ ∀ parcel ∈ s.queue, parcel.message.mtype ≠ workerId w) := by
  have running : ∀ v parcel, s.workers v ≠ .call parcel ∧ s.workers v ≠ .up parcel := by
    intro v parcel
    constructor
    · intro position
      obtain ⟨t, enabled⟩ : ∃ t, s.step capacity (.call v) = some t :=
        call_enabled sound.represented position
      rw [stuck (.call v) ⟨v, rfl⟩] at enabled
      cases enabled
    · intro position
      have enabled := up_eq_some.mpr ⟨parcel, position, rfl⟩
      cases (stuck (.up v) ⟨v, rfl⟩).symm.trans enabled
  cases position : s.workers w with
  | receive =>
    have waits := stuck (.receive w) ⟨w, rfl⟩
    simp only [System.step, System.receive, position, Option.map_eq_none_iff, msgrcv_eq_none] at waits
    exact .inr ⟨rfl, waits⟩
  | down parcel =>
    have waits := stuck (.down w) ⟨w, rfl⟩
    simp only [System.step, System.down, position, Option.map_eq_none_iff] at waits
    obtain ⟨v, other, inside⟩ := exists_inside sound.accounted waits
    cases there : s.workers v with
    | call parcel => exact absurd there (running v parcel).1
    | up parcel => exact absurd there (running v parcel).2
    | _ =>
      rw [there] at inside
      cases inside
  | call parcel => exact absurd position (running w parcel).1
  | up parcel => exact absurd position (running w parcel).2
  | reply parcel =>
    have waits := stuck (.reply w) ⟨w, rfl⟩
    simp only [System.step, System.reply, position, Option.map_eq_none_iff, msgsnd, ite_eq_right_iff,
      reduceCtorEq, imp_false, not_lt] at waits
    exact .inl ⟨parcel, rfl, waits⟩

/-- Workers that all wait, with as many commands unanswered as the queue can hold, have filled it. -/
theorem deadlocked_of_stuck (sound : Sound capacity s)
    (stuck : ∀ a, ByWorker a → s.step capacity a = none)
    (server : ∃ parcel hup n, s.server = .send parcel hup n) (many : capacity ≤ s.unanswered) :
    Deadlocked capacity s := by
  refine ⟨server, ?_, fun w => ?_⟩
  · by_contra room
    have waiting : ∀ w, (s.workers w).tags = 0 := by
      intro w
      rcases waits_of_stuck sound stuck w with ⟨parcel, -, full⟩ | ⟨position, -⟩
      · exact absurd full room
      · rw [position]
        rfl
    have all : s.unanswered = s.queue.length := by
      simp [unanswered, pending, waiting]
    omega
  · rcases waits_of_stuck sound stuck w with ⟨parcel, position, -⟩ | idle
    · exact .inl ⟨parcel, position⟩
    · exact .inr idle

/-! ## What the server's step decides -/

/-- While only workers move, the server waits on and the commands without an answer stay. -/
theorem run_workers {actions : List Action} (workers : ∀ a ∈ actions, ByWorker a)
    (success : run (step capacity) s actions = some t) :
    t.server = s.server ∧ t.unanswered = s.unanswered := by
  induction actions generalizing s with
  | nil =>
    cases success
    exact ⟨rfl, rfl⟩
  | cons a rest ih =>
    obtain ⟨next, stepped, suffix⟩ := run_cons_eq_some.mp success
    obtain ⟨w, owner⟩ := workers a List.mem_cons_self
    obtain ⟨server, same⟩ := ih (fun b member => workers b (List.mem_cons_of_mem _ member)) suffix
    obtain ⟨worker, works⟩ := works_of_worker stepped owner
    refine ⟨server.trans works.idle.server, same.trans ?_⟩
    rw [unanswered, pending_of_worker stepped owner, unanswered]

/-- A server that waits with fewer commands unanswered than the queue can hold is not blocked. -/
theorem unblockable_of_spare
    (spare : (∃ parcel hup n, s.server = .send parcel hup n) → s.unanswered < capacity) :
    Unblockable capacity s := by
  intro actions t workers success deadlocked
  obtain ⟨server, same⟩ := run_workers workers success
  have few := spare (server ▸ deadlocked.server)
  have full := deadlocked.full
  have bound := t.length_queue_le
  omega

/-- A server that waits with as many unanswered can be blocked. -/
theorem spare_of_unblockable (sound : Sound capacity s)
    (server : ∃ parcel hup n, s.server = .send parcel hup n)
    (unblockable : Unblockable capacity s) : s.unanswered < capacity := by
  by_contra many
  obtain ⟨actions, t, guarded, success, sound', stuck⟩ :=
    @exists_stuck _ _ (step capacity) (fun _ a => ByWorker a) (Sound capacity) work
      (fun _ _ _ _ stepped sound => sound_step stepped sound)
      (fun _ _ _ mine stepped sound => work_lowered stepped mine sound.typed) s sound
  have workers := forall_mem_of_guarded success guarded
  obtain ⟨server', same⟩ := run_workers workers success
  apply unblockable actions t workers success
  exact deadlocked_of_stuck sound' stuck (server' ▸ server) (by omega)

theorem unanswered_of_requests (stepped : s.step capacity a = some t) {msg : Message}
    (requests : Requests s a msg) : t.unanswered = s.unanswered := by
  obtain ⟨fd, recv, hup, rand, text, rfl, -, -⟩ := requests
  have workers := (workersIdle_of_server stepped rfl).workers
  rcases queue_of_server stepped rfl with same | ⟨other, -⟩ | ⟨other, -⟩
  · rw [unanswered, unanswered, pending, pending, workers, same]
  · cases other
  · cases other

/-- In every run, no state can be driven into a deadlock by the workers exactly when the server
takes each request while the queue has room for all commands that are not answered. -/
theorem deadlock_free_iff (capacity : ℕ) (memory : Model.P5.HashTable) {actions : List Action}
    {t : System} (success : run (step capacity) (init memory) actions = some t) :
    (Throughout (step capacity) (Unblockable capacity) (init memory) actions ↔
        Guarded (step capacity) (Spare capacity) (init memory) actions) ∧
      (Guarded (step capacity) (Spare capacity) (init memory) actions →
        Throughout (step capacity) (fun s => ¬ Deadlocked capacity s) (init memory) actions) := by
  have exact : Throughout (step capacity) (Unblockable capacity) (init memory) actions ↔
      Guarded (step capacity) (Spare capacity) (init memory) actions := by
    apply throughout_iff_guarded (I := fun s => Sound capacity s ∧
      ((∃ parcel hup n, s.server = .send parcel hup n) → s.unanswered < capacity)) _ _ _ success
    · refine ⟨sound_init capacity memory, ?_⟩
      rintro ⟨parcel, hup, n, position⟩
      cases position
    · exact fun _ both => unblockable_of_spare both.2
    · rintro s a t stepped ⟨sound, spare⟩ guarded
      refine ⟨sound_step stepped sound, ?_⟩
      rintro ⟨parcel, hup, n, position⟩
      rcases send_of_step stepped position with ⟨before, w, owner⟩ | requests
      · rw [unanswered, pending_of_worker stepped owner]
        exact spare ⟨parcel, hup, n, before⟩
      · rw [unanswered_of_requests stepped requests]
        exact guarded _ requests
    · rintro s a t stepped ⟨sound, -⟩ unblockable msg requests
      obtain ⟨command, hup, n, position⟩ := server_of_requests stepped requests
      have few := spare_of_unblockable (sound_step stepped sound) ⟨_, _, _, position⟩ unblockable
      rwa [unanswered_of_requests stepped requests] at few
  refine ⟨exact, fun guarded => ?_⟩
  apply (exact.mpr guarded).imp
  intro s unblockable
  exact unblockable [] s (by simp) rfl

/-- A client sends `get 1` twice, the second time when the reply to the first is in the queue, which
holds one message. -/
def twoGets : List Action :=
  [.poll 1, .master, .accept, .acceptDone, .drain,
    .poll 1, .client 5 (.bytes ['g', 'e', 't', ' ', '1']) false 0, .send, .drain,
    .receive 0, .down 0, .call 0, .up 0, .reply 0,
    .poll 1, .client 5 (.bytes ['g', 'e', 't', ' ', '1']) false 0]

theorem deadlock_free_twoGets : ∃ t, run (step 1) (init zeroed) twoGets = some t ∧
    (Throughout (step 1) (Unblockable 1) (init zeroed) twoGets ↔
      Guarded (step 1) (Spare 1) (init zeroed) twoGets) :=
  ⟨_, rfl, (deadlock_free_iff 1 zeroed rfl).1⟩

/-- The server waits for room in the queue and every worker for a request. -/
theorem deadlock_free_fails :
    ∃ t, run (step 1) (init zeroed) twoGets = some t ∧ Deadlocked 1 t := by
  refine ⟨_, rfl, ⟨_, _, _, rfl⟩, by decide, fun w => .inr ?_⟩
  revert w
  decide

end SphereMultithreading.Soundness.P5
