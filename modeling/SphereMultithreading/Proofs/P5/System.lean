import SphereMultithreading.Machine.Permits
import SphereMultithreading.Machine.Run
import SphereMultithreading.Model.P5.System

/-! # The steps of the processes of p5

One lemma for each step says when it is taken and what it leads to.
-/

namespace SphereMultithreading.Model.P5

open Model.HashTable HashTable Machine Machine.Permits

namespace System

variable {capacity : ℕ} {s t : System} {w : Fin numWorkers}

theorem msgsnd_eq_some {parcel : Parcel} :
    s.msgsnd capacity parcel = some t ↔
      s.queue.length < capacity ∧ { s with queue := s.queue ++ [parcel] } = t := by
  unfold msgsnd
  split <;> rename_i room <;> simp [room]

/-- The message taken is the oldest of its type, and the others keep their order. -/
theorem msgrcv_eq_some {mtype : ℕ} {parcel : Parcel} (taken : s.msgrcv mtype = some (parcel, t)) :
    ∃ before after, s.queue = before ++ parcel :: after ∧ parcel.message.mtype = mtype ∧
      (∀ other ∈ before, other.message.mtype ≠ mtype) ∧ t = { s with queue := before ++ after } := by
  obtain ⟨found, search, same⟩ := Option.map_eq_some_iff.mp taken
  obtain ⟨rfl, rfl⟩ := Prod.mk.inj same
  obtain ⟨named, before, after, cut, earlier⟩ := List.find?_eq_some_iff_append.mp search
  simp only [Bool.not_eq_true', decide_eq_false_iff_not] at earlier
  refine ⟨before, after, cut, of_decide_eq_true named, earlier, ?_⟩
  rw [cut, List.eraseP_append_right, List.eraseP_cons_of_pos]
  · exact named
  · simpa using earlier

theorem msgrcv_eq_none {mtype : ℕ} :
    s.msgrcv mtype = none ↔ ∀ parcel ∈ s.queue, parcel.message.mtype ≠ mtype := by
  simp [msgrcv, Option.map_eq_none_iff, List.find?_eq_none]

theorem poll_eq_some {events : ℕ} :
    s.poll events = some t ↔
      s.server = .poll ∧ events ≤ maxEvents ∧ s.setServer (.events events) = t := by
  cases position : s.server <;> simp [System.poll, position]

theorem master_eq_some :
    s.master = some t ↔ ∃ n, s.server = .events (n + 1) ∧ s.setServer (.accept n) = t := by
  cases position : s.server with
  | events n => cases n <;> simp [master, position]
  | _ => simp [master, position]

theorem accept_eq_some :
    s.accept = some t ↔ ∃ n, s.server = .accept n ∧
      { s with
        clients := (s.lowestFd, s.accepted) :: s.clients
        accepted := s.accepted + 1 } = t := by
  cases position : s.server <;> simp [System.accept, position]

theorem acceptDone_eq_some :
    s.acceptDone = some t ↔ ∃ n, s.server = .accept n ∧ s.setServer (.events n) = t := by
  cases position : s.server <;> simp [acceptDone, position]

theorem client_eq_some {fd : ℕ} {recv : Recv} {hup : Bool} {rand : Fin numWorkers} :
    s.client fd recv hup rand = some t ↔ ∃ n connection, s.server = .events (n + 1) ∧
      s.connection fd = some connection ∧ recv.valid ∧
      ((∃ text, recv = .bytes text ∧
          (s.received text).process fd (some ⟨s.commands, connection⟩) hup rand n = t) ∨
        (recv = .closed ∧ (s.disconnectClient fd).setServer (.events n) = t) ∨
        recv = .failed ∧ s.process fd none hup rand n = t) := by
  cases position : s.server with
  | events n =>
    cases n with
    | zero => simp [System.client, position]
    | succ n =>
      cases found : s.connection fd with
      | none => simp [System.client, position, found]
      | some connection => cases recv <;> simp [System.client, position, found]
  | _ => simp [System.client, position]

theorem send_eq_some :
    s.send capacity = some t ↔ ∃ parcel hup n, s.server = .send parcel hup n ∧
      s.queue.length < capacity ∧
      (({ s with queue := s.queue ++ [parcel] }).hangUp parcel.message.client hup).setServer
        (.events n) = t := by
  cases position : s.server <;>
    simp [System.send, position, Option.map_eq_some_iff, msgsnd_eq_some, and_assoc]

theorem drain_eq_some :
    s.drain = some t ↔ s.server = .events 0 ∧
      ((s.msgrcv serverMsgId = none ∧ s.setServer .poll = t) ∨
        ∃ parcel rest, s.msgrcv serverMsgId = some (parcel, rest) ∧
          ((rest.setBuffer (processMessageFromWorker parcel.message rest.buffer)).sendMessageToClient
            parcel.message.client parcel.command).setServer .poll = t) := by
  cases position : s.server with
  | events n =>
    cases n with
    | zero =>
      cases taken : s.msgrcv serverMsgId with
      | none => simp [drain, position, taken]
      | some pair =>
        obtain ⟨parcel, rest⟩ := pair
        simp [drain, position, taken, and_assoc]
    | succ n => simp [drain, position]
  | _ => simp [drain, position]

theorem receive_eq_some :
    s.receive w = some t ↔ ∃ parcel rest, s.workers w = .receive ∧
      s.msgrcv (workerId w) = some (parcel, rest) ∧
      rest.setWorker w
        (.down { parcel with message := { parcel.message with mtype := serverMsgId } }) = t := by
  cases position : s.workers w <;> simp [System.receive, position, Option.map_eq_some_iff]

theorem down_eq_some :
    s.down w = some t ↔ ∃ parcel next, s.workers w = .down parcel ∧
      s.semDown parcel.message = some next ∧ next.setWorker w (.call parcel) = t := by
  cases position : s.workers w <;> simp [System.down, position, Option.map_eq_some_iff]

theorem call_eq_some :
    s.call w = some t ↔ ∃ parcel reply table, s.workers w = .call parcel ∧
      HashTable.step s.table parcel.message.call = some (reply, table) ∧
      { s with table := table }.setWorker w
        (.up { parcel with message := parcel.message.answered reply }) = t := by
  cases position : s.workers w <;> simp [System.call, position, Option.map_eq_some_iff]

theorem up_eq_some :
    s.up w = some t ↔ ∃ parcel, s.workers w = .up parcel ∧
      (s.semUp parcel.message).setWorker w (.reply parcel) = t := by
  cases position : s.workers w <;> simp [System.up, position]

theorem reply_eq_some :
    s.reply capacity w = some t ↔ ∃ parcel, s.workers w = .reply parcel ∧
      s.queue.length < capacity ∧
      { s with queue := s.queue ++ [parcel] }.setWorker w .receive = t := by
  cases position : s.workers w <;>
    simp [System.reply, position, Option.map_eq_some_iff, msgsnd_eq_some, and_assoc]

/-! ## Which process a step belongs to -/

end System

/-- The worker that takes the step, unless it is the server's. -/
def Action.worker : Action → Option (Fin numWorkers)
  | .receive w => some w
  | .down w => some w
  | .call w => some w
  | .up w => some w
  | .reply w => some w
  | _ => none

namespace System

variable {capacity : ℕ} {s t : System} {w : Fin numWorkers}

/-- Nothing the workers own has changed. -/
structure WorkersIdle (s t : System) : Prop where
  workers : t.workers = s.workers
  sems : t.sems = s.sems
  table : t.table = s.table

/-- Nothing the server owns has changed. -/
structure ServerIdle (s t : System) : Prop where
  server : t.server = s.server
  buffer : t.buffer = s.buffer
  clients : t.clients = s.clients
  accepted : t.accepted = s.accepted
  commands : t.commands = s.commands
  delivered : t.delivered = s.delivered

theorem WorkersIdle.hangUp (idle : WorkersIdle s t) (fd : ℕ) (hup : Bool) (server : Server) :
    WorkersIdle s ((t.hangUp fd hup).setServer server) := by
  cases hup <;> exact ⟨idle.workers, idle.sems, idle.table⟩

theorem WorkersIdle.process (idle : WorkersIdle s t) (fd : ℕ) (command : Option Command)
    (hup : Bool) (rand : Fin numWorkers) (n : ℕ) :
    WorkersIdle s (t.process fd command hup rand n) := by
  unfold System.process
  split
  · exact idle.hangUp fd hup _
  · cases hup <;> exact ⟨idle.workers, idle.sems, idle.table⟩
  · exact ⟨idle.workers, idle.sems, idle.table⟩

theorem workersIdle_of_server {a : Action} (stepped : s.step capacity a = some t)
    (server : a.worker = none) : WorkersIdle s t := by
  cases a with
  | poll events =>
    obtain ⟨-, -, rfl⟩ := poll_eq_some.mp stepped
    exact ⟨rfl, rfl, rfl⟩
  | master =>
    obtain ⟨n, -, rfl⟩ := master_eq_some.mp stepped
    exact ⟨rfl, rfl, rfl⟩
  | accept =>
    obtain ⟨n, -, rfl⟩ := accept_eq_some.mp stepped
    exact ⟨rfl, rfl, rfl⟩
  | acceptDone =>
    obtain ⟨n, -, rfl⟩ := acceptDone_eq_some.mp stepped
    exact ⟨rfl, rfl, rfl⟩
  | client fd recv hup rand =>
    obtain ⟨n, connection, -, -, -, outcome⟩ := client_eq_some.mp stepped
    rcases outcome with ⟨text, -, rfl⟩ | ⟨-, rfl⟩ | ⟨-, rfl⟩
    · apply WorkersIdle.process
      exact ⟨rfl, rfl, rfl⟩
    · exact ⟨rfl, rfl, rfl⟩
    · apply WorkersIdle.process
      exact ⟨rfl, rfl, rfl⟩
  | send =>
    obtain ⟨parcel, hup, n, -, -, rfl⟩ := send_eq_some.mp stepped
    apply WorkersIdle.hangUp
    exact ⟨rfl, rfl, rfl⟩
  | drain =>
    obtain ⟨-, ⟨-, rfl⟩ | ⟨parcel, rest, taken, rfl⟩⟩ := drain_eq_some.mp stepped
    · exact ⟨rfl, rfl, rfl⟩
    · obtain ⟨before, after, -, -, -, rfl⟩ := msgrcv_eq_some taken
      exact ⟨rfl, rfl, rfl⟩
  | _ => cases server

/-- `semop` only changes the semaphores. -/
theorem semDown_eq {msg : Message} (stepped : s.semDown msg = some t) :
    t = { s with sems := t.sems } := by
  unfold semDown at stepped
  split at stepped
  · simp only [Option.ite_none_right_eq_some, Option.some.injEq] at stepped
    obtain ⟨-, rfl⟩ := stepped
    rfl
  · cases stepped
    rfl

theorem semUp_eq (s : System) (msg : Message) :
    s.semUp msg = { s with sems := (s.semUp msg).sems } := by
  unfold semUp
  split <;> rfl

/-- What a worker's step leaves alone, and where the worker goes. -/
structure Works (w : Fin numWorkers) (s t : System) (worker : Worker) : Prop where
  idle : ServerIdle s t
  workers : t.workers = Function.update s.workers w worker

theorem works_setWorker {next : System} (worker : Worker) (idle : ServerIdle s next)
    (workers : next.workers = s.workers) : Works w s (next.setWorker w worker) worker :=
  ⟨⟨idle.server, idle.buffer, idle.clients, idle.accepted, idle.commands, idle.delivered⟩,
    by rw [← workers]; rfl⟩

/-- A worker's step leaves the server and the other workers alone. -/
theorem works_of_worker {a : Action} (stepped : s.step capacity a = some t)
    (mine : a.worker = some w) : ∃ worker, Works w s t worker := by
  cases a with
  | receive v =>
    cases mine
    obtain ⟨parcel, rest, -, taken, rfl⟩ := receive_eq_some.mp stepped
    obtain ⟨before, after, -, -, -, rfl⟩ := msgrcv_eq_some taken
    exact ⟨_, works_setWorker _ ⟨rfl, rfl, rfl, rfl, rfl, rfl⟩ rfl⟩
  | down v =>
    cases mine
    obtain ⟨parcel, next, -, passed, rfl⟩ := down_eq_some.mp stepped
    rw [semDown_eq passed]
    exact ⟨_, works_setWorker _ ⟨rfl, rfl, rfl, rfl, rfl, rfl⟩ rfl⟩
  | call v =>
    cases mine
    obtain ⟨parcel, reply, table, -, -, rfl⟩ := call_eq_some.mp stepped
    exact ⟨_, works_setWorker _ ⟨rfl, rfl, rfl, rfl, rfl, rfl⟩ rfl⟩
  | up v =>
    cases mine
    obtain ⟨parcel, -, rfl⟩ := up_eq_some.mp stepped
    rw [semUp_eq]
    exact ⟨_, works_setWorker _ ⟨rfl, rfl, rfl, rfl, rfl, rfl⟩ rfl⟩
  | reply v =>
    cases mine
    obtain ⟨parcel, -, -, rfl⟩ := reply_eq_some.mp stepped
    exact ⟨_, works_setWorker _ ⟨rfl, rfl, rfl, rfl, rfl, rfl⟩ rfl⟩
  | _ => cases mine

/-- The other workers stay where they are. -/
theorem Works.other {worker : Worker} (works : Works w s t worker) {v : Fin numWorkers}
    (differ : v ≠ w) : t.workers v = s.workers v := by
  rw [works.workers, Function.update_of_ne differ]

/-- A worker comes into its call from `sem_down`. -/
theorem step_call {a : Action} (stepped : s.step capacity a = some t) {v : Fin numWorkers}
    {parcel : Parcel} (position : t.workers v = .call parcel) :
    s.workers v = .call parcel ∨ a = .down v ∧ s.workers v = .down parcel := by
  cases owner : a.worker with
  | none =>
    rw [(workersIdle_of_server stepped owner).workers] at position
    exact .inl position
  | some w =>
    rcases eq_or_ne v w with rfl | differ
    · cases a with
      | down u =>
        cases owner
        obtain ⟨entered, next, before, -, rfl⟩ := down_eq_some.mp stepped
        obtain rfl := Worker.call.inj ((Function.update_self ..).symm.trans position)
        exact .inr ⟨rfl, before⟩
      | receive u =>
        cases owner
        obtain ⟨taken, rest, -, -, rfl⟩ := receive_eq_some.mp stepped
        cases (Function.update_self ..).symm.trans position
      | call u =>
        cases owner
        obtain ⟨called, reply, table, -, -, rfl⟩ := call_eq_some.mp stepped
        cases (Function.update_self ..).symm.trans position
      | up u =>
        cases owner
        obtain ⟨left, -, rfl⟩ := up_eq_some.mp stepped
        cases (Function.update_self ..).symm.trans position
      | reply u =>
        cases owner
        obtain ⟨sent, -, -, rfl⟩ := reply_eq_some.mp stepped
        cases (Function.update_self ..).symm.trans position
      | _ => cases owner
    · obtain ⟨worker, works⟩ := works_of_worker stepped owner
      rw [works.other differ] at position
      exact .inl position

/-- `sem_down` lets the worker into its call and leaves the table alone. -/
theorem step_down {parcel : Parcel} (stepped : s.step capacity (.down w) = some t)
    (position : s.workers w = .down parcel) :
    t.table = s.table ∧ t.workers = Function.update s.workers w (.call parcel) := by
  obtain ⟨other, next, position', passed, rfl⟩ := down_eq_some.mp stepped
  obtain rfl := Worker.down.inj (position.symm.trans position')
  rw [semDown_eq passed]
  exact ⟨rfl, rfl⟩

/-- Only a worker's call changes the table, and the worker then leaves it. -/
theorem step_table {a : Action} (stepped : s.step capacity a = some t) :
    t.table = s.table ∨ ∃ w parcel reply, s.workers w = .call parcel ∧
      (∀ other, t.workers w ≠ .call other) ∧
      HashTable.step s.table parcel.message.call = some (reply, t.table) := by
  cases owner : a.worker with
  | none => exact .inl (workersIdle_of_server stepped owner).table
  | some w =>
    cases a with
    | receive v =>
      obtain ⟨taken, rest, -, received, rfl⟩ := receive_eq_some.mp stepped
      obtain ⟨before, after, -, -, -, rfl⟩ := msgrcv_eq_some received
      exact .inl rfl
    | down v =>
      obtain ⟨entered, next, -, passed, rfl⟩ := down_eq_some.mp stepped
      left
      rw [semDown_eq passed]
      rfl
    | call v =>
      obtain ⟨called, reply, table, position, answered, rfl⟩ := call_eq_some.mp stepped
      refine .inr ⟨v, called, reply, position, ?_, answered⟩
      intro other there
      cases (Function.update_self ..).symm.trans there
    | up v =>
      obtain ⟨left, -, rfl⟩ := up_eq_some.mp stepped
      left
      rw [semUp_eq]
      rfl
    | reply v =>
      obtain ⟨sent, -, -, rfl⟩ := reply_eq_some.mp stepped
      exact .inl rfl
    | _ => cases owner

end System

end SphereMultithreading.Model.P5
