import SphereMultithreading.Proofs.P5.Permits

/-! # The commands of p5 that are not answered yet

A command is pending from the moment its request is in the queue until the server takes its reply
out again. Meanwhile its message is in the queue or with one worker, and no step of a worker loses
it or doubles it. What a message is known by, through all its changes, is its tag.
-/

namespace SphereMultithreading.Model.P5

open Model.HashTable HashTable Machine Machine.Permits

/-- The command of a message, and the descriptor its reply goes to. -/
abbrev Tag := Option Command × ℕ

def Parcel.tag (parcel : Parcel) : Tag := (parcel.command, parcel.message.client)

/-- The message a worker has. -/
def Worker.parcel : Worker → Option Parcel
  | .receive => none
  | .down parcel => some parcel
  | .call parcel => some parcel
  | .up parcel => some parcel
  | .reply parcel => some parcel

def Worker.tags (worker : Worker) : Multiset Tag := worker.parcel.elim 0 fun parcel => {parcel.tag}

/-- The message the server is about to send. -/
def Server.tags : Server → Multiset Tag
  | .send parcel _ _ => {parcel.tag}
  | _ => 0

namespace System

variable {capacity : ℕ} {s t : System} {a : Action} {w : Fin numWorkers}

/-- The tags of the messages in the queue and with the workers. -/
def pending (s : System) : Multiset Tag :=
  ((s.queue.map Parcel.tag : List Tag) : Multiset Tag) + ∑ w, (s.workers w).tags

/-- The number of commands that wait for an answer. -/
def unanswered (s : System) : ℕ := s.pending.card

theorem length_queue_le (s : System) : s.queue.length ≤ s.unanswered := by
  simp [unanswered, pending]

/-- A message out of the queue, or one more in it. -/
private theorem coe_cut (before after : List Parcel) (parcel : Parcel) :
    (((before ++ parcel :: after).map Parcel.tag : List Tag) : Multiset Tag) =
      ((before ++ after).map Parcel.tag : List Tag) + {parcel.tag} := by
  rw [← Multiset.coe_singleton, Multiset.coe_add, Multiset.coe_eq_coe, List.map_append,
    List.map_cons, List.map_append]
  exact List.perm_middle.trans (List.perm_append_singleton _ _).symm

/-- A step of a worker that exchanges a message with the queue. -/
private theorem pending_of_works {worker : Worker}
    (workers : t.workers = Function.update s.workers w worker)
    (moved : ((t.queue.map Parcel.tag : List Tag) : Multiset Tag) + worker.tags =
      (s.queue.map Parcel.tag : List Tag) + (s.workers w).tags) : t.pending = s.pending := by
  have changed := sum_update Worker.tags s.workers w worker
  have total : t.pending + (s.workers w).tags = s.pending + (s.workers w).tags := by
    rw [pending, pending, workers, add_assoc, changed, add_left_comm, moved, add_left_comm,
      add_assoc]
  exact add_right_cancel total

/-- A worker's step leaves the pending commands as they are. -/
theorem pending_of_worker (stepped : s.step capacity a = some t) (mine : a.worker = some w) :
    t.pending = s.pending := by
  cases a with
  | receive v =>
    obtain ⟨parcel, rest, position, taken, rfl⟩ := receive_eq_some.mp stepped
    obtain ⟨before, after, cut, -, -, rfl⟩ := msgrcv_eq_some taken
    apply pending_of_works (w := v) rfl
    rw [position, cut, coe_cut]
    exact (add_zero _).symm
  | down v =>
    obtain ⟨parcel, next, position, passed, rfl⟩ := down_eq_some.mp stepped
    rw [semDown_eq passed]
    apply pending_of_works (w := v) rfl
    rw [position]
    rfl
  | call v =>
    obtain ⟨parcel, reply, table, position, -, rfl⟩ := call_eq_some.mp stepped
    apply pending_of_works (w := v) rfl
    rw [position]
    simp [Worker.tags, Worker.parcel, Parcel.tag, setWorker]
  | up v =>
    obtain ⟨parcel, position, rfl⟩ := up_eq_some.mp stepped
    rw [semUp_eq]
    apply pending_of_works (w := v) rfl
    rw [position]
    rfl
  | reply v =>
    obtain ⟨parcel, position, -, rfl⟩ := reply_eq_some.mp stepped
    apply pending_of_works (w := v) rfl
    rw [position]
    have appended := coe_cut s.queue [] parcel
    rw [List.append_nil] at appended
    exact (add_zero _).trans appended
  | _ => cases mine

@[simp] theorem queue_hangUp (s : System) (fd : ℕ) (hup : Bool) :
    (s.hangUp fd hup).queue = s.queue := by
  cases hup <;> rfl

@[simp] theorem queue_process (s : System) (fd : ℕ) (command : Option Command) (hup : Bool)
    (rand : Fin numWorkers) (n : ℕ) : (s.process fd command hup rand n).queue = s.queue := by
  unfold process
  split
  · exact queue_hangUp ..
  · exact queue_hangUp ..
  · rfl

/-- The server's steps leave the queue alone but for a request sent and a reply taken. -/
theorem queue_of_server (stepped : s.step capacity a = some t) (server : a.worker = none) :
    t.queue = s.queue ∨
      (a = .send ∧ ∃ parcel hup n, s.server = .send parcel hup n ∧ s.queue.length < capacity ∧
        t.queue = s.queue ++ [parcel]) ∨
      (a = .drain ∧ ∃ parcel before after, s.queue = before ++ parcel :: after ∧
        parcel.message.mtype = serverMsgId ∧
        (∀ other ∈ before, other.message.mtype ≠ serverMsgId) ∧ t.queue = before ++ after) := by
  cases a with
  | poll events =>
    obtain ⟨-, -, rfl⟩ := poll_eq_some.mp stepped
    exact .inl rfl
  | master =>
    obtain ⟨n, -, rfl⟩ := master_eq_some.mp stepped
    exact .inl rfl
  | accept =>
    obtain ⟨n, -, rfl⟩ := accept_eq_some.mp stepped
    exact .inl rfl
  | acceptDone =>
    obtain ⟨n, -, rfl⟩ := acceptDone_eq_some.mp stepped
    exact .inl rfl
  | client fd recv hup rand =>
    obtain ⟨n, connection, -, -, -, outcome⟩ := client_eq_some.mp stepped
    rcases outcome with ⟨text, -, rfl⟩ | ⟨-, rfl⟩ | ⟨-, rfl⟩
    · exact .inl (queue_process ..)
    · exact .inl rfl
    · exact .inl (queue_process ..)
  | send =>
    obtain ⟨parcel, hup, n, position, room, rfl⟩ := send_eq_some.mp stepped
    exact .inr (.inl ⟨rfl, parcel, hup, n, position, room, queue_hangUp ..⟩)
  | drain =>
    obtain ⟨-, ⟨-, rfl⟩ | ⟨parcel, rest, taken, rfl⟩⟩ := drain_eq_some.mp stepped
    · exact .inl rfl
    · obtain ⟨before, after, cut, named, earlier, rfl⟩ := msgrcv_eq_some taken
      exact .inr (.inr ⟨rfl, parcel, before, after, cut, named, earlier, rfl⟩)
  | _ => cases server

theorem pending_append {parcel : Parcel} (workers : t.workers = s.workers)
    (appended : t.queue = s.queue ++ [parcel]) : t.pending = s.pending + {parcel.tag} := by
  have cut := coe_cut s.queue [] parcel
  rw [List.append_nil] at cut
  rw [pending, pending, workers, appended, cut, add_right_comm]

theorem pending_cut {parcel : Parcel} {before after : List Parcel} (workers : t.workers = s.workers)
    (cut : s.queue = before ++ parcel :: after) (rest : t.queue = before ++ after) :
    s.pending = t.pending + {parcel.tag} := by
  rw [pending, pending, workers, cut, rest, coe_cut, add_right_comm]

/-! ## Requests -/

end System

theorem request_spec {buffer : Scanf.Text} {fd : ℕ} {rand : Fin numWorkers} {msg : Message}
    (parsed : processMessageFromClient buffer fd rand = .request msg) :
    msg.mtype = workerId rand ∧ msg.client = fd := by
  unfold processMessageFromClient at parsed
  split at parsed
  · cases parsed
  · split_ifs at parsed <;> cases parsed <;> exact ⟨rfl, rfl⟩

/-- The text `process_client_event` goes on with; at the end of the stream it returns. -/
def Recv.text (buffer : Scanf.Text) : Recv → Option Scanf.Text
  | .bytes text => some text
  | .closed => none
  | .failed => some buffer

namespace System

variable {capacity : ℕ} {s t : System} {a : Action} {w : Fin numWorkers}

/-- The event makes the server send this request to a worker. -/
def Requests (s : System) (a : Action) (msg : Message) : Prop :=
  ∃ fd recv hup rand text, a = .client fd recv hup rand ∧ recv.text s.buffer = some text ∧
    processMessageFromClient text fd rand = .request msg

theorem process_of_request {fd : ℕ} {command : Option Command} {hup : Bool}
    {rand : Fin numWorkers} {n : ℕ} {msg : Message}
    (parsed : processMessageFromClient s.buffer fd rand = .request msg) :
    s.process fd command hup rand n = s.setServer (.send ⟨msg, command⟩ hup n) := by
  rw [process, parsed]

private theorem request_of_process {fd : ℕ} {command : Option Command} {hup hup' : Bool}
    {rand : Fin numWorkers} {n m : ℕ} {parcel : Parcel}
    (position : (s.process fd command hup rand n).server = .send parcel hup' m) :
    processMessageFromClient s.buffer fd rand = .request parcel.message ∧
      parcel.command = command := by
  unfold process at position
  split at position
  · cases position
  · cases position
  · cases position
    exact ⟨by assumption, rfl⟩

/-- The server is in `msgsnd` because of an event that makes a request, and stays there while the
workers go on. -/
theorem send_of_step (stepped : s.step capacity a = some t) {parcel : Parcel} {hup : Bool} {n : ℕ}
    (position : t.server = .send parcel hup n) :
    (s.server = .send parcel hup n ∧ ∃ w, a.worker = some w) ∨ Requests s a parcel.message := by
  cases owner : a.worker with
  | some w =>
    obtain ⟨worker, works⟩ := works_of_worker stepped owner
    exact .inl ⟨works.idle.server ▸ position, w, rfl⟩
  | none =>
    cases a with
    | poll events =>
      obtain ⟨-, -, rfl⟩ := poll_eq_some.mp stepped
      cases position
    | master =>
      obtain ⟨m, -, rfl⟩ := master_eq_some.mp stepped
      cases position
    | accept =>
      obtain ⟨m, before, rfl⟩ := accept_eq_some.mp stepped
      cases before.symm.trans position
    | acceptDone =>
      obtain ⟨m, -, rfl⟩ := acceptDone_eq_some.mp stepped
      cases position
    | client fd recv hup' rand =>
      obtain ⟨m, connection, -, -, -, outcome⟩ := client_eq_some.mp stepped
      rcases outcome with ⟨text, rfl, rfl⟩ | ⟨-, rfl⟩ | ⟨rfl, rfl⟩
      · exact .inr ⟨fd, _, hup', rand, text, rfl, rfl, (request_of_process position).1⟩
      · cases position
      · exact .inr ⟨fd, _, hup', rand, s.buffer, rfl, rfl, (request_of_process position).1⟩
    | send =>
      obtain ⟨sent, hup', m, -, -, rfl⟩ := send_eq_some.mp stepped
      cases position
    | drain =>
      obtain ⟨-, ⟨-, rfl⟩ | ⟨taken, rest, -, rfl⟩⟩ := drain_eq_some.mp stepped
      · cases position
      · cases position
    | _ => cases owner

theorem server_of_requests (stepped : s.step capacity a = some t) {msg : Message}
    (requests : Requests s a msg) : ∃ command hup n, t.server = .send ⟨msg, command⟩ hup n := by
  obtain ⟨fd, recv, hup, rand, text, rfl, read, parsed⟩ := requests
  obtain ⟨n, connection, -, -, -, outcome⟩ := client_eq_some.mp stepped
  rcases outcome with ⟨other, rfl, rfl⟩ | ⟨rfl, rfl⟩ | ⟨rfl, rfl⟩
  · cases read
    rw [process_of_request (s := s.received text) parsed]
    exact ⟨_, _, _, rfl⟩
  · cases read
  · cases read
    rw [process_of_request parsed]
    exact ⟨_, _, _, rfl⟩

/-! ## Message types -/

/-- Requests in the queue carry the type of a worker and replies that of the server. -/
structure Typed (capacity : ℕ) (s : System) : Prop where
  queue : ∀ parcel ∈ s.queue, parcel.message.mtype = serverMsgId ∨
    ∃ w, parcel.message.mtype = workerId w
  workers : ∀ w parcel, (s.workers w).parcel = some parcel → parcel.message.mtype = serverMsgId
  server : ∀ parcel hup n, s.server = .send parcel hup n →
    ∃ w, parcel.message.mtype = workerId w
  room : s.queue.length ≤ capacity

theorem typed_init (capacity : ℕ) (memory : HashTable) : Typed capacity (init memory) where
  queue := by rintro parcel ⟨⟩
  workers := by rintro w parcel ⟨⟩
  server := by rintro parcel hup n ⟨⟩
  room := Nat.zero_le capacity

private theorem mem_of_cut {before after : List Parcel} {parcel other : Parcel}
    (member : other ∈ before ++ after) : other ∈ before ++ parcel :: after := by
  rcases List.mem_append.mp member with front | back
  · exact List.mem_append_left _ front
  · exact List.mem_append_right _ (List.mem_cons_of_mem _ back)

/-- The messages the workers have after one of them moved. -/
private theorem typed_workers (typed : Typed capacity s) {worker : Worker}
    (moved : ∀ parcel, worker.parcel = some parcel → parcel.message.mtype = serverMsgId) :
    ∀ v parcel, (Function.update s.workers w worker v).parcel = some parcel →
      parcel.message.mtype = serverMsgId := by
  intro v parcel has
  rcases eq_or_ne v w with rfl | differ
  · rw [Function.update_self] at has
    exact moved parcel has
  · rw [Function.update_of_ne differ] at has
    exact typed.workers v parcel has

theorem typed_step (stepped : s.step capacity a = some t) (typed : Typed capacity s) :
    Typed capacity t := by
  have server : ∀ parcel hup n, t.server = .send parcel hup n →
      ∃ w, parcel.message.mtype = workerId w := by
    intro parcel hup n position
    rcases send_of_step stepped position with ⟨before, -⟩ | requests
    · exact typed.server parcel hup n before
    · obtain ⟨fd, recv, hup', rand, text, -, -, parsed⟩ := requests
      exact ⟨rand, (request_spec parsed).1⟩
  cases owner : a.worker with
  | none =>
    have workers := (workersIdle_of_server stepped owner).workers
    rcases queue_of_server stepped owner with same | ⟨-, parcel, hup, n, position, room, appended⟩ |
      ⟨-, parcel, before, after, cut, -, -, rest⟩
    · exact ⟨same ▸ typed.queue, workers ▸ typed.workers, server, same ▸ typed.room⟩
    · refine ⟨?_, workers ▸ typed.workers, server, ?_⟩
      · intro other member
        rw [appended, List.mem_append, List.mem_singleton] at member
        rcases member with member | rfl
        · exact typed.queue other member
        · exact .inr (typed.server other hup n position)
      · rw [appended, List.length_append]
        exact room
    · have room := typed.room
      rw [cut] at room
      refine ⟨?_, workers ▸ typed.workers, server, ?_⟩
      · intro other member
        apply typed.queue
        rw [cut]
        exact mem_of_cut (rest ▸ member)
      · rw [rest]
        simp only [List.length_append, List.length_cons] at room ⊢
        omega
  | some w =>
    cases a with
    | receive v =>
      obtain ⟨parcel, others, -, taken, rfl⟩ := receive_eq_some.mp stepped
      obtain ⟨before, after, cut, -, -, rfl⟩ := msgrcv_eq_some taken
      have room := typed.room
      rw [cut] at room
      refine ⟨?_, typed_workers typed ?_, server, ?_⟩
      · intro other member
        apply typed.queue
        rw [cut]
        exact mem_of_cut member
      · rintro other ⟨⟩
        rfl
      · simp only [setWorker, List.length_append, List.length_cons] at room ⊢
        omega
    | down v =>
      obtain ⟨parcel, next, position, passed, rfl⟩ := down_eq_some.mp stepped
      rw [semDown_eq passed] at server ⊢
      refine ⟨typed.queue, typed_workers typed ?_, server, typed.room⟩
      rintro other ⟨⟩
      exact typed.workers v parcel (by rw [position]; rfl)
    | call v =>
      obtain ⟨parcel, reply, table, position, -, rfl⟩ := call_eq_some.mp stepped
      refine ⟨typed.queue, typed_workers typed ?_, server, typed.room⟩
      rintro other ⟨⟩
      rw [Message.mtype_answered]
      exact typed.workers v parcel (by rw [position]; rfl)
    | up v =>
      obtain ⟨parcel, position, rfl⟩ := up_eq_some.mp stepped
      rw [semUp_eq] at server ⊢
      refine ⟨typed.queue, typed_workers typed ?_, server, typed.room⟩
      rintro other ⟨⟩
      exact typed.workers v parcel (by rw [position]; rfl)
    | reply v =>
      obtain ⟨parcel, position, room, rfl⟩ := reply_eq_some.mp stepped
      refine ⟨?_, typed_workers typed nofun, server, ?_⟩
      · intro other member
        rcases List.mem_append.mp member with member | last
        · exact typed.queue other member
        · rw [List.mem_singleton.mp last]
          exact .inl (typed.workers v parcel (by rw [position]; rfl))
      · simpa [setWorker] using room
    | _ => cases owner

end System

end SphereMultithreading.Model.P5
