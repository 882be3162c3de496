import SphereMultithreading.Machine.History
import SphereMultithreading.Proofs.P5.Effects

/-! # The history of a p5 run

A command is read by the server, takes effect in the call of a worker, and has its reply queued by
that worker. The messages for one worker keep their order in the queue, and a worker has one command
at a time: what a worker has done so far is the beginning of what it was given.
-/

namespace SphereMultithreading.Model.P5

open Model.HashTable HashTable Machine

/-- What happens to a command, and the worker it is given to. -/
inductive Event where
  | read (w : Fin numWorkers) (parcel : Parcel)
  | effect (w : Fin numWorkers) (parcel : Parcel) (reply : Reply)
  | queued (w : Fin numWorkers) (parcel : Parcel)

namespace Event

def worker : Event → Fin numWorkers
  | .read w _ => w
  | .effect w _ _ => w
  | .queued w _ => w

/-- The command that is read. -/
def reads : Event → Option Command
  | .read _ parcel => parcel.command
  | _ => none

/-- The command that takes effect. -/
def executes : Event → Option Command
  | .effect _ parcel _ => parcel.command
  | _ => none

/-- The command whose reply is queued. -/
def replies : Event → Option Command
  | .queued _ parcel => parcel.command
  | _ => none

end Event

/-- The commands of a worker's events, in their order. -/
def ofWorker (commands : Event → Option Command) (w : Fin numWorkers) (log : List Event) :
    List Command :=
  (log.filter fun event => event.worker = w).filterMap commands

theorem ofWorker_append (commands : Event → Option Command) (w : Fin numWorkers)
    (log events : List Event) :
    ofWorker commands w (log ++ events) = ofWorker commands w log ++ ofWorker commands w events := by
  rw [ofWorker, List.filter_append, List.filterMap_append]
  rfl

theorem ofWorker_singleton (commands : Event → Option Command) (w : Fin numWorkers)
    (event : Event) :
    ofWorker commands w [event] = if event.worker = w then (commands event).toList else [] := by
  by_cases mine : event.worker = w
  · rw [if_pos mine, ofWorker, List.filter_cons_of_pos (by simpa using mine), List.filter_nil,
      List.filterMap_cons]
    cases commands event <;> rfl
  · rw [if_neg mine, ofWorker, List.filter_cons_of_neg (by simpa using mine)]
    rfl

namespace System

/-- The event a step is. -/
def events (s : System) : Action → System → List Event
  | .client _ _ _ rand, t =>
      match t.server with
      | .send parcel _ _ => [.read rand parcel]
      | _ => []
  | .call w, _ =>
      match s.workers w with
      | .call parcel =>
          match HashTable.step s.table parcel.message.call with
          | some (reply, _) => [.effect w parcel reply]
          | none => []
      | _ => []
  | .reply w, _ =>
      match s.workers w with
      | .reply parcel => [.queued w parcel]
      | _ => []
  | _, _ => []

theorem length_events_le (s : System) (a : Action) (t : System) : (s.events a t).length ≤ 1 := by
  unfold events
  split
  · split <;> simp
  · split
    · split <;> simp
    · simp
  · split <;> simp
  · simp

end System

/-- The command a worker will execute next. -/
def Worker.given : Worker → List Command
  | .down parcel => parcel.command.toList
  | .call parcel => parcel.command.toList
  | _ => []

/-- The command a worker has executed and not replied to. -/
def Worker.executed : Worker → List Command
  | .up parcel => parcel.command.toList
  | .reply parcel => parcel.command.toList
  | _ => []

/-- The command the server is about to send to the worker. -/
def Server.given (w : Fin numWorkers) : Server → List Command
  | .send parcel _ _ => if parcel.message.mtype = workerId w then parcel.command.toList else []
  | _ => []

/-- The commands in the queue for the worker. -/
def given (w : Fin numWorkers) (queue : List Parcel) : List Command :=
  (queue.filter fun parcel => parcel.message.mtype = workerId w).filterMap Parcel.command

theorem given_append (w : Fin numWorkers) (front behind : List Parcel) :
    given w (front ++ behind) = given w front ++ given w behind := by
  rw [given, List.filter_append, List.filterMap_append]
  rfl

theorem given_other {w : Fin numWorkers} {before after : List Parcel} {parcel : Parcel}
    (other : parcel.message.mtype ≠ workerId w) :
    given w (before ++ parcel :: after) = given w (before ++ after) := by
  rw [given_append, given_append, given, given, given, List.filter_cons_of_neg (by simpa using other)]

theorem given_first {w : Fin numWorkers} {before after : List Parcel} {parcel : Parcel}
    (named : parcel.message.mtype = workerId w)
    (earlier : ∀ other ∈ before, other.message.mtype ≠ workerId w) :
    given w (before ++ parcel :: after) = parcel.command.toList ++ given w (before ++ after) := by
  have nothing : given w before = [] := by
    rw [given, List.filter_eq_nil_iff.mpr (by simpa using earlier), List.filterMap_nil]
  rw [given_append, given_append, nothing, given, List.filter_cons_of_pos (by simpa using named)]
  rw [List.filterMap_cons]
  cases parcel.command <;> rfl

namespace System

/-- The commands on their way to a worker, in the order the worker will execute them. -/
def toExecute (s : System) (w : Fin numWorkers) : List Command :=
  (s.workers w).given ++ given w s.queue ++ s.server.given w

variable {capacity : ℕ} {s t : System} {a : Action}

/-- A worker's next command leaves the front of its line, and a new one joins at the end. -/
def Flows (s : System) (events : List Event) (t : System) (w : Fin numWorkers) : Prop :=
  s.toExecute w ++ ofWorker Event.reads w events = ofWorker Event.executes w events ++ t.toExecute w ∧
    (s.workers w).executed ++ ofWorker Event.executes w events =
      ofWorker Event.replies w events ++ (t.workers w).executed

theorem workerId_inj {v w : Fin numWorkers} : workerId v = workerId w ↔ v = w := by
  simp [workerId, Fin.ext_iff]

/-- A step without an event that leaves a worker's line as it is. -/
theorem flows_of_same {w : Fin numWorkers} (worker : t.workers w = s.workers w)
    (queue : given w t.queue = given w s.queue) (server : t.server.given w = s.server.given w) :
    Flows s [] t w := by
  rw [Flows, toExecute, toExecute, worker, queue, server]
  exact ⟨List.append_nil _, List.append_nil _⟩

/-- The event of another worker. -/
theorem flows_of_other {w : Fin numWorkers} {event : Event} (other : event.worker ≠ w)
    (flows : Flows s [] t w) : Flows s [event] t w := by
  rw [Flows, ofWorker_singleton, ofWorker_singleton, ofWorker_singleton, if_neg other, if_neg other,
    if_neg other]
  exact flows

private theorem flows_process {fd : ℕ} {command : Option Command} {hup : Bool}
    {rand : Fin numWorkers} {n : ℕ} {w : Fin numWorkers} (recv : Recv)
    (free : s.server.given w = []) :
    Flows s (events s (.client fd recv hup rand) (s.process fd command hup rand n))
      (s.process fd command hup rand n) w := by
  unfold process
  split
  · cases hup <;> exact flows_of_same rfl rfl free.symm
  · cases hup <;> exact flows_of_same rfl rfl free.symm
  · rename_i msg parsed
    have named := (request_spec parsed).1
    have joins : (Server.send ⟨msg, command⟩ hup n).given w =
        if rand = w then command.toList else [] := by
      simp only [Server.given, named, workerId_inj]
    change Flows s [.read rand ⟨msg, command⟩] (s.setServer (.send ⟨msg, command⟩ hup n)) w
    by_cases mine : rand = w
    · simp [Flows, toExecute, ofWorker_singleton, setServer, Event.worker, Event.reads,
        Event.executes, Event.replies, free, joins, mine]
    · refine flows_of_other mine (flows_of_same rfl rfl ?_)
      exact joins.trans ((if_neg mine).trans free.symm)

/-- The message the server sends goes to the end of the line it was in already. -/
private theorem given_sent {parcel : Parcel} {hup : Bool} {n : ℕ}
    (position : s.server = .send parcel hup n) (w : Fin numWorkers) :
    given w (s.queue ++ [parcel]) = given w s.queue ++ s.server.given w := by
  rw [given_append, position]
  congr 1
  by_cases mine : parcel.message.mtype = workerId w
  · rw [given, List.filter_cons_of_pos (by simpa using mine), List.filter_nil, List.filterMap_cons,
      Server.given, if_pos mine]
    cases parcel.command <;> rfl
  · rw [given, List.filter_cons_of_neg (by simpa using mine), Server.given, if_neg mine]
    rfl

private theorem flows_of_server (stepped : s.step capacity a = some t) (server : a.worker = none)
    (w : Fin numWorkers) : Flows s (events s a t) t w := by
  cases a with
  | poll events =>
    obtain ⟨position, -, rfl⟩ := poll_eq_some.mp stepped
    change Flows s [] _ w
    refine flows_of_same rfl rfl ?_
    rw [position]
    rfl
  | master =>
    obtain ⟨n, position, rfl⟩ := master_eq_some.mp stepped
    change Flows s [] _ w
    refine flows_of_same rfl rfl ?_
    rw [position]
    rfl
  | accept =>
    obtain ⟨n, -, rfl⟩ := accept_eq_some.mp stepped
    exact flows_of_same rfl rfl rfl
  | acceptDone =>
    obtain ⟨n, position, rfl⟩ := acceptDone_eq_some.mp stepped
    change Flows s [] _ w
    refine flows_of_same rfl rfl ?_
    rw [position]
    rfl
  | client fd recv hup rand =>
    obtain ⟨n, connection, position, -, -, outcome⟩ := client_eq_some.mp stepped
    have free : s.server.given w = [] := by rw [position]; rfl
    rcases outcome with ⟨text, -, rfl⟩ | ⟨-, rfl⟩ | ⟨-, rfl⟩
    · exact flows_process (s := s.received text) recv free
    · exact flows_of_same rfl rfl free.symm
    · exact flows_process recv free
  | send =>
    obtain ⟨parcel, hup, n, position, -, rfl⟩ := send_eq_some.mp stepped
    have joined : (s.workers w).given ++ given w (s.queue ++ [parcel]) ++ [] = s.toExecute w := by
      rw [toExecute, given_sent position, List.append_nil, List.append_assoc]
    constructor
    · rw [← joined]
      cases hup <;> exact List.append_nil _
    · cases hup <;> exact List.append_nil _
  | drain =>
    obtain ⟨position, ⟨-, rfl⟩ | ⟨parcel, rest, taken, rfl⟩⟩ := drain_eq_some.mp stepped
    · change Flows s [] _ w
      refine flows_of_same rfl rfl ?_
      rw [position]
      rfl
    · obtain ⟨before, after, cut, named, -, rfl⟩ := msgrcv_eq_some taken
      have other : parcel.message.mtype ≠ workerId w := by
        rw [named, workerId, serverMsgId]
        omega
      change Flows s [] _ w
      refine flows_of_same rfl ?_ ?_
      · rw [cut, given_other other]
        rfl
      · rw [position]
        rfl
  | _ => cases server

/-- A worker's own step; the other workers do not notice it. -/
private theorem flows_works {v : Fin numWorkers} {worker : Worker} {events : List Event}
    (works : Works v s t worker) (mine : ∀ event ∈ events, event.worker = v)
    (single : events.length ≤ 1) (others : ∀ w ≠ v, given w t.queue = given w s.queue)
    (flows : Flows s events t v) (w : Fin numWorkers) : Flows s events t w := by
  rcases eq_or_ne w v with rfl | differ
  · exact flows
  · have same : Flows s [] t w :=
      flows_of_same (works.other differ) (others w differ) (by rw [works.idle.server])
    cases events with
    | nil => exact same
    | cons event rest =>
      obtain rfl : rest = [] := List.eq_nil_of_length_eq_zero (by simpa using single)
      exact flows_of_other (fun own => differ (own.symm.trans (mine event (by simp)))) same

private theorem flows_of_worker (stepped : s.step capacity a = some t) {v : Fin numWorkers}
    (owner : a.worker = some v) (typed : Typed capacity s) (w : Fin numWorkers) :
    Flows s (events s a t) t w := by
  obtain ⟨worker, works⟩ := works_of_worker stepped owner
  cases a with
  | receive u =>
    cases owner
    obtain ⟨parcel, rest, position, taken, rfl⟩ := receive_eq_some.mp stepped
    obtain ⟨before, after, cut, named, earlier, rfl⟩ := msgrcv_eq_some taken
    apply flows_works works
    · simp [events]
    · simp [events]
    · intro w differ
      have other : parcel.message.mtype ≠ workerId w := by
        rw [named, ne_eq, workerId_inj]
        exact differ.symm
      rw [cut, given_other other]
      rfl
    · have first : given v s.queue = parcel.command.toList ++ given v (before ++ after) := by
        rw [cut, given_first named earlier]
      simp [Flows, events, ofWorker, toExecute, setWorker, position, first, Worker.given,
        Worker.executed]
  | down u =>
    cases owner
    obtain ⟨parcel, next, position, passed, rfl⟩ := down_eq_some.mp stepped
    rw [semDown_eq passed] at works ⊢
    apply flows_works works (by simp [events]) (by simp [events]) (fun _ _ => rfl)
    simp [Flows, events, ofWorker, toExecute, setWorker, position, Worker.given, Worker.executed]
  | call u =>
    cases owner
    obtain ⟨parcel, reply, table, position, answered, rfl⟩ := call_eq_some.mp stepped
    have event : ∀ t, events s (.call v) t = [.effect v parcel reply] := by
      intro t
      simp only [events, position, answered]
    rw [event]
    apply flows_works works (by simp [Event.worker]) (by simp) (fun _ _ => rfl)
    simp [Flows, ofWorker_singleton, toExecute, setWorker, position, Event.worker, Event.reads,
      Event.executes, Event.replies, Worker.given, Worker.executed]
  | up u =>
    cases owner
    obtain ⟨parcel, position, rfl⟩ := up_eq_some.mp stepped
    rw [semUp_eq] at works ⊢
    apply flows_works works (by simp [events]) (by simp [events]) (fun _ _ => rfl)
    simp [Flows, events, ofWorker, toExecute, setWorker, position, Worker.given, Worker.executed]
  | reply u =>
    cases owner
    obtain ⟨parcel, position, -, rfl⟩ := reply_eq_some.mp stepped
    have event : ∀ t, events s (.reply v) t = [.queued v parcel] := by
      intro t
      simp only [events, position]
    have named := typed.workers v parcel (by rw [position]; rfl)
    have silent (w : Fin numWorkers) : given w (s.queue ++ [parcel]) = given w s.queue := by
      rw [given_other, List.append_nil]
      rw [named, workerId, serverMsgId]
      omega
    rw [event]
    apply flows_works works (by simp [Event.worker]) (by simp) (fun w _ => silent w)
    simp [Flows, ofWorker_singleton, toExecute, setWorker, position, Event.worker, Event.reads,
      Event.executes, Event.replies, Worker.given, Worker.executed, silent]
  | _ => cases owner

/-- In each step, what a worker is given joins the end of its line, what it executes leaves the
front, and its replies follow what it executed. -/
theorem flows_step (stepped : s.step capacity a = some t) (typed : Typed capacity s)
    (w : Fin numWorkers) : Flows s (events s a t) t w := by
  cases owner : a.worker with
  | none => exact flows_of_server stepped owner w
  | some v => exact flows_of_worker stepped owner typed w

theorem commands_le (stepped : s.step capacity a = some t) : s.commands ≤ t.commands := by
  cases step_effect stepped with
  | quiet quiet commands => exact commands.ge
  | accepted clients accepted outstanding delivered commands => exact commands.ge
  | received found outcome commands => exact commands ▸ Nat.le_succ _
  | failed found outcome commands => exact commands.ge
  | answered outstanding delivered commands => exact commands.ge

private theorem reads_process {fd : ℕ} (command : Option Command) {hup : Bool}
    {rand : Fin numWorkers} {n : ℕ} (recv : Recv) :
    (events s (.client fd recv hup rand) (t.process fd command hup rand n)).filterMap Event.reads =
        [] ∨
      (events s (.client fd recv hup rand) (t.process fd command hup rand n)).filterMap Event.reads =
        command.toList := by
  unfold process
  split
  · exact .inl rfl
  · exact .inl rfl
  · right
    cases command <;> rfl

/-- The commands read are numbered in their order. -/
theorem reads_step (stepped : s.step capacity a = some t) :
    (events s a t).filterMap Event.reads = [] ∨
      ∃ connection, (events s a t).filterMap Event.reads = [⟨s.commands, connection⟩] ∧
        t.commands = s.commands + 1 := by
  cases a with
  | client fd recv hup rand =>
    obtain ⟨n, connection, -, -, -, outcome⟩ := client_eq_some.mp stepped
    rcases outcome with ⟨text, -, rfl⟩ | ⟨-, rfl⟩ | ⟨-, rfl⟩
    · rcases reads_process (s := s) (t := s.received text) _ recv with unread | one
      · exact .inl unread
      · exact .inr ⟨connection, one, (counts_process ..).1⟩
    · exact .inl rfl
    · rcases reads_process (s := s) (t := s) none recv with unread | unread <;>
        exact .inl unread
  | call v =>
    obtain ⟨parcel, reply, table, position, answered, -⟩ := call_eq_some.mp stepped
    left
    simp [events, position, answered, Event.reads]
  | reply v =>
    obtain ⟨parcel, position, -, -⟩ := reply_eq_some.mp stepped
    left
    simp [events, position, Event.reads]
  | _ => exact .inl rfl

end System

end SphereMultithreading.Model.P5
