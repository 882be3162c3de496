import SphereMultithreading.Proofs.P5.Pending

/-! # Accounts of the messages of p5

A command becomes a request, takes effect in the call of a worker, and its reply is sent as a text.
What each message weighs on its way is kept by every step, but for what these three moments bring in or
take away: `Weights.total_step`. Two ways to weigh tell which commands have been asked for but have no
effect yet, and which have had theirs but are not answered yet.
-/

namespace SphereMultithreading.Model.P5

open Model.HashTable HashTable Machine Machine.Permits Scanf

/-- What happens to a command. -/
inductive Moment where
  | asked (parcel : Parcel)
  | effect (parcel : Parcel) (reply : Reply)
  | sent (parcel : Parcel) (text : Text)

namespace System

/-- The moment a step is. -/
def moments (s : System) : Action → System → List Moment
  | .client _ _ _ _, t =>
      match t.server with
      | .send parcel _ _ => [.asked parcel]
      | _ => []
  | .call w, _ =>
      match s.workers w with
      | .call parcel =>
          match HashTable.step s.table parcel.message.call with
          | some (reply, _) => [.effect parcel reply]
          | none => []
      | _ => []
  | .drain, t =>
      match s.msgrcv serverMsgId with
      | some (parcel, _) => [.sent parcel t.buffer]
      | none => []
  | _, _ => []

theorem length_moments_le (s : System) (a : Action) (t : System) : (s.moments a t).length ≤ 1 := by
  unfold moments
  split
  · split <;> simp
  · split
    · split <;> simp
    · simp
  · split <;> simp
  · simp

end System

/-- What a message weighs in the queue, with a worker and with the server. Where it is passed on it
keeps its weight. -/
structure Weights (M : Type) [AddCancelCommMonoid M] where
  queued : Parcel → M
  worker : Worker → M
  sending : Parcel → M
  passed : ∀ (w : Fin numWorkers) (parcel : Parcel), parcel.message.mtype = workerId w →
    sending parcel = queued parcel
  taken : ∀ (w : Fin numWorkers) (parcel : Parcel), parcel.message.mtype = workerId w →
    queued parcel = worker (.down { parcel with message := { parcel.message with mtype := serverMsgId } })
  entered : ∀ parcel, worker (.down parcel) = worker (.call parcel)
  left : ∀ parcel, worker (.up parcel) = worker (.reply parcel)
  returned : ∀ parcel, parcel.message.mtype = serverMsgId → worker (.reply parcel) = queued parcel
  idle : worker .receive = 0

namespace Weights

variable {M : Type} [AddCancelCommMonoid M] (weights : Weights M)

def server : Server → M
  | .send parcel _ _ => weights.sending parcel
  | _ => 0

/-- The weight of all messages on their way. -/
def total (s : System) : M :=
  (s.queue.map weights.queued).sum + ∑ w, weights.worker (s.workers w) + weights.server s.server

/-- What a moment brings in. -/
def gain : Moment → M
  | .asked parcel => weights.sending parcel
  | .effect parcel reply => weights.worker (.up { parcel with message := parcel.message.answered reply })
  | .sent _ _ => 0

/-- What a moment takes away. -/
def loss : Moment → M
  | .asked _ => 0
  | .effect parcel _ => weights.worker (.call parcel)
  | .sent parcel _ => weights.queued parcel

/-- The account of a step with its moments. -/
def Settled (s : System) (moments : List Moment) (t : System) : Prop :=
  weights.total t + (moments.map weights.loss).sum = weights.total s + (moments.map weights.gain).sum

variable {weights} {capacity : ℕ} {s t : System} {a : Action}

open Model.P5.System

theorem sum_cut (before after : List Parcel) (parcel : Parcel) :
    ((before ++ parcel :: after).map weights.queued).sum =
      ((before ++ after).map weights.queued).sum + weights.queued parcel := by
  simp only [List.map_append, List.map_cons, List.sum_append, List.sum_cons]
  abel

/-- A step of a worker moves weight between the queue and the worker. -/
private theorem settled_of_worker {w : Fin numWorkers} {worker : Worker} {moments : List Moment}
    (server : t.server = s.server) (workers : t.workers = Function.update s.workers w worker)
    (moved : (t.queue.map weights.queued).sum + weights.worker worker + (moments.map weights.loss).sum =
      (s.queue.map weights.queued).sum + weights.worker (s.workers w) + (moments.map weights.gain).sum) :
    weights.Settled s moments t := by
  have changed := sum_update weights.worker s.workers w worker
  apply add_right_cancel (b := weights.worker (s.workers w))
  rw [total, total, server, workers]
  calc
    _ = (∑ v, weights.worker (Function.update s.workers w worker v) + weights.worker (s.workers w)) +
        (weights.server s.server + ((t.queue.map weights.queued).sum + (moments.map weights.loss).sum)) := by
      abel
    _ = ∑ v, weights.worker (s.workers v) + weights.server s.server +
        ((t.queue.map weights.queued).sum + weights.worker worker + (moments.map weights.loss).sum) := by
      rw [changed]
      abel
    _ = _ := by
      rw [moved]
      abel

/-- A step of the server moves weight between the queue and the server. -/
private theorem settled_of_server {moments : List Moment} (workers : t.workers = s.workers)
    (moved : (t.queue.map weights.queued).sum + weights.server t.server + (moments.map weights.loss).sum =
      (s.queue.map weights.queued).sum + weights.server s.server + (moments.map weights.gain).sum) :
    weights.Settled s moments t := by
  rw [Settled, total, total, workers]
  calc
    _ = ∑ w, weights.worker (s.workers w) + ((t.queue.map weights.queued).sum + weights.server t.server +
        (moments.map weights.loss).sum) := by
      abel
    _ = _ := by
      rw [moved]
      abel

/-- The server behind its `recv`: a request is a new message. -/
private theorem settled_process {fd : ℕ} {command : Option Command} {hup : Bool} {rand : Fin numWorkers}
    {n : ℕ} {recv : Recv} (free : weights.server s.server = 0) (workers : t.workers = s.workers)
    (queue : t.queue = s.queue) :
    weights.Settled s (s.moments (.client fd recv hup rand) (t.process fd command hup rand n))
      (t.process fd command hup rand n) := by
  unfold process
  split
  · refine settled_of_server ?_ ?_
    · cases hup <;> exact workers
    · rw [free]
      cases hup <;> simp [moments, setServer, hangUp, disconnectClient, server, queue]
  · refine settled_of_server ?_ ?_
    · cases hup <;> exact workers
    · rw [free]
      cases hup <;>
        simp [moments, setServer, hangUp, disconnectClient, setBuffer, sendMessageToClient, server, queue]
  · refine settled_of_server workers ?_
    rw [free]
    simp [moments, setServer, server, queue, loss, gain]

theorem settled_step (weights : Weights M) (stepped : s.step capacity a = some t)
    (typed : Typed capacity s) : weights.Settled s (s.moments a t) t := by
  cases a with
  | poll events =>
    obtain ⟨position, -, rfl⟩ := poll_eq_some.mp stepped
    refine settled_of_server ?_ ?_
    · rfl
    · rw [position]
      rfl
  | master =>
    obtain ⟨n, position, rfl⟩ := master_eq_some.mp stepped
    refine settled_of_server ?_ ?_
    · rfl
    · rw [position]
      rfl
  | accept =>
    obtain ⟨n, -, rfl⟩ := accept_eq_some.mp stepped
    rfl
  | acceptDone =>
    obtain ⟨n, position, rfl⟩ := acceptDone_eq_some.mp stepped
    refine settled_of_server ?_ ?_
    · rfl
    · rw [position]
      rfl
  | client fd recv hup rand =>
    obtain ⟨n, connection, position, -, -, outcome⟩ := client_eq_some.mp stepped
    have free : weights.server s.server = 0 := by
      rw [position]
      rfl
    rcases outcome with ⟨text, -, rfl⟩ | ⟨-, rfl⟩ | ⟨-, rfl⟩
    · exact settled_process free rfl rfl
    · refine settled_of_server ?_ ?_
      · rfl
      · rw [free]
        rfl
    · exact settled_process free rfl rfl
  | send =>
    obtain ⟨parcel, hup, n, position, -, rfl⟩ := send_eq_some.mp stepped
    obtain ⟨w, named⟩ := typed.server parcel hup n position
    refine settled_of_server ?_ ?_
    · cases hup <;> rfl
    · have sent : weights.server s.server = weights.queued parcel := by
        rw [position]
        exact weights.passed w parcel named
      rw [sent]
      cases hup <;> simp [moments, setServer, hangUp, disconnectClient, server]
  | drain =>
    obtain ⟨position, ⟨nothing, rfl⟩ | ⟨parcel, rest, taken, rfl⟩⟩ := drain_eq_some.mp stepped
    · refine settled_of_server ?_ ?_
      · rfl
      · rw [position]
        simp [moments, nothing, setServer, server]
    · have moment : ∀ t, moments s .drain t = [.sent parcel t.buffer] := by
        intro t
        simp only [moments, taken]
      rw [moment]
      obtain ⟨before, after, cut, -, -, rfl⟩ := msgrcv_eq_some taken
      refine settled_of_server ?_ ?_
      · rfl
      · rw [position, cut, sum_cut]
        simp [loss, gain, setServer, setBuffer, sendMessageToClient, server]
  | receive w =>
    obtain ⟨parcel, rest, position, taken, rfl⟩ := receive_eq_some.mp stepped
    obtain ⟨before, after, cut, named, -, rfl⟩ := msgrcv_eq_some taken
    refine settled_of_worker (w := w) ?_ (by rfl) ?_
    · rfl
    · rw [cut, sum_cut, position, weights.taken w parcel named, weights.idle]
      simp [moments, setWorker]
  | down w =>
    obtain ⟨parcel, next, position, passed, rfl⟩ := down_eq_some.mp stepped
    rw [semDown_eq passed]
    refine settled_of_worker (w := w) ?_ (by rfl) ?_
    · rfl
    · rw [position, weights.entered]
      rfl
  | call w =>
    obtain ⟨parcel, reply, table, position, answered, rfl⟩ := call_eq_some.mp stepped
    have moment : ∀ t, moments s (.call w) t = [.effect parcel reply] := by
      intro t
      simp only [moments, position, answered]
    rw [moment]
    refine settled_of_worker (w := w) ?_ (by rfl) ?_
    · rfl
    · rw [position]
      simp only [List.map_singleton, List.sum_singleton, loss, gain]
      exact add_right_comm ..
  | up w =>
    obtain ⟨parcel, position, rfl⟩ := up_eq_some.mp stepped
    rw [semUp_eq]
    refine settled_of_worker (w := w) ?_ (by rfl) ?_
    · rfl
    · rw [position, weights.left]
      rfl
  | reply w =>
    obtain ⟨parcel, position, -, rfl⟩ := reply_eq_some.mp stepped
    have named := typed.workers w parcel (by rw [position]; rfl)
    refine settled_of_worker (w := w) ?_ (by rfl) ?_
    · rfl
    · rw [position, weights.idle, weights.returned parcel named]
      simp [moments, setWorker]

/-- The account of a whole history. -/
theorem settled_append (weights : Weights M) {log : List Moment}
    (balanced : weights.total s + (log.map weights.loss).sum = (log.map weights.gain).sum)
    (settled : weights.Settled s (s.moments a t) t) :
    weights.total t + ((log ++ s.moments a t).map weights.loss).sum =
      ((log ++ s.moments a t).map weights.gain).sum := by
  rw [List.map_append, List.map_append, List.sum_append, List.sum_append, ← balanced]
  calc
    _ = weights.total t + ((s.moments a t).map weights.loss).sum + (log.map weights.loss).sum := by abel
    _ = weights.total s + ((s.moments a t).map weights.gain).sum + (log.map weights.loss).sum := by
      rw [settled]
    _ = _ := by abel

theorem total_init (weights : Weights M) (memory : HashTable) : weights.total (init memory) = 0 := by
  simp [total, init, weights.idle, server]

end Weights

/-! ## Two accounts -/

/-- A command as it was asked, and the descriptor it came from. -/
abbrev Asked := Option Command × ℕ × Call

def Parcel.asked (parcel : Parcel) : Asked := (parcel.command, parcel.message.client, parcel.message.call)

private theorem workerId_ne (w : Fin numWorkers) : workerId w ≠ serverMsgId := by
  rw [workerId, serverMsgId]
  omega

/-- The commands that have no effect yet. -/
def waiting : Weights (Multiset Asked) where
  queued parcel := if parcel.message.mtype = serverMsgId then 0 else {parcel.asked}
  worker
    | .down parcel => {parcel.asked}
    | .call parcel => {parcel.asked}
    | _ => 0
  sending parcel := {parcel.asked}
  passed w parcel named := by rw [if_neg (named ▸ workerId_ne w)]
  taken w parcel named := by
    rw [if_neg (named ▸ workerId_ne w)]
    rfl
  entered _ := rfl
  left _ := rfl
  returned parcel named := by rw [if_pos named]
  idle := rfl

/-- The messages that are answered and not yet sent. -/
def answered : Weights (Multiset Parcel) where
  queued parcel := if parcel.message.mtype = serverMsgId then {parcel} else 0
  worker
    | .up parcel => {parcel}
    | .reply parcel => {parcel}
    | _ => 0
  sending _ := 0
  passed w parcel named := by rw [if_neg (named ▸ workerId_ne w)]
  taken w parcel named := by rw [if_neg (named ▸ workerId_ne w)]
  entered _ := rfl
  left _ := rfl
  returned parcel named := by rw [if_pos named]
  idle := rfl

end SphereMultithreading.Model.P5
