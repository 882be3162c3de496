import SphereMultithreading.Proofs.P5.History
import SphereMultithreading.Soundness.P5.Protection

/-! # Program order in p5

Requests go to workers picked at random, so two commands of one client may overtake each other. They
keep their order when one worker gets both, or when the reply to the first is queued before the
second is read. As long as no clashing calls are let in together, a `get` answers with what the last
`set` or `del` of its key that took effect has left.
-/

namespace SphereMultithreading.Soundness.P5

open Machine Model.P5 Model.P5.HashTable Model.P5.System Proofs.HashTable

/-- The value of a key after an event. -/
def stores (key : ℤ) (value : Option ℤ) : Event → Option ℤ
  | .effect _ parcel (.ok _) =>
      match parcel.message.call with
      | .set k v => if key = k then some v else value
      | .del k => if key = k then none else value
      | .get _ => value
  | _ => value

/-- The value of a key after a history: what the last `set` or `del` of it to take effect left. -/
def stored (key : ℤ) (log : List Event) : Option ℤ := log.foldl (stores key) none

/-- The answer to a `get` of a key with this value. -/
def answer : Option ℤ → Reply
  | some value => .ok (some value)
  | none => .error noKey

/-- If the history ends with a `get`, its answer is the stored value. -/
def Answers (log : List Event) : Prop :=
  ∀ before w parcel reply key, log = before ++ [.effect w parcel reply] →
    parcel.message.call = .get key → reply = answer (stored key before)

/-- The law of a history. -/
structure Ordered (log : List Event) : Prop where
  distinct : (log.filterMap Event.reads).Nodup
  executes : ∀ w, ofWorker Event.executes w log <+: ofWorker Event.reads w log
  replies : ∀ w, ofWorker Event.replies w log <+: ofWorker Event.executes w log
  answers : Answers log

/-- The system behind a history. -/
structure Recorded (capacity : ℕ) (s : System) (log : List Event) : Prop where
  typed : Typed capacity s
  given : ∀ w, ofWorker Event.reads w log = ofWorker Event.executes w log ++ s.toExecute w
  done : ∀ w, ofWorker Event.executes w log =
    ofWorker Event.replies w log ++ (s.workers w).executed
  numbers : ∀ command ∈ log.filterMap Event.reads, command.number < s.commands
  distinct : (log.filterMap Event.reads).Nodup
  table : ∃ map, Represents s.table map ∧ ∀ key, map.lookup key = stored key log
  answers : Answers log

theorem recorded_init (capacity : ℕ) (memory : Model.P5.HashTable) :
    Recorded capacity (init memory) [] where
  typed := typed_init capacity memory
  given := fun _ => rfl
  done := fun _ => rfl
  numbers := by simp
  distinct := List.nodup_nil
  table := ⟨.empty, represents_sharedMemorySet memory, fun _ => rfl⟩
  answers := by simp [Answers]

theorem Recorded.ordered {capacity : ℕ} {s : System} {log : List Event}
    (recorded : Recorded capacity s log) : Ordered log where
  distinct := recorded.distinct
  executes := fun w => ⟨_, (recorded.given w).symm⟩
  replies := fun w => ⟨_, (recorded.done w).symm⟩
  answers := recorded.answers

variable {capacity : ℕ} {s t : System} {a : Action}

/-- A call on the map changes the value of its key only, and a `get` answers with it. -/
theorem mapStep_stores (map : Contents) (w : Fin numWorkers) (parcel : Parcel) (key : ℤ) :
    (mapStep map parcel.message.call).2.lookup key =
      stores key (map.lookup key) (.effect w parcel (mapStep map parcel.message.call).1) := by
  cases called : parcel.message.call with
  | set k v =>
    cases inserted : map.insert? k v with
    | none => simp [stores, mapStep, inserted]
    | some next => simp [stores, mapStep, called, inserted, BoundedMap.lookup_insert? inserted]
  | get k => cases found : map.lookup k <;> simp [stores, mapStep, called, found]
  | del k =>
    cases found : map.lookup k with
    | none => simp [stores, mapStep, found]
    | some value => simp [stores, mapStep, called, found, BoundedMap.lookup_erase]

theorem mapStep_get (map : Contents) (key : ℤ) :
    (mapStep map (.get key)).1 = answer (map.lookup key) := by
  cases found : map.lookup key <;> simp [mapStep, answer, found]

theorem stored_append (key : ℤ) (log events : List Event) :
    stored key (log ++ events) = events.foldl (stores key) (stored key log) :=
  List.foldl_append

/-- Events that are no effects leave the stored values alone. -/
theorem stored_of_silent {log events : List Event} (key : ℤ)
    (silent : ∀ event ∈ events, ∀ w parcel reply, event ≠ .effect w parcel reply) :
    stored key (log ++ events) = stored key log := by
  rw [stored_append]
  induction events with
  | nil => rfl
  | cons event rest ih =>
    have same : stores key (stored key log) event = stored key log := by
      cases event with
      | effect w parcel reply => exact absurd rfl (silent _ (List.mem_cons_self ..) w parcel reply)
      | _ => rfl
    rw [List.foldl_cons, same]
    exact ih fun other member => silent other (List.mem_cons_of_mem _ member)

/-- A call is an effect; any other step leaves the table alone. -/
theorem events_cases (stepped : s.step capacity a = some t) :
    (t.table = s.table ∧
      ∀ event ∈ events s a t, ∀ w parcel reply, event ≠ .effect w parcel reply) ∨
    ∃ w parcel reply, events s a t = [.effect w parcel reply] ∧
      HashTable.step s.table parcel.message.call = some (reply, t.table) := by
  cases a with
  | call w =>
    obtain ⟨parcel, reply, table, position, answered, rfl⟩ := call_eq_some.mp stepped
    refine .inr ⟨w, parcel, reply, ?_, answered⟩
    simp [events, position, answered]
  | reply w =>
    obtain ⟨parcel, position, -, rfl⟩ := reply_eq_some.mp stepped
    refine .inl ⟨rfl, ?_⟩
    simp [events, position]
  | client fd recv hup rand =>
    refine .inl ⟨(workersIdle_of_server stepped rfl).table, ?_⟩
    cases position : t.server <;> simp [events, position]
  | receive w =>
    obtain ⟨parcel, rest, -, taken, rfl⟩ := receive_eq_some.mp stepped
    obtain ⟨before, after, -, -, -, rfl⟩ := msgrcv_eq_some taken
    exact .inl ⟨rfl, by simp [events]⟩
  | down w =>
    obtain ⟨parcel, next, -, passed, rfl⟩ := down_eq_some.mp stepped
    rw [semDown_eq passed]
    exact .inl ⟨rfl, by simp [events]⟩
  | up w =>
    obtain ⟨parcel, -, rfl⟩ := up_eq_some.mp stepped
    rw [semUp_eq]
    exact .inl ⟨rfl, by simp [events]⟩
  | _ => exact .inl ⟨(workersIdle_of_server stepped rfl).table, by simp [events]⟩

/-- The last effect is still the same one. -/
private theorem answers_of_silent {log events : List Event} (answers : Answers log)
    (single : events.length ≤ 1)
    (silent : ∀ event ∈ events, ∀ w parcel reply, event ≠ .effect w parcel reply) :
    Answers (log ++ events) := by
  cases events with
  | nil => exact (List.append_nil log).symm ▸ answers
  | cons event rest =>
    obtain rfl : rest = [] := List.eq_nil_of_length_eq_zero (by simpa using single)
    intro before w parcel reply key same
    obtain ⟨-, last⟩ := List.append_inj' same rfl
    exact absurd (List.cons.inj last).1 (silent event (List.mem_cons_self ..) w parcel reply)

theorem recorded_step {log : List Event} (stepped : s.step capacity a = some t)
    (recorded : Recorded capacity s log) : Recorded capacity t (log ++ events s a t) := by
  have typed := typed_step stepped recorded.typed
  have given (w : Fin numWorkers) : ofWorker Event.reads w (log ++ events s a t) =
      ofWorker Event.executes w (log ++ events s a t) ++ t.toExecute w := by
    rw [ofWorker_append, ofWorker_append, recorded.given, List.append_assoc,
      (flows_step stepped recorded.typed w).1, List.append_assoc]
  have done (w : Fin numWorkers) : ofWorker Event.executes w (log ++ events s a t) =
      ofWorker Event.replies w (log ++ events s a t) ++ (t.workers w).executed := by
    rw [ofWorker_append, ofWorker_append, recorded.done, List.append_assoc,
      (flows_step stepped recorded.typed w).2, List.append_assoc]
  have numbered : (∀ command ∈ (log ++ events s a t).filterMap Event.reads,
      command.number < t.commands) ∧ ((log ++ events s a t).filterMap Event.reads).Nodup := by
    rw [List.filterMap_append]
    rcases reads_step stepped with unread | ⟨connection, one, commands⟩
    · rw [unread, List.append_nil]
      exact ⟨fun command member => (recorded.numbers command member).trans_le (commands_le stepped),
        recorded.distinct⟩
    · rw [one, commands]
      constructor
      · intro command member
        rcases List.mem_append.mp member with old | new
        · exact (recorded.numbers command old).trans (Nat.lt_succ_self _)
        · rw [List.mem_singleton.mp new]
          exact Nat.lt_succ_self _
      · refine List.nodup_append.mpr ⟨recorded.distinct, List.nodup_singleton _, ?_⟩
        rintro command old other new rfl
        rw [List.mem_singleton.mp new] at old
        exact absurd (recorded.numbers _ old) (lt_irrefl _)
  obtain ⟨map, represents, values⟩ := recorded.table
  rcases events_cases stepped with ⟨table, silent⟩ | ⟨w, parcel, reply, event, answered⟩
  · refine ⟨typed, given, done, numbered.1, numbered.2, ⟨map, table ▸ represents, ?_⟩, ?_⟩
    · intro key
      rw [stored_of_silent key silent]
      exact values key
    · exact answers_of_silent recorded.answers (length_events_le s a t) silent
  · obtain ⟨next, answered', represents'⟩ := step_simulates s.table map _ represents
    obtain ⟨rfl, rfl⟩ := Prod.mk.inj (Option.some.inj (answered.symm.trans answered'))
    refine ⟨typed, given, done, numbered.1, numbered.2, ⟨_, represents', ?_⟩, ?_⟩
    · intro key
      rw [event, stored_append, mapStep_stores map w parcel key, values key]
      rfl
    · rintro before w' parcel' reply' key same got
      rw [event] at same
      obtain ⟨rfl, last⟩ := List.append_inj' same rfl
      cases last
      rw [got, mapStep_get, values]

/-! ## The order of two commands -/

theorem mem_ofWorker {commands : Event → Option Command} {w : Fin numWorkers} {log : List Event}
    {command : Command} : command ∈ ofWorker commands w log ↔
      ∃ event ∈ log, event.worker = w ∧ commands event = some command := by
  simp [ofWorker, List.mem_filterMap, List.mem_filter, and_assoc]

theorem ofWorker_cut (commands : Event → Option Command) {event : Event} {command : Command}
    (named : commands event = some command) (before after : List Event) :
    ofWorker commands event.worker (before ++ event :: after) =
      ofWorker commands event.worker before ++ command ::
        ofWorker commands event.worker after := by
  rw [← List.singleton_append, ofWorker_append, ofWorker_append, ofWorker_singleton, if_pos rfl,
    named]
  rfl

/-- What every worker does in the order it was given happens in that order to two commands of one
worker, and to two commands the second of which was read after the reply to the first. -/
private theorem precedes_of_reads {commands : Event → Option Command} {log : List Event}
    (distinct : (log.filterMap Event.reads).Nodup)
    (inOrder : ∀ part, part <+: log → ∀ w,
      ofWorker commands w part <+: ofWorker Event.reads w part)
    (later : ∀ event command, commands event = some command → event.reads = none)
    {before between after : List Event} {first second : Event} {c₁ c₂ : Command}
    (cut : log = before ++ first :: between ++ second :: after) (ofFirst : first.reads = some c₁)
    (ofSecond : second.reads = some c₂)
    (ordered : first.worker = second.worker ∨
      ∃ event ∈ before ++ first :: between, commands event = some c₁) :
    Precedes (fun event => commands event = some c₁) (fun event => commands event = some c₂) log := by
  intro earlier event rest here named
  have part : earlier ++ [event] <+: log := ⟨rest, by rw [here]; simp⟩
  have next := inOrder _ part event.worker
  rw [ofWorker_append, ofWorker_singleton, if_pos rfl, named, Option.toList_some, ofWorker_append,
    ofWorker_singleton, later event c₂ named, Option.toList_none, ite_self, List.append_nil] at next
  -- the command is among those read before
  obtain ⟨read, member, mine, ofRead⟩ := mem_ofWorker.mp
    (next.subset (List.mem_append_right _ (List.mem_singleton_self c₂)))
  obtain ⟨front, behind, rfl⟩ := List.append_of_mem member
  have readsHere : (ofWorker Event.reads event.worker (front ++ read :: behind)).Nodup := by
    refine List.Nodup.sublist ?_ distinct
    rw [here, List.filterMap_append]
    exact (List.filter_sublist.filterMap _).trans (List.sublist_append_left ..)
  rw [List.append_assoc, List.cons_append] at here
  obtain ⟨rfl, rfl, -⟩ := cut_unique distinct ofRead ofSecond here cut
  rcases ordered with same | ⟨reply, within, answers⟩
  · rw [← mine] at next readsHere
    have given : ofWorker Event.reads read.worker (before ++ first :: between ++ read :: behind) =
        ofWorker Event.reads read.worker before ++ c₁ :: ofWorker Event.reads read.worker between ++
          c₂ :: ofWorker Event.reads read.worker behind := by
      rw [ofWorker_cut Event.reads ofRead, ← same, ofWorker_cut Event.reads ofFirst]
    obtain ⟨done, doneBefore, -, ofDone⟩ := mem_ofWorker.mp (mem_of_next readsHere next given)
    exact ⟨done, doneBefore, ofDone⟩
  · exact ⟨reply, List.mem_append_left _ within, answers⟩

theorem reads_of_executes {event : Event} {command : Command}
    (executes : event.executes = some command) : event.reads = none := by
  cases event with
  | effect => rfl
  | _ => cases executes

theorem reads_of_replies {event : Event} {command : Command}
    (replies : event.replies = some command) : event.reads = none := by
  cases event with
  | queued => rfl
  | _ => cases replies

/-- In every history, two commands read one after the other take effect in that order, and have
their replies queued in that order, if one worker gets both or the reply to the first is queued
before the second is read. If no clashing calls are let in together, every `get` answers with what the
last `set` or `del` of its key to take effect left. -/
theorem program_order (capacity : ℕ) (memory : Model.P5.HashTable) {actions : List Action}
    {t : System} {log : List Event}
    (success : run (recorded (step capacity) events) (init memory, []) actions = some (t, log)) :
    (∀ before between after w₁ w₂ first second c₁ c₂,
      log = before ++ .read w₁ first :: between ++ .read w₂ second :: after →
      first.command = some c₁ → second.command = some c₂ →
      (w₁ = w₂ ∨ ∃ event ∈ between, event.replies = some c₁) →
      Precedes (fun event => event.executes = some c₁) (fun event => event.executes = some c₂) log ∧
        Precedes (fun event => event.replies = some c₁) (fun event => event.replies = some c₂) log) ∧
    (Guarded (step capacity) Apart (init memory) actions →
      ∀ before w parcel reply after key, log = before ++ .effect w parcel reply :: after →
        parcel.message.call = .get key → reply = answer (stored key before)) := by
  have ordered : ∀ part, part <+: log → Ordered part := by
    refine run_recorded (I := fun now : System × List Event => Recorded capacity now.1 now.2)
      (P := Ordered) ?_ ?_ ?_ (recorded_init capacity memory) success
    · exact length_events_le
    · exact fun _ _ _ _ stepped recorded => recorded_step stepped recorded
    · exact fun _ _ recorded => recorded.ordered
  have distinct := (ordered log (List.prefix_refl log)).distinct
  constructor
  · intro before between after w₁ w₂ first second c₁ c₂ cut named₁ named₂ route
    constructor
    · refine precedes_of_reads distinct (fun part early => (ordered part early).executes)
        (fun _ _ => reads_of_executes) cut named₁ named₂ (route.imp id ?_)
      rintro ⟨event, within, replied⟩
      have early : before ++ .read w₁ first :: between <+: log := ⟨_, cut.symm⟩
      have queued : c₁ ∈ ofWorker Event.replies event.worker (before ++ .read w₁ first :: between) :=
        mem_ofWorker.mpr ⟨event, by simp [within], rfl, replied⟩
      obtain ⟨effect, member, -, executed⟩ := mem_ofWorker.mp
        (((ordered _ early).replies event.worker).subset queued)
      exact ⟨effect, member, executed⟩
    · refine precedes_of_reads distinct
        (fun part early w => ((ordered part early).replies w).trans ((ordered part early).executes w))
        (fun _ _ => reads_of_replies) cut named₁ named₂ (route.imp id ?_)
      rintro ⟨event, within, replied⟩
      exact ⟨event, by simp [within], replied⟩
  · intro _ before w parcel reply after key cut got
    refine (ordered (before ++ [.effect w parcel reply]) ?_).answers before w parcel reply key rfl got
    exact ⟨after, by rw [cut]; simp⟩

/-- A client sends `set 1 5` and `get 1`; the first goes to worker 0 and the second to `w`. -/
def setThenGet (w : Fin numWorkers) : List Action :=
  [.poll 1, .master, .accept, .acceptDone, .drain,
    .poll 1, .client 5 (.bytes ['s', 'e', 't', ' ', '1', ' ', '5']) false 0, .send, .drain,
    .poll 1, .client 5 (.bytes ['g', 'e', 't', ' ', '1']) false w, .send, .drain]

/-- Worker 0 gets both commands and executes them. -/
def inOrder : List Action :=
  setThenGet 0 ++ [.receive 0, .down 0, .call 0, .up 0, .reply 0, .receive 0, .down 0, .call 0]

/-- The history of `inOrder`. -/
def ordered : List Event :=
  [.read 0 ⟨⟨2, .SET, 1, 5, 0, 5⟩, some ⟨0, 0⟩⟩, .read 0 ⟨⟨2, .GET, 1, 0, 0, 5⟩, some ⟨1, 0⟩⟩,
    .effect 0 ⟨⟨1, .SET, 1, 5, 0, 5⟩, some ⟨0, 0⟩⟩ (.ok none),
    .queued 0 ⟨⟨1, .SET, 1, 5, 0, 5⟩, some ⟨0, 0⟩⟩,
    .effect 0 ⟨⟨1, .GET, 1, 0, 0, 5⟩, some ⟨1, 0⟩⟩ (.ok (some 5))]

/-- The commands take effect in their order, and the value read is the one stored. -/
theorem program_order_inOrder :
    (∃ t, run (recorded (step 2) events) (init zeroed, []) inOrder = some (t, ordered)) ∧
      Guarded (step 2) Apart (init zeroed) inOrder ∧
      Precedes (fun event => event.executes = some ⟨0, 0⟩)
        (fun event => event.executes = some ⟨1, 0⟩) ordered ∧
      (.ok (some 5) : Reply) = answer (stored 1 (ordered.take 4)) := by
  have success : ∃ t, run (recorded (step 2) events) (init zeroed, []) inOrder =
      some (t, ordered) := ⟨_, rfl⟩
  obtain ⟨t, reached⟩ := success
  have apart : Guarded (step 2) Apart (init zeroed) inOrder := guarded_apart_of_serial (by decide +kernel)
  obtain ⟨order, answers⟩ := program_order 2 zeroed reached
  have law := order [] [] _ 0 0 _ _ ⟨0, 0⟩ ⟨1, 0⟩ rfl rfl rfl (.inl rfl)
  exact ⟨⟨t, reached⟩, apart, law.1, answers apart (ordered.take 4) _ _ _ [] 1 rfl rfl⟩

/-- Worker 1 gets the second command and is faster. -/
def overtaking : List Action :=
  setThenGet 1 ++ [.receive 1, .down 1, .call 1, .up 1, .reply 1, .receive 0, .down 0, .call 0]

/-- The history of `overtaking`: the `get` finds no key. -/
def overtaken : List Event :=
  [.read 0 ⟨⟨2, .SET, 1, 5, 0, 5⟩, some ⟨0, 0⟩⟩, .read 1 ⟨⟨3, .GET, 1, 0, 0, 5⟩, some ⟨1, 0⟩⟩,
    .effect 1 ⟨⟨1, .GET, 1, 0, 0, 5⟩, some ⟨1, 0⟩⟩ (.error noKey),
    .queued 1 ⟨⟨1, .GET, 1, 0, 1, 5⟩, some ⟨1, 0⟩⟩,
    .effect 0 ⟨⟨1, .SET, 1, 5, 0, 5⟩, some ⟨0, 0⟩⟩ (.ok none)]

theorem program_order_fails :
    (∃ t, run (recorded (step 2) events) (init zeroed, []) overtaking = some (t, overtaken)) ∧
      ¬ Precedes (fun event => event.executes = some ⟨0, 0⟩)
        (fun event => event.executes = some ⟨1, 0⟩) overtaken := by
  refine ⟨⟨_, rfl⟩, fun law => ?_⟩
  obtain ⟨event, member, executed⟩ := law (overtaken.take 2) _ _ rfl rfl
  rcases List.mem_cons.mp member with rfl | member
  · cases executed
  · rw [List.mem_singleton.mp member] at executed
    cases executed

end SphereMultithreading.Soundness.P5
