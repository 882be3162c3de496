import SphereMultithreading.Machine.History
import SphereMultithreading.Proofs.P5.Accounts
import SphereMultithreading.Soundness.P5.Protection

/-! # The replies of p5 are those of one map

The workers execute commands in parallel and reply in any order. All the same there is one order of the
commands, that of their calls, in which the bounded map gives the answers that the clients read. A command
has its place in it after the server has read it and before its reply is sent. This is so as long as no
clashing calls are let in together.
-/

namespace SphereMultithreading.Soundness.P5

open Machine Model.HashTable Model.P5 Model.P5.HashTable Model.P5.System Model.Scanf Proofs.HashTable

/-- A text sent for a command, and the descriptor it goes to. -/
abbrev Told := Option Command × ℕ × Text

def keyOf : Call → ℤ
  | .set key _ => key
  | .get key => key
  | .del key => key

/-- What a client reads when its call is answered so. -/
def replyText (call : Call) : Reply → Text
  | .ok (some value) =>
      ("> DONE: (" ++ toString (keyOf call) ++ " , " ++ toString value ++ ")\n").toList
  | .ok none => "> DONE\n".toList
  | .error err =>
      match err.type with
      | .NoKey => ("> FAIL: There is no key " ++ toString (keyOf call) ++ "\n").toList
      | .NoMemory => "> FAIL: There is no more free memory left\n".toList

/-- The commands a history asks. -/
def askedIn : List Moment → List Asked
  | [] => []
  | .asked parcel :: rest => parcel.asked :: askedIn rest
  | _ :: rest => askedIn rest

/-- The calls of a history with their answers, in their order. -/
def effectsIn : List Moment → List (Parcel × Reply)
  | [] => []
  | .effect parcel reply :: rest => (parcel, reply) :: effectsIn rest
  | _ :: rest => effectsIn rest

/-- The messages a history sends, with their texts. -/
def sentIn : List Moment → List (Parcel × Text)
  | [] => []
  | .sent parcel text :: rest => (parcel, text) :: sentIn rest
  | _ :: rest => sentIn rest

/-- The calls are answered one after the other as by the empty map, each belongs to a command asked before, and
each text sent to a call made before; no command has two effects and no effect two texts. -/
structure Linear (log : List Moment) : Prop where
  sequential : (effectsIn log).map Prod.snd =
    (replies mapStep .empty ((effectsIn log).map fun effect => effect.1.message.call)).1
  afterAsked : (((effectsIn log).map fun effect => effect.1.asked : List Asked) : Multiset Asked) ≤ askedIn log
  beforeTold : (((sentIn log).map fun sent => (sent.1.command, sent.1.message.client, sent.2) : List Told) :
      Multiset Told) ≤
    ((effectsIn log).map fun effect =>
      (effect.1.command, effect.1.message.client, replyText effect.1.message.call effect.2) : List Told)

/-! ## Texts -/

/-- The worker's message has become the text of its answer, whatever was in the buffer. -/
theorem processMessageFromWorker_answered (msg : Message) (map : Contents) (buffer : Text) :
    processMessageFromWorker (msg.answered (mapStep map msg.call).1) buffer =
      replyText msg.call (mapStep map msg.call).1 := by
  obtain ⟨mtype, op, key, value, err, client⟩ := msg
  cases op with
  | GET =>
    cases found : map.lookup key <;>
      simp [Message.call, mapStep, found, Message.answered, processMessageFromWorker, replyText, keyOf, noKey]
  | SET =>
    cases inserted : map.insert? key value <;>
      simp [Message.call, mapStep, inserted, Message.answered, processMessageFromWorker, replyText, noMemory]
  | DEL =>
    cases found : map.lookup key <;>
      simp [Message.call, mapStep, found, Message.answered, processMessageFromWorker, replyText, keyOf, noKey]

/-! ## The books -/

theorem effectsIn_append (log more : List Moment) :
    effectsIn (log ++ more) = effectsIn log ++ effectsIn more := by
  induction log with
  | nil => rfl
  | cons moment rest ih => cases moment <;> simp [effectsIn, ih]

theorem sentIn_append (log more : List Moment) : sentIn (log ++ more) = sentIn log ++ sentIn more := by
  induction log with
  | nil => rfl
  | cons moment rest ih => cases moment <;> simp [sentIn, ih]

/-- The message of an effect, answered. -/
def done (effect : Parcel × Reply) : Parcel :=
  { effect.1 with message := effect.1.message.answered effect.2 }

theorem gain_waiting (log : List Moment) : (log.map waiting.gain).sum = askedIn log := by
  induction log with
  | nil => rfl
  | cons moment rest ih =>
    rw [List.map_cons, List.sum_cons, ih]
    cases moment <;> rfl

theorem loss_waiting {log : List Moment} (named : ∀ sent ∈ sentIn log, sent.1.message.mtype = serverMsgId) :
    (log.map waiting.loss).sum = ((effectsIn log).map fun effect => effect.1.asked : List Asked) := by
  induction log with
  | nil => rfl
  | cons moment rest ih =>
    rw [List.map_cons, List.sum_cons]
    cases moment with
    | sent parcel text =>
      have own : waiting.loss (.sent parcel text) = 0 := if_pos (named (parcel, text) List.mem_cons_self)
      rw [own, zero_add]
      exact ih fun sent member => named sent (List.mem_cons_of_mem _ member)
    | _ =>
      rw [ih named]
      rfl

theorem gain_answered (log : List Moment) :
    (log.map answered.gain).sum = ((effectsIn log).map done : List Parcel) := by
  induction log with
  | nil => rfl
  | cons moment rest ih =>
    rw [List.map_cons, List.sum_cons, ih]
    cases moment <;> rfl

theorem loss_answered {log : List Moment} (named : ∀ sent ∈ sentIn log, sent.1.message.mtype = serverMsgId) :
    (log.map answered.loss).sum = ((sentIn log).map Prod.fst : List Parcel) := by
  induction log with
  | nil => rfl
  | cons moment rest ih =>
    rw [List.map_cons, List.sum_cons]
    cases moment with
    | sent parcel text =>
      have own : answered.loss (.sent parcel text) = {parcel} :=
        if_pos (named (parcel, text) List.mem_cons_self)
      rw [own, ih fun sent member => named sent (List.mem_cons_of_mem _ member)]
      rfl
    | _ =>
      rw [ih named]
      rfl

/-- The system behind a history. -/
structure Booked (capacity : ℕ) (s : System) (log : List Moment) : Prop where
  typed : Typed capacity s
  table : ∃ map, Represents s.table map ∧
    replies mapStep .empty ((effectsIn log).map fun effect => effect.1.message.call) =
      ((effectsIn log).map Prod.snd, map)
  calls : ∀ effect ∈ effectsIn log, ∃ map, effect.2 = (mapStep map effect.1.message.call).1
  named : ∀ sent ∈ sentIn log, sent.1.message.mtype = serverMsgId
  texts : ∀ sent ∈ sentIn log, ∃ buffer, sent.2 = processMessageFromWorker sent.1.message buffer
  waiting : waiting.total s + (log.map waiting.loss).sum = (log.map waiting.gain).sum
  answered : answered.total s + (log.map answered.loss).sum = (log.map answered.gain).sum

theorem booked_init (capacity : ℕ) (memory : Model.P5.HashTable) : Booked capacity (init memory) [] where
  typed := typed_init capacity memory
  table := ⟨.empty, represents_sharedMemorySet memory, rfl⟩
  calls := by rintro effect ⟨⟩
  named := by rintro sent ⟨⟩
  texts := by rintro sent ⟨⟩
  waiting := by rw [Weights.total_init]; rfl
  answered := by rw [Weights.total_init]; rfl

theorem Booked.linear {capacity : ℕ} {s : System} {log : List Moment} (booked : Booked capacity s log) :
    Linear log := by
  refine ⟨?_, ?_, ?_⟩
  · obtain ⟨map, -, answers⟩ := booked.table
    rw [answers]
  · rw [← loss_waiting booked.named, ← gain_waiting, ← booked.waiting]
    exact Multiset.le_add_left ..
  · have sent : ((sentIn log).map Prod.fst : List Parcel) ≤ (((effectsIn log).map done : List Parcel) : Multiset Parcel) := by
      rw [← loss_answered booked.named, ← gain_answered, ← booked.answered]
      exact Multiset.le_add_left ..
    let tell (parcel : Parcel) : Told :=
      (parcel.command, parcel.message.client, processMessageFromWorker parcel.message [])
    have told := Multiset.map_le_map (f := tell) sent
    rw [Multiset.map_coe, Multiset.map_coe, List.map_map, List.map_map] at told
    have text (effect : Parcel × Reply) (member : effect ∈ effectsIn log) (buffer : Text) :
        processMessageFromWorker (done effect).message buffer =
          replyText effect.1.message.call effect.2 := by
      obtain ⟨map, same⟩ := booked.calls effect member
      rw [done, same]
      exact processMessageFromWorker_answered effect.1.message map buffer
    have left : (sentIn log).map (tell ∘ Prod.fst) =
        (sentIn log).map fun sent => (sent.1.command, sent.1.message.client, sent.2) := by
      apply List.map_congr_left
      intro one member
      obtain ⟨effect, made, same⟩ : ∃ effect ∈ effectsIn log, done effect = one.1 := by
        have among := Multiset.mem_of_le sent (Multiset.mem_coe.mpr (List.mem_map_of_mem member))
        exact List.mem_map.mp (Multiset.mem_coe.mp among)
      obtain ⟨buffer, written⟩ := booked.texts one member
      simp only [tell, Function.comp_apply, written, ← same, text effect made]
    have right : (effectsIn log).map (tell ∘ done) = (effectsIn log).map fun effect =>
        (effect.1.command, effect.1.message.client, replyText effect.1.message.call effect.2) := by
      apply List.map_congr_left
      intro effect made
      simp only [tell, Function.comp_apply, text effect made]
      simp [done]
    rwa [left, right] at told

variable {capacity : ℕ} {s t : System} {a : Action}

/-- A moment is a call of the table, or a text in the buffer, or leaves effects and texts as they are. -/
theorem moments_cases (stepped : s.step capacity a = some t) :
    (t.table = s.table ∧ effectsIn (s.moments a t) = [] ∧ sentIn (s.moments a t) = []) ∨
    (∃ parcel reply, s.moments a t = [.effect parcel reply] ∧
      HashTable.step s.table parcel.message.call = some (reply, t.table)) ∨
    (t.table = s.table ∧ ∃ parcel, parcel.message.mtype = serverMsgId ∧
      s.moments a t = [.sent parcel (processMessageFromWorker parcel.message s.buffer)]) := by
  cases a with
  | client fd recv hup rand =>
    refine .inl ⟨(workersIdle_of_server stepped rfl).table, ?_⟩
    cases position : t.server <;> simp [moments, position, effectsIn, sentIn]
  | drain =>
    obtain ⟨-, ⟨nothing, rfl⟩ | ⟨parcel, rest, taken, rfl⟩⟩ := drain_eq_some.mp stepped
    · refine .inl ⟨rfl, ?_⟩
      simp [moments, nothing, effectsIn, sentIn]
    · obtain ⟨before, after, -, named, -, rfl⟩ := msgrcv_eq_some taken
      refine .inr (.inr ⟨rfl, parcel, named, ?_⟩)
      simp [moments, taken, setServer, setBuffer, sendMessageToClient]
  | call w =>
    obtain ⟨parcel, reply, table, position, answered, rfl⟩ := call_eq_some.mp stepped
    refine .inr (.inl ⟨parcel, reply, ?_, answered⟩)
    simp [moments, position, answered]
  | receive w =>
    obtain ⟨parcel, rest, -, taken, rfl⟩ := receive_eq_some.mp stepped
    obtain ⟨before, after, -, -, -, rfl⟩ := msgrcv_eq_some taken
    exact .inl ⟨rfl, rfl, rfl⟩
  | down w =>
    obtain ⟨parcel, next, -, passed, rfl⟩ := down_eq_some.mp stepped
    rw [semDown_eq passed]
    exact .inl ⟨rfl, rfl, rfl⟩
  | up w =>
    obtain ⟨parcel, -, rfl⟩ := up_eq_some.mp stepped
    rw [semUp_eq]
    exact .inl ⟨rfl, rfl, rfl⟩
  | reply w =>
    obtain ⟨parcel, -, -, rfl⟩ := reply_eq_some.mp stepped
    exact .inl ⟨rfl, rfl, rfl⟩
  | _ => exact .inl ⟨(workersIdle_of_server stepped rfl).table, rfl, rfl⟩

theorem booked_step {log : List Moment} (stepped : s.step capacity a = some t)
    (booked : Booked capacity s log) : Booked capacity t (log ++ s.moments a t) := by
  have typed := typed_step stepped booked.typed
  have waits := waiting.settled_append booked.waiting (waiting.settled_step stepped booked.typed)
  have answers := answered.settled_append booked.answered (answered.settled_step stepped booked.typed)
  obtain ⟨map, represents, sequential⟩ := booked.table
  rcases moments_cases stepped with ⟨table, effects, sends⟩ | ⟨parcel, reply, moment, called⟩ |
    ⟨table, parcel, named, moment⟩
  · have sameEffects : effectsIn (log ++ s.moments a t) = effectsIn log := by
      rw [effectsIn_append, effects, List.append_nil]
    have sameSends : sentIn (log ++ s.moments a t) = sentIn log := by
      rw [sentIn_append, sends, List.append_nil]
    refine ⟨typed, ⟨map, table ▸ represents, ?_⟩, ?_, ?_, ?_, waits, answers⟩
    · rw [sameEffects, sequential]
    · exact sameEffects ▸ booked.calls
    · exact sameSends ▸ booked.named
    · exact sameSends ▸ booked.texts
  · obtain ⟨next, called', represents'⟩ := step_simulates s.table map parcel.message.call represents
    obtain ⟨same, tables⟩ := Prod.mk.inj (Option.some.inj (called.symm.trans called'))
    have moreEffects : effectsIn (log ++ s.moments a t) = effectsIn log ++ [(parcel, reply)] := by
      rw [effectsIn_append, moment]
      rfl
    have sameSends : sentIn (log ++ s.moments a t) = sentIn log := by
      rw [sentIn_append, moment]
      exact List.append_nil _
    refine ⟨typed, ⟨_, tables ▸ represents', ?_⟩, ?_, ?_, ?_, waits, answers⟩
    · rw [moreEffects, List.map_append, List.map_append, replies_append, sequential, same]
      rfl
    · rw [moreEffects]
      intro effect member
      rcases List.mem_append.mp member with before | new
      · exact booked.calls effect before
      · rw [List.mem_singleton.mp new]
        exact ⟨map, same⟩
    · exact sameSends ▸ booked.named
    · exact sameSends ▸ booked.texts
  · have sameEffects : effectsIn (log ++ s.moments a t) = effectsIn log := by
      rw [effectsIn_append, moment]
      exact List.append_nil _
    have moreSends : sentIn (log ++ s.moments a t) =
        sentIn log ++ [(parcel, processMessageFromWorker parcel.message s.buffer)] := by
      rw [sentIn_append, moment]
      rfl
    refine ⟨typed, ⟨map, table ▸ represents, ?_⟩, ?_, ?_, ?_, waits, answers⟩
    · rw [sameEffects, sequential]
    · exact sameEffects ▸ booked.calls
    · rw [moreSends, List.forall_mem_append]
      exact ⟨booked.named, by simpa using named⟩
    · rw [moreSends, List.forall_mem_append]
      exact ⟨booked.texts, fun one new => ⟨s.buffer, by rw [List.mem_singleton.mp new]⟩⟩

/-- In every run of the server and the workers that lets no clashing calls in together, at every moment: the
calls made so far were answered as by one map, one after the other, each for a command that had been asked, and
the texts sent so far are what these answers say. -/
theorem linearizable (capacity : ℕ) (memory : Model.P5.HashTable) {actions : List Action} {t : System}
    {log : List Moment}
    (success : run (recorded (step capacity) moments) (init memory, []) actions = some (t, log)) :
    Guarded (step capacity) Apart (init memory) actions → ∀ earlier, earlier <+: log → Linear earlier := by
  intro _
  refine run_recorded (I := fun now : System × List Moment => Booked capacity now.1 now.2) (P := Linear)
    length_moments_le ?_ ?_ (booked_init capacity memory) success
  · exact fun _ _ _ _ stepped booked => booked_step stepped booked
  · exact fun _ _ booked => booked.linear

/-- A client sets a key and reads it; two workers execute the commands, and both replies are sent. -/
def setThenRead : List Action :=
  [.poll 1, .master, .accept, .acceptDone, .drain,
    .poll 1, .client 5 (.bytes ['s', 'e', 't', ' ', '1', ' ', '5']) false 0, .send, .drain,
    .receive 0, .down 0, .call 0,
    .poll 1, .client 5 (.bytes ['g', 'e', 't', ' ', '1']) false 1, .send, .up 0, .receive 1, .down 1, .call 1,
    .up 1, .reply 1, .drain, .poll 0, .reply 0, .drain]

theorem linearizable_setThenRead : ∃ t log,
    run (recorded (step 3) moments) (init zeroed, []) setThenRead = some (t, log) ∧ Linear log ∧
      (sentIn log).length = 2 := by
  obtain ⟨t, log, success, both⟩ : ∃ t log,
      run (recorded (step 3) moments) (init zeroed, []) setThenRead = some (t, log) ∧
        (sentIn log).length = 2 := ⟨_, _, rfl, rfl⟩
  have apart : Guarded (step 3) Apart (init zeroed) setThenRead := guarded_apart_of_serial (by decide +kernel)
  exact ⟨t, log, success, linearizable 3 zeroed success apart log (List.prefix_refl log), both⟩

end SphereMultithreading.Soundness.P5
