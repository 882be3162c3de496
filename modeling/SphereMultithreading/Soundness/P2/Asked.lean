import SphereMultithreading.Proofs.P2.Server
import SphereMultithreading.Soundness.P2.Broadcasts

/-! # What the chat server asks of its messages

A message is looked at when the loop of `recv_message` ends. What was appended to it since it was
cleared is not empty; but an event may end without a byte, when an earlier one has read what it
announces.
-/

namespace SphereMultithreading.Soundness.P2

open Machine Model.P2 Model.P2.System

/-- A message that waits for more: all of its blocks have bytes, and no newline ends it. -/
structure Waiting (msg : Message) : Prop where
  filled : [] ∉ msg.blocks
  unended : msg.text.getLast? ≠ some '\n'

theorem waiting_empty : Waiting .empty := ⟨List.not_mem_nil, by simp⟩

theorem isComplete_eq_none_iff {msg : Message} :
    msg.isComplete = none ↔ ∀ block ∈ msg.blocks.getLast?, block = [] := by
  rw [Message.isComplete, Option.map_eq_none_iff, Option.bind_eq_none_iff]
  simp

theorem Waiting.isComplete_eq_none_iff {msg : Message} (waiting : Waiting msg) :
    msg.isComplete = none ↔ msg.blocks = [] := by
  rw [P2.isComplete_eq_none_iff]
  constructor
  · intro last
    by_contra nonempty
    have member := List.getLast_mem nonempty
    rw [last _ (List.getLast?_eq_some_getLast nonempty)] at member
    exact waiting.filled member
  · intro none block last
    rw [none] at last
    cases last

variable {s t : System} {a : Action}

/-- One message is cleared. -/
theorem waiting_update {messages : ℕ → Message} {fd : ℕ}
    (others : ∀ other, other ≠ fd → Waiting (messages other)) (other : ℕ) :
    Waiting (Function.update messages fd .empty other) := by
  by_cases same : other = fd
  · rw [same, Function.update_self]
    exact waiting_empty
  · rw [Function.update_of_ne same]
    exact others other same

/-- No message is left with a newline at its end. -/
theorem waiting_finish {fd : ℕ} (hup : Bool) (batch : List Event)
    (filled : ∀ other, [] ∉ (s.messages other).blocks)
    (others : ∀ other, other ≠ fd → Waiting (s.messages other)) :
    ∀ other, Waiting ((s.finish fd hup batch).messages other) := by
  have closed (u : System) (kept : ∀ other, Waiting (u.messages other)) (other : ℕ) :
      Waiting ((if hup then u.disconnectClient fd else u).messages other) := by
    split
    · exact waiting_update (fun other _ => kept other) other
    · exact kept other
  have whole : (s.messages fd).isComplete ≠ some true → ∀ other, Waiting (s.messages other) := by
    intro incomplete other
    by_cases same : other = fd
    · subst same
      refine ⟨filled other, fun newline => incomplete ?_⟩
      rw [Message.isComplete_of_filled (filled other), newline]
      rfl
    · exact others other same
  unfold finish
  split
  · next undefined => exact whole (by simp [undefined])
  · next complete asked =>
    cases complete with
    | false => exact closed s (whole (by simp [asked]))
    | true =>
      apply closed
      exact waiting_update others

/-- The bytes of a chunk. -/
theorem chunk_ne_nil {socket : Socket} {n : ℕ} (possible : (Recv.bytes n).possible socket) :
    socket.input.pending.take n ≠ [] := by
  obtain ⟨some, -, enough⟩ := possible
  intro none
  have short := congrArg List.length none
  rw [List.length_take_of_le enough] at short
  exact some.ne' short

theorem waiting_step (stepped : s.step a = some t) (waiting : ∀ fd, Waiting (s.messages fd)) :
    ∀ fd, Waiting (t.messages fd) := by
  cases a with
  | connect =>
    cases stepped
    exact waiting
  | arrive connection text =>
    obtain ⟨-, rfl⟩ := arrive_eq_some.mp stepped
    exact waiting
  | shut connection =>
    obtain ⟨-, rfl⟩ := shut_eq_some.mp stepped
    exact waiting
  | epollWait batch =>
    obtain ⟨-, -, rfl⟩ := epollWait_eq_some.mp stepped
    change ∀ fd, Waiting ((batch.foldl deliver s).messages fd)
    rw [(same_delivers s batch).messages]
    exact waiting
  | processMasterEvent =>
    obtain ⟨batch, -, rfl⟩ := processMasterEvent_eq_some.mp stepped
    exact waiting
  | processClientEvent =>
    obtain ⟨fd, hup, batch, -, rfl⟩ := processClientEvent_eq_some.mp stepped
    exact waiting
  | accept =>
    obtain ⟨batch, -, ⟨-, rfl⟩ | ⟨connection, rest, pending, rfl⟩⟩ := accept_eq_some.mp stepped
    · exact waiting
    · exact waiting_update fun fd _ => waiting fd
  | recv outcome =>
    obtain ⟨fd, hup, batch, connection, -, -, possible, rfl⟩ := recv_eq_some.mp stepped
    cases outcome with
    | bytes n =>
      have more := chunk_ne_nil possible
      have own := messages_receive_self s fd connection n
      have others (other : ℕ) (differ : other ≠ fd) :
          (s.receive fd connection n).messages other = s.messages other :=
        messages_receive_of_ne differ connection n
      have filled (other : ℕ) : [] ∉ ((s.receive fd connection n).messages other).blocks := by
        by_cases same : other = fd
        · rw [same, own, Message.append, List.mem_append, not_or]
          exact ⟨(waiting fd).filled, by simpa using more⟩
        · rw [others other same]
          exact (waiting other).filled
      rw [turn]
      split
      · exact waiting_finish hup batch filled fun other differ => others other differ ▸ waiting other
      · next goesOn =>
        intro other
        refine ⟨filled other, ?_⟩
        by_cases same : other = fd
        · rw [same, own, Message.text_append, List.getLast?_append_of_ne_nil _ more]
          exact (not_or.mp goesOn).1
        · rw [others other same]
          exact (waiting other).unended
    | closed => exact waiting_update fun other _ => waiting other
    | again =>
      exact waiting_finish hup batch (fun other => (waiting other).filled) fun other _ => waiting other
    | failed => exact waiting

/-- An event does not end without a byte in the message of its client. -/
def Asks (s : System) : Action → Prop
  | .recv .again => ∀ fd hup batch, s.server = .receiving fd hup batch → (s.messages fd).blocks ≠ []
  | _ => True

/-- `is_complete` has not been asked of a message without a last byte. -/
def Defined (s : System) : Prop := s.server ≠ .undefined

theorem defined_finish_iff {fd : ℕ} {hup : Bool} {batch : List Event} :
    Defined (s.finish fd hup batch) ↔ (s.messages fd).isComplete ≠ none := by
  unfold finish Defined
  split
  · next undefined => simp [undefined, setServer]
  · next complete asked => simp [asked, setServer]

theorem defined_step_iff (stepped : s.step a = some t) (waiting : ∀ fd, Waiting (s.messages fd))
    (defined : Defined s) : Defined t ↔ Asks s a := by
  cases a with
  | connect =>
    cases stepped
    exact iff_of_true defined trivial
  | arrive connection text =>
    obtain ⟨-, rfl⟩ := arrive_eq_some.mp stepped
    exact iff_of_true defined trivial
  | shut connection =>
    obtain ⟨-, rfl⟩ := shut_eq_some.mp stepped
    exact iff_of_true defined trivial
  | epollWait batch =>
    obtain ⟨-, -, rfl⟩ := epollWait_eq_some.mp stepped
    exact iff_of_true (by simp [Defined, setServer]) trivial
  | processMasterEvent =>
    obtain ⟨batch, -, rfl⟩ := processMasterEvent_eq_some.mp stepped
    exact iff_of_true (by simp [Defined, setServer]) trivial
  | processClientEvent =>
    obtain ⟨fd, hup, batch, -, rfl⟩ := processClientEvent_eq_some.mp stepped
    exact iff_of_true (by simp [Defined, setServer]) trivial
  | accept =>
    obtain ⟨batch, -, ⟨-, rfl⟩ | ⟨connection, rest, pending, rfl⟩⟩ := accept_eq_some.mp stepped
    · exact iff_of_true (by simp [Defined, setServer]) trivial
    · refine iff_of_true ?_ trivial
      unfold Defined loop setServer
      split <;> simp
  | recv outcome =>
    obtain ⟨fd, hup, batch, connection, position, -, possible, rfl⟩ := recv_eq_some.mp stepped
    cases outcome with
    | bytes n =>
      refine iff_of_true ?_ trivial
      have more := chunk_ne_nil possible
      rw [turn]
      split
      · rw [defined_finish_iff, messages_receive_self, Message.isComplete_append, ne_eq, Option.map_eq_none_iff,
          List.getLast?_eq_none_iff]
        exact more
      · change s.server ≠ .undefined
        exact defined
    | closed => exact iff_of_true (by simp [Defined, turn, setServer]) trivial
    | again =>
      rw [turn, defined_finish_iff, ne_eq, (waiting fd).isComplete_eq_none_iff]
      exact (forall_receiving_iff (P := fun fd => (s.messages fd).blocks ≠ []) position).symm
    | failed => exact iff_of_true defined trivial

/-- In every run, `is_complete` is only asked of messages with a last byte exactly when no event ends
for want of bytes while the message of its client has none. -/
theorem defined_iff {actions : List Action} {t : System}
    (success : run step init actions = some t) :
    Throughout step Defined init actions ↔ Guarded step Asks init actions := by
  apply throughout_iff_guarded (I := fun s => (∀ fd, Waiting (s.messages fd)) ∧ Defined s) _ _ _
    success
  · exact ⟨fun fd => waiting_empty, by rintro ⟨⟩⟩
  · exact fun _ both => both.2
  · rintro s a t stepped ⟨waiting, defined⟩ asks
    exact ⟨waiting_step stepped waiting, (defined_step_iff stepped waiting defined).mpr asks⟩
  · rintro s a t stepped ⟨waiting, defined⟩ defined'
    exact (defined_step_iff stepped waiting defined).mp defined'

/-- A line comes in two parts, the second one after its event was announced: the event of the second part
finds nothing. -/
def twoParts : List Action :=
  [.connect, .epollWait [.master], .processMasterEvent, .accept, .accept,
    .arrive 0 ['h'], .epollWait [.client 5 false], .arrive 0 ['i', '\n'], .processClientEvent,
    .recv (.bytes 3), .epollWait [.client 5 false], .processClientEvent, .recv .again]

theorem defined_iff_twoParts : ∃ t, run step init twoParts = some t ∧
    (Throughout step Defined init twoParts ↔ Guarded step Asks init twoParts) := by
  have success : run step init twoParts = some _ := rfl
  exact ⟨_, success, defined_iff success⟩

/-- `is_complete` is asked of the message that was cleared. -/
theorem defined_fails : ∃ t, run step init twoParts = some t ∧ t.server = .undefined :=
  ⟨_, rfl, rfl⟩

end SphereMultithreading.Soundness.P2
