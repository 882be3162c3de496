import SphereMultithreading.Soundness.P2.Asked

/-! # When the chat server broadcasts a line

Whether a message is complete is seen from the last byte of the last chunk. A line that is followed by
the beginning of another one in the same chunk is held back with it.
-/

namespace SphereMultithreading.Soundness.P2

open Machine Model.P2 Model.P2.System

/-- Of what was received on a connection, only a part without a newline was not broadcast. -/
def Delivered (s : System) (connection : ℕ) : Prop :=
  ∃ tail, s.received connection = pieces s connection ++ tail ∧ '\n' ∉ tail

/-- No event of the connection is being handled. -/
def Free (s : System) (connection : ℕ) : Prop :=
  ∀ fd hup batch, s.server = .receiving fd hup batch → s.connection fd ≠ some connection

/-- Between its events, everything up to the last newline was broadcast for a connection, the closed ones
included; and what is held for it contains no newline. -/
structure Flushed (s : System) : Prop where
  sent : ∀ connection, Free s connection → Delivered s connection
  held : ∀ fd connection, s.connection fd = some connection → Free s connection →
    '\n' ∉ (s.messages fd).text

/-- An event that ends with a chunk without a newline at its end leaves no newline behind: not in what
was held before, and not in this chunk. -/
def EndsClean (s : System) : Action → Prop
  | .recv (.bytes n) => ∀ fd hup batch connection, s.server = .receiving fd hup batch →
      s.connection fd = some connection →
      let chunk := (s.sockets connection).input.pending.take n
      chunk.getLast? ≠ some '\n' → s.errno = .EAGAIN → '\n' ∉ (s.messages fd).text ++ chunk
  | .recv .failed => True
  | .recv _ => ∀ fd hup batch, s.server = .receiving fd hup batch → '\n' ∉ (s.messages fd).text
  | _ => True

variable {s t u : System} {a : Action} {fd connection : ℕ}

/-- What a connection's descriptor holds is what was not broadcast. -/
theorem delivered_iff (matched : Matched s) (found : s.connection fd = some connection) :
    Delivered s connection ↔ '\n' ∉ (s.messages fd).text := by
  have whole := matched.relayed.held fd connection found
  constructor
  · rintro ⟨tail, received, clean⟩
    rwa [List.append_cancel_left (whole.trans received)]
  · exact fun clean => ⟨_, whole.symm, clean⟩

theorem delivered_congr (received : t.received connection = s.received connection)
    (broadcasts : pieces t connection = pieces s connection) :
    Delivered t connection ↔ Delivered s connection := by
  rw [Delivered, Delivered, received, broadcasts]

/-! ## The end of an event -/

theorem pieces_broadcast (found : u.connection fd = some connection) (other : ℕ) :
    pieces (u.broadcast fd) other =
      pieces u other ++ if other = connection then (u.messages fd).text else [] := by
  by_cases same : other = connection
  · simp [pieces, System.broadcast, List.filter_append, found, same]
  · simp [pieces, System.broadcast, List.filter_append, found, same, Ne.symm same]

/-- A complete message is broadcast, and nothing else. -/
theorem finish_broadcasts (u : System) (fd : ℕ) (hup : Bool) (batch : List Event) :
    (u.finish fd hup batch).received = u.received ∧
      (u.finish fd hup batch).broadcasts =
        if (u.messages fd).isComplete = some true then (u.broadcast fd).broadcasts
        else u.broadcasts := by
  unfold finish
  split
  · next undefined =>
    rw [undefined]
    exact ⟨rfl, rfl⟩
  · next complete asked =>
    rw [asked]
    cases complete <;> cases hup <;> exact ⟨rfl, rfl⟩

theorem delivered_finish_of_ne {hup : Bool} {batch : List Event}
    (found : u.connection fd = some connection) {other : ℕ} (differ : other ≠ connection) :
    Delivered (u.finish fd hup batch) other ↔ Delivered u other := by
  obtain ⟨received, broadcasts⟩ := finish_broadcasts u fd hup batch
  apply delivered_congr (congrFun received other)
  rw [pieces, broadcasts]
  split
  · have more := pieces_broadcast found other
    rw [if_neg differ, List.append_nil] at more
    exact more
  · rfl

theorem delivered_finish_iff (matched : Matched u) {hup : Bool} {batch : List Event}
    (found : u.connection fd = some connection) :
    Delivered (u.finish fd hup batch) connection ↔
      (u.messages fd).isComplete = some true ∨ '\n' ∉ (u.messages fd).text := by
  obtain ⟨received, broadcasts⟩ := finish_broadcasts u fd hup batch
  by_cases complete : (u.messages fd).isComplete = some true
  · refine iff_of_true ⟨[], ?_, List.not_mem_nil⟩ (.inl complete)
    have more := pieces_broadcast found connection
    rw [if_pos rfl, matched.relayed.held fd connection found] at more
    rw [received, List.append_nil, pieces, broadcasts, if_pos complete]
    exact more.symm
  · rw [or_iff_right complete, ← delivered_iff matched found]
    apply delivered_congr (congrFun received connection)
    rw [pieces, broadcasts, if_neg complete]
    rfl

/-- Only the connection of the event is in question when an event ends. -/
theorem sent_iff_of_recv {hup : Bool} {batch : List Event}
    (sent : ∀ other, Free s other → Delivered s other) (position : s.server = .receiving fd hup batch)
    (found : s.connection fd = some connection)
    (ends : ∀ fd hup batch, t.server ≠ .receiving fd hup batch)
    (others : ∀ other, other ≠ connection → (Delivered t other ↔ Delivered s other)) :
    (∀ other, Free t other → Delivered t other) ↔ Delivered t connection := by
  constructor
  · exact fun all => all connection fun fd hup batch position => absurd position (ends fd hup batch)
  · intro own other _
    by_cases same : other = connection
    · exact same ▸ own
    · refine (others other same).mpr (sent other fun fd' hup' batch' position' found' => same ?_)
      cases position.symm.trans position'
      exact Option.some.inj (found'.symm.trans found)

theorem server_finish (u : System) (fd : ℕ) (hup : Bool) (batch : List Event) (fd' : ℕ) (hup' : Bool)
    (batch' : List Event) : (u.finish fd hup batch).server ≠ .receiving fd' hup' batch' := by
  unfold finish
  split <;> simp [setServer]

/-! ## A call of `recv` -/

section Recv

variable {hup : Bool} {batch : List Event}

theorem delivered_receive_iff (s : System) (fd n : ℕ) {other : ℕ} (differ : other ≠ connection) :
    Delivered (s.receive fd connection n) other ↔ Delivered s other :=
  delivered_congr (Function.update_of_ne differ _ _) rfl

/-- With a chunk the event may go on. -/
theorem sent_bytes_iff (matched : Matched s) (sent : ∀ other, Free s other → Delivered s other)
    (position : s.server = .receiving fd hup batch) (found : s.connection fd = some connection) (n : ℕ) :
    (∀ other, Free (s.turn fd connection hup batch (.bytes n)) other →
      Delivered (s.turn fd connection hup batch (.bytes n)) other) ↔ EndsClean s (.recv (.bytes n)) := by
  rw [turn]
  split
  · next ends =>
    refine (sent_iff_of_recv sent position found (server_finish _ fd hup batch) ?_).trans ?_
    · intro other differ
      have kept := delivered_receive_iff s fd n differ
      exact (delivered_finish_of_ne (u := s.receive fd connection n) found differ).trans kept
    rw [delivered_finish_iff (matched_receive matched n found) found, messages_receive_self,
      Message.isComplete_append, Message.text_append]
    constructor
    · rintro clean fd' hup' batch' connection' position' found' chunk unended -
      cases position.symm.trans position'
      cases found.symm.trans found'
      refine clean.resolve_left fun complete => ?_
      obtain ⟨last, latest, newline⟩ := Option.map_eq_some_iff.mp complete
      exact unended (latest.trans (congrArg some (of_decide_eq_true newline)))
    · intro clean
      by_cases newline : ((s.sockets connection).input.pending.take n).getLast? = some '\n'
      · exact .inl (by simp [newline])
      · exact .inr (clean fd hup batch connection position found newline
          (ends.resolve_left newline))
  · next goesOn =>
    refine iff_of_true (fun other free => ?_) ?_
    · have differ : other ≠ connection := by
        rintro rfl
        exact free fd hup batch position found
      apply (delivered_receive_iff s fd n differ).mpr
      exact sent other free
    · intro fd' hup' batch' connection' position' found' chunk unended again
      exact absurd (.inr again) goesOn

/-- The stream has ended, and what is held is dropped. -/
theorem sent_closed_iff (matched : Matched s) (sent : ∀ other, Free s other → Delivered s other)
    (position : s.server = .receiving fd hup batch) (found : s.connection fd = some connection) :
    (∀ other, Free (s.turn fd connection hup batch .closed) other →
      Delivered (s.turn fd connection hup batch .closed) other) ↔ EndsClean s (.recv .closed) := by
  have ends (fd' : ℕ) (hup' : Bool) (batch' : List Event) :
      (s.turn fd connection hup batch .closed).server ≠ .receiving fd' hup' batch' := by
    rintro ⟨⟩
  refine (sent_iff_of_recv sent position found ends fun other _ => Iff.rfl).trans ?_
  change Delivered s connection ↔ _
  rw [delivered_iff matched found]
  exact (forall_receiving_iff (P := fun fd => '\n' ∉ (s.messages fd).text) position).symm

/-- Nothing is there, and what is held is looked at as it is. -/
theorem sent_again_iff (matched : Matched s) (waiting : Waiting (s.messages fd))
    (sent : ∀ other, Free s other → Delivered s other)
    (position : s.server = .receiving fd hup batch) (found : s.connection fd = some connection) :
    (∀ other, Free (s.turn fd connection hup batch .again) other →
      Delivered (s.turn fd connection hup batch .again) other) ↔ EndsClean s (.recv .again) := by
  have same : Matched { s with errno := .EAGAIN } :=
    matched.of_same ⟨rfl, rfl, rfl, rfl, rfl, rfl, rfl⟩
  have incomplete : (s.messages fd).isComplete ≠ some true :=
    fun complete => waiting.unended (Message.getLast?_of_isComplete complete)
  refine (sent_iff_of_recv sent position found (server_finish _ fd hup batch) ?_).trans ?_
  · exact fun other differ => delivered_finish_of_ne (u := { s with errno := .EAGAIN }) found differ
  rw [delivered_finish_iff same found]
  change (s.messages fd).isComplete = some true ∨ '\n' ∉ (s.messages fd).text ↔ _
  rw [or_iff_right incomplete]
  exact (forall_receiving_iff (P := fun fd => '\n' ∉ (s.messages fd).text) position).symm

end Recv

/-! ## Steps -/

theorem sent_step_iff (stepped : s.step a = some t) (matched : Matched s)
    (waiting : ∀ fd, Waiting (s.messages fd)) (sent : ∀ other, Free s other → Delivered s other) :
    (∀ other, Free t other → Delivered t other) ↔ EndsClean s a := by
  cases a with
  | connect =>
    cases stepped
    exact iff_of_true sent trivial
  | arrive connection text =>
    obtain ⟨-, rfl⟩ := arrive_eq_some.mp stepped
    exact iff_of_true sent trivial
  | shut connection =>
    obtain ⟨-, rfl⟩ := shut_eq_some.mp stepped
    exact iff_of_true sent trivial
  | epollWait batch =>
    obtain ⟨position, -, rfl⟩ := epollWait_eq_some.mp stepped
    obtain ⟨-, -, -, -, -, received, broadcasts⟩ := same_delivers s batch
    refine iff_of_true (fun other _ => ?_) trivial
    have before : Delivered s other := sent other fun fd hup batch receiving => by
      rw [position] at receiving
      cases receiving
    refine (delivered_congr (congrFun received other) ?_).mpr before
    rw [pieces, pieces, ← broadcasts]
  | processMasterEvent =>
    obtain ⟨batch, position, rfl⟩ := processMasterEvent_eq_some.mp stepped
    refine iff_of_true (fun other _ => sent other fun fd hup batch receiving => ?_) trivial
    rw [position] at receiving
    cases receiving
  | processClientEvent =>
    obtain ⟨fd, hup, batch, position, rfl⟩ := processClientEvent_eq_some.mp stepped
    refine iff_of_true (fun other _ => sent other fun fd hup batch receiving => ?_) trivial
    rw [position] at receiving
    cases receiving
  | accept =>
    obtain ⟨batch, position, ⟨-, rfl⟩ | ⟨connection, rest, pending, rfl⟩⟩ :=
      accept_eq_some.mp stepped
    all_goals
      refine iff_of_true (fun other _ => sent other fun fd hup batch receiving => ?_) trivial
      rw [position] at receiving
      cases receiving
  | recv outcome =>
    obtain ⟨fd, hup, batch, connection, position, found, possible, rfl⟩ := recv_eq_some.mp stepped
    cases outcome with
    | bytes n => exact sent_bytes_iff matched sent position found n
    | closed => exact sent_closed_iff matched sent position found
    | again => exact sent_again_iff matched (waiting fd) sent position found
    | failed => exact iff_of_true sent trivial

theorem flushed_iff_sent (matched : Matched s) :
    Flushed s ↔ ∀ connection, Free s connection → Delivered s connection := by
  refine ⟨Flushed.sent, fun sent => ⟨sent, fun fd connection found free => ?_⟩⟩
  exact (delivered_iff matched found).mp (sent connection free)

/-- In every run, every line is broadcast by the end of the event that completes it exactly when no event
ends without a newline behind one that it, or what was held, contains. -/
theorem lines_iff {actions : List Action} {t : System}
    (success : run step init actions = some t) :
    Throughout step Flushed init actions ↔ Guarded step EndsClean init actions := by
  apply throughout_iff_guarded
    (I := fun s => Matched s ∧ (∀ fd, Waiting (s.messages fd)) ∧ Flushed s) _ _ _ success
  · refine ⟨matched_init, fun fd => waiting_empty, ?_⟩
    exact (flushed_iff_sent matched_init).mpr fun connection _ => ⟨[], rfl, List.not_mem_nil⟩
  · exact fun _ all => all.2.2
  · rintro s a t stepped ⟨matched, waiting, flushed⟩ clean
    have matched' := matched_step stepped matched
    refine ⟨matched', waiting_step stepped waiting, (flushed_iff_sent matched').mpr ?_⟩
    exact (sent_step_iff stepped matched waiting flushed.sent).mpr clean
  · rintro s a t stepped ⟨matched, waiting, flushed⟩ flushed'
    exact (sent_step_iff stepped matched waiting flushed.sent).mp flushed'.sent

/-- A client sends a line and the beginning of another one at once, and closes. -/
def begun : List Action :=
  [.connect, .epollWait [.master], .processMasterEvent, .accept, .accept,
    .arrive 0 ['a', '\n', 'b'], .epollWait [.client 5 false], .processClientEvent, .recv (.bytes 3),
    .shut 0, .epollWait [.client 5 false], .processClientEvent, .recv .closed]

theorem lines_iff_begun : ∃ t, run step init begun = some t ∧
    (Throughout step Flushed init begun ↔ Guarded step EndsClean init begun) := by
  have success : run step init begun = some _ := rfl
  exact ⟨_, success, lines_iff success⟩

/-- The line is not broadcast, and is dropped with its connection. -/
theorem lines_fails : ∃ t, run step init begun = some t ∧ t.broadcasts = [] ∧
    t.received 0 = ['a', '\n', 'b'] ∧ ¬ Flushed t := by
  refine ⟨_, rfl, rfl, by decide, fun flushed => ?_⟩
  obtain ⟨tail, received, clean⟩ := flushed.sent 0 (by rintro fd hup batch ⟨⟩)
  apply clean
  rw [← (show _ = tail from received)]
  decide

end SphereMultithreading.Soundness.P2
