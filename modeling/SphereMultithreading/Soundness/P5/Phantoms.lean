import SphereMultithreading.Proofs.P5.Effects
import SphereMultithreading.Soundness.P5.SharedTable

/-! # Requests of p5 that nobody sent

All clients and all replies share one buffer, and `process_client_event` parses it also after a
`recv` that failed. A request that no client sent comes about there and nowhere else: when the
buffer still holds the text of a request.
-/

namespace SphereMultithreading.Soundness.P5

open Model.P5 Model.P5.System Machine

/-- A request the server is about to send was parsed from bytes of this very event, received from
the client it is attributed to. -/
def Genuine (capacity : ℕ) (s : System) (a : Action) : Prop :=
  ∀ t parcel hup n, s.step capacity a = some t → t.server = .send parcel hup n →
    (s.server = .send parcel hup n ∧ ∃ w, a.worker = some w) ∨
    ∃ text hup' rand, a = .client parcel.message.client (.bytes text) hup' rand ∧
      processMessageFromClient text parcel.message.client rand = .request parcel.message

/-- Every message on its way has a command that arrived. -/
def Attributed (s : System) : Prop := ∀ tag ∈ s.outstanding, ∃ command, tag.1 = some command

/-- No `recv` fails while the buffer holds a request. -/
def Fresh (s : System) (a : Action) : Prop :=
  ∀ fd hup rand msg, a = .client fd .failed hup rand →
    processMessageFromClient s.buffer fd rand ≠ .request msg

variable {capacity : ℕ} {s t : System} {a : Action}

theorem genuine_iff_fresh (stepped : s.step capacity a = some t) :
    Genuine capacity s a ↔ Fresh s a := by
  constructor
  · rintro genuine fd hup rand msg rfl parsed
    have requests : Requests s (.client fd .failed hup rand) msg :=
      ⟨fd, .failed, hup, rand, s.buffer, rfl, rfl, parsed⟩
    obtain ⟨command, hup', n, position⟩ := server_of_requests stepped requests
    rcases genuine t _ _ _ stepped position with ⟨-, w, owner⟩ | ⟨text, hup'', rand', event, -⟩
    · cases owner
    · cases event
  · intro fresh t' parcel hup n stepped' position
    rcases send_of_step stepped' position with before | ⟨fd, recv, hup', rand, text, rfl, read, parsed⟩
    · exact .inl before
    · cases recv with
      | bytes received =>
        cases read
        obtain rfl := (request_spec parsed).2
        exact .inr ⟨text, hup', rand, rfl, parsed⟩
      | closed => cases read
      | failed =>
        cases read
        exact absurd parsed (fresh fd hup' rand parcel.message rfl)

theorem attributed_init (memory : Model.P5.HashTable) : Attributed (init memory) := by
  simp [Attributed, outstanding, pending, init, Server.tags, Worker.tags, Worker.parcel]

private theorem attributed_of_same (attributed : Attributed s)
    (outstanding : t.outstanding = s.outstanding) : Attributed t := by
  intro tag member
  exact attributed tag (outstanding ▸ member)

theorem attributed_step (stepped : s.step capacity a = some t) (attributed : Attributed s)
    (fresh : Fresh s a) : Attributed t := by
  cases step_effect stepped with
  | quiet quiet => exact attributed_of_same attributed quiet.outstanding
  | accepted clients accepted outstanding => exact attributed_of_same attributed outstanding
  | received found outcome =>
    rcases outcome.requests with same | ⟨msg, -, outstanding⟩
    · exact attributed_of_same attributed same
    · intro tag member
      rw [outstanding, Multiset.mem_add, Multiset.mem_singleton] at member
      rcases member with member | rfl
      · exact attributed tag member
      · exact ⟨_, rfl⟩
  | failed found outcome =>
    rcases outcome.requests with same | ⟨msg, parsed, -⟩
    · exact attributed_of_same attributed same
    · exact absurd parsed (fresh _ _ _ msg rfl)
  | answered outstanding =>
    intro tag member
    apply attributed
    rw [outstanding]
    exact Multiset.mem_add.mpr (.inl member)

/-- A request made from stale text has no command. -/
theorem fresh_of_attributed (stepped : s.step capacity a = some t) (attributed : Attributed t) :
    Fresh s a := by
  rintro fd hup rand msg rfl parsed
  obtain ⟨n, connection, -, -, -, outcome⟩ := client_eq_some.mp stepped
  rcases outcome with ⟨text, read, -⟩ | ⟨read, -⟩ | ⟨-, rfl⟩
  · cases read
  · cases read
  · rw [process_of_request parsed] at attributed
    obtain ⟨command, named⟩ := attributed (none, msg.client)
      (Multiset.mem_add.mpr (.inr (Multiset.mem_singleton_self _)))
    cases named

/-- In every run, each request was parsed from bytes of its own event, and each message on its way
comes from a command that arrived, exactly when no `recv` fails while the buffer holds a request. -/
theorem no_phantoms_iff (capacity : ℕ) (memory : Model.P5.HashTable) {actions : List Action}
    {t : System} (success : run (step capacity) (init memory) actions = some t) :
    (Guarded (step capacity) (Genuine capacity) (init memory) actions ↔
        Guarded (step capacity) Fresh (init memory) actions) ∧
      (Throughout (step capacity) Attributed (init memory) actions ↔
        Guarded (step capacity) Fresh (init memory) actions) := by
  constructor
  · apply guarded_congr (I := fun _ => True) _ _ success trivial
    · exact fun _ _ _ stepped _ => genuine_iff_fresh stepped
    · exact fun _ _ _ _ _ => trivial
  · apply throughout_iff_guarded (I := Attributed) _ _ _ success (attributed_init memory)
    · exact fun _ attributed => attributed
    · exact fun _ _ _ stepped attributed fresh => attributed_step stepped attributed fresh
    · exact fun _ _ _ stepped _ attributed => fresh_of_attributed stepped attributed

/-- One client sends `set 1 2`; then the connection of another one is reset. -/
def reset : List Action :=
  [.poll 1, .master, .accept, .accept, .acceptDone, .drain,
    .poll 1, .client 5 (.bytes ['s', 'e', 't', ' ', '1', ' ', '2']) false 0, .send, .drain, .poll 1]

theorem no_phantoms_reset : ∃ t, run (step 1) (init zeroed) reset = some t ∧
    (Guarded (step 1) (Genuine 1) (init zeroed) reset ↔
      Guarded (step 1) Fresh (init zeroed) reset) :=
  ⟨_, rfl, (no_phantoms_iff 1 zeroed rfl).1⟩

/-- The server sends `set 1 2` again, for the client whose connection was reset. -/
theorem no_phantoms_fails : ∃ s t, run (step 1) (init zeroed) reset = some s ∧
    s.step 1 (.client 6 .failed true 1) = some t ∧
    (∃ hup n, t.server = .send ⟨⟨3, .SET, 1, 2, 0, 6⟩, none⟩ hup n) ∧
    ¬ Genuine 1 s (.client 6 .failed true 1) := by
  refine ⟨_, _, rfl, rfl, ⟨_, _, rfl⟩, fun genuine => ?_⟩
  rcases genuine _ _ _ _ rfl rfl with ⟨position, -⟩ | ⟨text, hup, rand, event, -⟩
  · cases position
  · cases event

end SphereMultithreading.Soundness.P5
