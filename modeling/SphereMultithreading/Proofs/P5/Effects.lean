import SphereMultithreading.Machine.Descriptors
import SphereMultithreading.Proofs.P5.Pending

/-! # What the steps of p5 do to connections, commands and replies

A command is outstanding from the event it arrives in until its reply is taken from the queue. Only
four kinds of steps matter to it: a connection is accepted, an event of a client is handled, a reply
is taken, and any other step, which at most closes a connection.
-/

namespace SphereMultithreading.Model.P5

open Model.HashTable HashTable Machine

namespace System

variable {capacity : ℕ} {s t : System} {a : Action}

/-- The tags of all messages that are on their way. -/
def outstanding (s : System) : Multiset Tag := s.pending + s.server.tags

/-- The connections are those there were, or fewer. -/
def Shrinks (s t : System) : Prop :=
  ∀ fd connection, t.connection fd = some connection → s.connection fd = some connection

theorem Shrinks.refl (s : System) : Shrinks s s := fun _ _ found => found

theorem shrinks_of_clients (same : t.clients = s.clients) : Shrinks s t := by
  intro fd connection found
  rwa [System.connection, same] at found

theorem connection_disconnectClient (s : System) (fd other : ℕ) :
    (s.disconnectClient fd).connection other = if other = fd then none else s.connection other :=
  lookup_closed s.clients fd other

theorem shrinks_hangUp (s : System) (fd : ℕ) (hup : Bool) : Shrinks s (s.hangUp fd hup) := by
  cases hup with
  | false => exact .refl s
  | true =>
    intro other connection found
    change (s.disconnectClient fd).connection other = some connection at found
    rw [connection_disconnectClient] at found
    split at found
    · cases found
    · exact found

/-- Nothing happened to commands and replies. -/
structure Quiet (s t : System) : Prop where
  outstanding : t.outstanding = s.outstanding
  delivered : t.delivered = s.delivered
  accepted : t.accepted = s.accepted
  shrinks : Shrinks s t

/-- What the event of a client leads to behind its `recv`: nothing, a reply from the server itself,
or a request. -/
inductive Outcome (s : System) (fd connection : ℕ) (command : Option Command) (t : System) :
    Parsed → Prop where
  | blank (outstanding : t.outstanding = s.outstanding) (delivered : t.delivered = s.delivered) :
      Outcome s fd connection command t .blank
  | wrong (outstanding : t.outstanding = s.outstanding)
      (delivered : t.delivered = s.delivered ++ [⟨connection, command⟩]) :
      Outcome s fd connection command t .wrong
  | request {msg : Message} (outstanding : t.outstanding = s.outstanding + {(command, fd)})
      (delivered : t.delivered = s.delivered) : Outcome s fd connection command t (.request msg)

/-- Only the replies and the commands on their way matter. -/
theorem Outcome.of_same {s' : System} {fd connection : ℕ} {command : Option Command}
    {parsed : Parsed} (outcome : Outcome s' fd connection command t parsed)
    (outstanding : s'.outstanding = s.outstanding) (delivered : s'.delivered = s.delivered) :
    Outcome s fd connection command t parsed := by
  cases outcome with
  | blank outstanding' delivered' =>
    exact .blank (outstanding'.trans outstanding) (delivered'.trans delivered)
  | wrong outstanding' delivered' =>
    exact .wrong (outstanding'.trans outstanding) (delivered ▸ delivered')
  | request outstanding' delivered' =>
    exact .request (outstanding ▸ outstanding') (delivered'.trans delivered)

/-- Only a request is on its way afterwards. -/
theorem Outcome.requests {fd connection : ℕ} {command : Option Command} {parsed : Parsed}
    (outcome : Outcome s fd connection command t parsed) :
    t.outstanding = s.outstanding ∨
      ∃ msg, parsed = .request msg ∧ t.outstanding = s.outstanding + {(command, fd)} := by
  cases outcome with
  | blank outstanding => exact .inl outstanding
  | wrong outstanding => exact .inl outstanding
  | request outstanding => exact .inr ⟨_, rfl, outstanding⟩

inductive Effect (s : System) : Action → System → Prop where
  | quiet {a : Action} {t : System} (quiet : Quiet s t) (commands : t.commands = s.commands) :
      Effect s a t
  | accepted {t : System} (clients : t.clients = (s.lowestFd, s.accepted) :: s.clients)
      (accepted : t.accepted = s.accepted + 1) (outstanding : t.outstanding = s.outstanding)
      (delivered : t.delivered = s.delivered) (commands : t.commands = s.commands) :
      Effect s .accept t
  | received {fd : ℕ} {text : Scanf.Text} {hup : Bool} {rand : Fin numWorkers} {t : System}
      {connection : ℕ} (found : s.connection fd = some connection)
      (outcome : Outcome s fd connection (some ⟨s.commands, connection⟩) t
        (processMessageFromClient text fd rand))
      (commands : t.commands = s.commands + 1) (accepted : t.accepted = s.accepted)
      (shrinks : Shrinks s t) : Effect s (.client fd (.bytes text) hup rand) t
  | failed {fd : ℕ} {hup : Bool} {rand : Fin numWorkers} {t : System} {connection : ℕ}
      (found : s.connection fd = some connection)
      (outcome : Outcome s fd connection none t (processMessageFromClient s.buffer fd rand))
      (commands : t.commands = s.commands) (accepted : t.accepted = s.accepted)
      (shrinks : Shrinks s t) : Effect s (.client fd .failed hup rand) t
  | answered {t : System} {tag : Tag} (outstanding : s.outstanding = t.outstanding + {tag})
      (delivered : t.delivered =
        s.delivered ++ ((s.connection tag.2).map fun connection => ⟨connection, tag.1⟩).toList)
      (commands : t.commands = s.commands) (accepted : t.accepted = s.accepted)
      (clients : t.clients = s.clients) : Effect s .drain t

theorem outstanding_of_same (queue : t.queue = s.queue) (workers : t.workers = s.workers)
    (server : t.server.tags = s.server.tags) : t.outstanding = s.outstanding := by
  rw [outstanding, outstanding, pending, pending, queue, workers, server]

/-- Behind a `recv`, nothing is counted any more. -/
theorem counts_process (s : System) (fd : ℕ) (command : Option Command) (hup : Bool)
    (rand : Fin numWorkers) (n : ℕ) :
    (s.process fd command hup rand n).commands = s.commands ∧
      (s.process fd command hup rand n).accepted = s.accepted := by
  unfold process
  split
  · cases hup <;> exact ⟨rfl, rfl⟩
  · cases hup <;> exact ⟨rfl, rfl⟩
  · exact ⟨rfl, rfl⟩

/-- `process_client_event` behind a `recv`, when the server has no message of its own. -/
private theorem process_outcome {fd connection : ℕ} (command : Option Command) (hup : Bool)
    (rand : Fin numWorkers) (n : ℕ) (found : s.connection fd = some connection)
    (free : s.server.tags = 0) :
    Outcome s fd connection command (s.process fd command hup rand n)
        (processMessageFromClient s.buffer fd rand) ∧
      Shrinks s (s.process fd command hup rand n) := by
  unfold process
  split <;> rename_i parsed <;> rw [parsed]
  · refine ⟨.blank ?_ ?_, shrinks_hangUp s fd hup⟩
    · cases hup <;> exact outstanding_of_same rfl rfl free.symm
    · cases hup <;> rfl
  · refine ⟨.wrong ?_ ?_,
      shrinks_hangUp ((s.setBuffer wrongCommand).sendMessageToClient fd command) fd hup⟩
    · cases hup <;> exact outstanding_of_same rfl rfl free.symm
    · have sent : ((s.setBuffer wrongCommand).sendMessageToClient fd command).delivered =
          s.delivered ++ [⟨connection, command⟩] := by
        change s.delivered ++ ((s.connection fd).map fun connection => ⟨connection, command⟩).toList = _
        rw [found]
        rfl
      cases hup <;> exact sent
  · rename_i msg
    refine ⟨.request ?_ rfl, .refl s⟩
    rw [outstanding, outstanding, free, add_zero]
    change s.pending + {(command, msg.client)} = _
    rw [(request_spec parsed).2]

theorem step_effect (stepped : s.step capacity a = some t) : Effect s a t := by
  cases owner : a.worker with
  | some w =>
    obtain ⟨worker, ⟨server, -, clients, accepted, commands, delivered⟩, -⟩ :=
      works_of_worker stepped owner
    refine .quiet ⟨?_, delivered, accepted, shrinks_of_clients clients⟩ commands
    rw [outstanding, outstanding, pending_of_worker stepped owner, server]
  | none =>
    cases a with
    | poll events =>
      obtain ⟨position, -, rfl⟩ := poll_eq_some.mp stepped
      refine .quiet ⟨outstanding_of_same rfl rfl ?_, rfl, rfl, .refl s⟩ rfl
      rw [position]
      rfl
    | master =>
      obtain ⟨n, position, rfl⟩ := master_eq_some.mp stepped
      refine .quiet ⟨outstanding_of_same rfl rfl ?_, rfl, rfl, .refl s⟩ rfl
      rw [position]
      rfl
    | accept =>
      obtain ⟨n, -, rfl⟩ := accept_eq_some.mp stepped
      exact .accepted rfl rfl (outstanding_of_same rfl rfl rfl) rfl rfl
    | acceptDone =>
      obtain ⟨n, position, rfl⟩ := acceptDone_eq_some.mp stepped
      refine .quiet ⟨outstanding_of_same rfl rfl ?_, rfl, rfl, .refl s⟩ rfl
      rw [position]
      rfl
    | client fd recv hup rand =>
      obtain ⟨n, connection, position, found, -, outcome⟩ := client_eq_some.mp stepped
      have free : s.server.tags = 0 := by rw [position]; rfl
      rcases outcome with ⟨text, rfl, rfl⟩ | ⟨rfl, rfl⟩ | ⟨rfl, rfl⟩
      · obtain ⟨outcome, shrinks⟩ :=
          process_outcome (s := s.received text) (some ⟨s.commands, connection⟩) hup rand n found free
        obtain ⟨commands, accepted⟩ := counts_process (s.received text) fd
          (some ⟨s.commands, connection⟩) hup rand n
        exact .received found (outcome.of_same rfl rfl) commands accepted shrinks
      · refine .quiet ⟨outstanding_of_same rfl rfl free.symm, rfl, rfl, ?_⟩ rfl
        exact shrinks_hangUp s fd true
      · obtain ⟨outcome, shrinks⟩ := process_outcome none hup rand n found free
        obtain ⟨commands, accepted⟩ := counts_process s fd none hup rand n
        exact .failed found outcome commands accepted shrinks
    | send =>
      obtain ⟨parcel, hup, n, position, -, rfl⟩ := send_eq_some.mp stepped
      have sent : ((({ s with queue := s.queue ++ [parcel] }).hangUp parcel.message.client
          hup).setServer (.events n)).pending = s.pending + {parcel.tag} := by
        apply pending_append
        · cases hup <;> rfl
        · exact queue_hangUp ..
      refine .quiet ⟨?_, ?_, ?_, ?_⟩ ?_
      · rw [outstanding, outstanding, sent, position]
        exact add_zero _
      · cases hup <;> rfl
      · cases hup <;> rfl
      · exact shrinks_hangUp { s with queue := s.queue ++ [parcel] } _ hup
      · cases hup <;> rfl
    | drain =>
      obtain ⟨position, ⟨-, rfl⟩ | ⟨parcel, rest, taken, rfl⟩⟩ := drain_eq_some.mp stepped
      · refine .quiet ⟨outstanding_of_same rfl rfl ?_, rfl, rfl, .refl s⟩ rfl
        rw [position]
        rfl
      · obtain ⟨before, after, cut, -, -, rfl⟩ := msgrcv_eq_some taken
        have removed : s.pending = System.pending { s with queue := before ++ after } + {parcel.tag} :=
          pending_cut rfl cut rfl
        refine @Effect.answered s _ parcel.tag ?_ rfl rfl rfl rfl
        rw [outstanding, outstanding, position, removed]
        exact add_right_comm ..
    | _ => cases owner

end System

end SphereMultithreading.Model.P5
