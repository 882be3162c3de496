import SphereMultithreading.Machine.Run
import SphereMultithreading.Model.P2.Server

/-! # The steps of the chat server

One lemma for each step says when it is taken and what it leads to.
-/

namespace SphereMultithreading.Model.P2

open Machine

namespace System

variable {s t : System}

theorem arrive_eq_some {connection : ℕ} {text : Scanf.Text} :
    s.arrive connection text = some t ↔
      (connection < s.arrived ∧ (s.sockets connection).closed = false ∧ text ≠ []) ∧
        s.setSocket connection { s.sockets connection with
          input := (s.sockets connection).input.arrive text } = t := by
  rw [System.arrive, Option.ite_none_right_eq_some, Option.some.injEq]

theorem shut_eq_some {connection : ℕ} :
    s.shut connection = some t ↔ connection < s.arrived ∧
      s.setSocket connection
        { input := (s.sockets connection).input.arrive [], closed := true } = t := by
  rw [System.shut, Option.ite_none_right_eq_some, Option.some.injEq]

theorem epollWait_eq_some {batch : List Event} :
    s.epollWait batch = some t ↔ s.server = .events [] ∧
      ((∀ event ∈ batch, s.Announced event) ∧ (batch.map Event.source).Nodup ∧
        batch.length ≤ maxEvents) ∧ (batch.foldl deliver s).setServer (.events batch) = t := by
  unfold epollWait
  split
  · rename_i position
    rw [Option.ite_none_right_eq_some, Option.some.injEq]
    simp [position]
  · rename_i position
    exact iff_of_false (by simp) fun taken => position taken.1

theorem processMasterEvent_eq_some :
    s.processMasterEvent = some t ↔ ∃ batch, s.server = .events (.master :: batch) ∧
      s.setServer (.accepting batch) = t := by
  unfold processMasterEvent
  split
  · rename_i batch position
    simp [position]
  · rename_i position
    exact iff_of_false (by simp) fun ⟨batch, taken, _⟩ => position batch taken

theorem processClientEvent_eq_some :
    s.processClientEvent = some t ↔ ∃ fd hup batch, s.server = .events (.client fd hup :: batch) ∧
      s.setServer (.receiving fd hup batch) = t := by
  unfold processClientEvent
  split
  · rename_i fd hup batch position
    rw [Option.some.injEq]
    constructor
    · exact fun same => ⟨fd, hup, batch, position, same⟩
    · rintro ⟨fd', hup', batch', position', same⟩
      cases position.symm.trans position'
      exact same
  · rename_i position
    exact iff_of_false (by simp) fun ⟨fd, hup, batch, taken, _⟩ => position fd hup batch taken

theorem accept_eq_some :
    s.accept = some t ↔ ∃ batch, s.server = .accepting batch ∧
      ((s.listener.pending = [] ∧ { s with errno := .EAGAIN }.setServer (.events batch) = t) ∨
        ∃ connection rest, s.listener.pending = connection :: rest ∧
          (s.join connection).loop (.accepting batch) (.events batch) = t) := by
  unfold accept
  cases position : s.server with
  | accepting batch => cases queue : s.listener.pending <;> simp
  | _ => simp

theorem recv_eq_some {outcome : Recv} :
    s.recv outcome = some t ↔ ∃ fd hup batch connection, s.server = .receiving fd hup batch ∧
      s.connection fd = some connection ∧ outcome.possible (s.sockets connection) ∧
      s.turn fd connection hup batch outcome = t := by
  unfold System.recv
  split
  · rename_i fd hup batch position
    constructor
    · intro taken
      split at taken
      · rename_i connection found
        rw [Option.ite_none_right_eq_some, Option.some.injEq] at taken
        exact ⟨fd, hup, batch, connection, position, found, taken⟩
      · cases taken
    · rintro ⟨fd', hup', batch', connection, position', found, possible, same⟩
      cases position.symm.trans position'
      simp only [found, if_pos possible, same]
  · rename_i position
    exact iff_of_false (by simp) fun ⟨fd, hup, batch, _, taken, _⟩ => position fd hup batch taken

/-- The server receives from one client at a time. -/
theorem forall_receiving_iff {fd : ℕ} {hup : Bool} {batch : List Event} {P : ℕ → Prop}
    (position : s.server = .receiving fd hup batch) :
    (∀ fd' hup' batch', s.server = .receiving fd' hup' batch' → P fd') ↔ P fd := by
  constructor
  · exact fun all => all fd hup batch position
  · intro own fd' hup' batch' position'
    cases position.symm.trans position'
    exact own

theorem messages_receive_self (s : System) (fd connection n : ℕ) :
    (s.receive fd connection n).messages fd =
      (s.messages fd).append ((s.sockets connection).input.pending.take n) :=
  Function.update_self ..

theorem messages_receive_of_ne {fd other : ℕ} (differ : other ≠ fd) (connection n : ℕ) :
    (s.receive fd connection n).messages other = s.messages other :=
  Function.update_of_ne differ _ _

end System

end SphereMultithreading.Model.P2
