import SphereMultithreading.Model.P3.Proxy
import SphereMultithreading.Proofs.P3.ConfigParser
import SphereMultithreading.Soundness.P3.Relay

/-! # From the configuration to the bytes

Each connection of the proxy relays for itself, to a server that a line of the file names for the port it
came to. When it waits for bytes of a side, it has relayed all it has got from there.
-/

namespace SphereMultithreading.Soundness.P3

open Machine Model.Scanf Model.P3

/-! ## What a connection does -/

/-- A line of the text names the server for the port. -/
def Names (text : Text) (port : UInt16) (address : PairAddr) : Prop :=
  ∃ line ∈ lines text, ∃ servers, readLine line = .ok (port, servers) ∧ address ∈ servers

/-- The steps of every connection are regular. -/
def EachRegular (s : Proxy) : Proxy.Action → Prop
  | .accept .. => True
  | .connection i a => ∀ c ∈ s.connections[i]?, Regular c.connection a

/-- The listeners are those of the configuration, and each connection relays to one of its servers. -/
structure Serving (file : ParserConfigFile) (s : Proxy) : Prop where
  ports : ∀ entry ∈ s.ports, entry.2 = file.servers entry.1
  connections : ∀ c ∈ s.connections, c.address ∈ file.servers c.port ∧
    c.connection.undefined = false ∧ Phase c.connection

theorem mem_of_handleAccept {servers : List PairAddr} {rand : ℕ} {address : PairAddr}
    (taken : handleAccept servers rand = some address) : address ∈ servers := by
  rw [handleAccept] at taken
  split at taken
  · cases taken
  · exact List.mem_of_getElem? taken

theorem phase_newInstance (buffer : Side → Buffer) : Phase (Connection.newInstance buffer).start :=
  .connecting rfl rfl fun _ => ⟨rfl, rfl, rfl⟩

theorem Serving.step {file : ParserConfigFile} {s t : Proxy} {a : Proxy.Action}
    (serving : Serving file s) (stepped : s.step a = some t) (regular : EachRegular s a) :
    Serving file t := by
  cases a with
  | accept i rand buffer =>
    change s.accept i rand buffer = some t at stepped
    rw [Proxy.accept] at stepped
    split at stepped
    · cases stepped
    · next port servers listening =>
      obtain ⟨address, taken, rfl⟩ := Option.map_eq_some_iff.mp stepped
      have own : servers = file.servers port := serving.ports _ (List.mem_of_getElem? listening)
      refine ⟨serving.ports, List.forall_mem_append.mpr ⟨serving.connections, ?_⟩⟩
      rw [List.forall_mem_singleton]
      exact ⟨own ▸ mem_of_handleAccept taken, rfl, phase_newInstance buffer⟩
  | connection i a =>
    rw [Proxy.step] at stepped
    split at stepped
    · cases stepped
    · next c listed =>
      obtain ⟨connection, acted, rfl⟩ := Option.map_eq_some_iff.mp stepped
      obtain ⟨address, defined, phase⟩ := serving.connections c (List.mem_of_getElem? listed)
      refine ⟨serving.ports, fun other member => ?_⟩
      rcases List.mem_or_eq_of_mem_set member with old | rfl
      · exact serving.connections other old
      · exact ⟨address, phase_step defined phase acted (regular c listed)⟩

end SphereMultithreading.Soundness.P3
