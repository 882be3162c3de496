import SphereMultithreading.Proofs.P5.Effects
import SphereMultithreading.Soundness.P5.SharedTable

/-! # Routing the replies of p5

A request carries the descriptor its reply goes to, and the descriptor may stand for another
connection by then. A reply also goes wrong when the server parses, after a `recv` that failed, what
an earlier command or reply left in its buffer. While a new connection gets no descriptor that a
reply on its way is meant for, and a failed `recv` finds a buffer with nothing to parse, every reply
answers a command of its own connection and no command is answered twice.
-/

namespace SphereMultithreading.Soundness.P5

open Model.P5 Model.P5.System Machine

/-- Every reply a client got answers a command of that very connection, and none is answered
twice. -/
def Routed (s : System) : Prop :=
  (∀ delivery ∈ s.delivered, ∃ command, delivery.command = some command ∧
    command.connection = delivery.connection) ∧
  (s.delivered.map Delivery.command).Nodup

/-- A connection is accepted while no reply is on its way to the descriptor it gets, and a `recv`
fails while the buffer has nothing to parse. -/
def Routable (s : System) : Action → Prop
  | .accept => ∀ tag ∈ s.outstanding, tag.2 ≠ s.lowestFd
  | .client fd .failed _ rand => processMessageFromClient s.buffer fd rand = .blank
  | _ => True

instance (s : System) : ∀ a, Decidable (Routable s a)
  | .accept => inferInstanceAs (Decidable (∀ tag ∈ s.outstanding, tag.2 ≠ s.lowestFd))
  | .client fd .failed _ rand =>
      inferInstanceAs (Decidable (processMessageFromClient s.buffer fd rand = .blank))
  | .client _ (.bytes _) _ _ | .client _ .closed _ _ | .poll _ | .master | .acceptDone | .send
  | .drain | .receive _ | .down _ | .call _ | .up _ | .reply _ => isTrue trivial

/-- The commands of the messages on their way and of the replies sent. -/
def known (s : System) : Multiset (Option Command) :=
  s.outstanding.map Prod.fst + (s.delivered.map Delivery.command : List (Option Command))

structure Traced (s : System) : Prop where
  known : ∀ entry ∈ known s, ∃ command, entry = some command ∧ command.number < s.commands
  distinct : (P5.known s).Nodup
  routes : ∀ tag ∈ s.outstanding, ∀ connection, s.connection tag.2 = some connection →
    ∃ command, tag.1 = some command ∧ command.connection = connection
  delivered : ∀ delivery ∈ s.delivered, ∃ command, delivery.command = some command ∧
    command.connection = delivery.connection

theorem traced_init (memory : Model.P5.HashTable) : Traced (init memory) := by
  have nothing : known (init memory) = 0 := by
    simp [known, outstanding, pending, init, Server.tags, Worker.tags, Worker.parcel]
  refine ⟨?_, ?_, ?_, ?_⟩
  · rw [nothing]
    rintro entry ⟨⟩
  · rw [nothing]
    exact Multiset.nodup_zero
  · rintro tag - connection ⟨⟩
  · rintro delivery ⟨⟩

variable {capacity : ℕ} {s t : System} {a : Action}

theorem Traced.routed (traced : Traced s) : Routed s := by
  refine ⟨traced.delivered, ?_⟩
  have distinct := (Multiset.nodup_add.mp traced.distinct).2.1
  exact Multiset.coe_nodup.mp distinct

/-- A step that adds no reply and no message, and no connection. -/
private theorem traced_of_same (traced : Traced s) (outstanding : t.outstanding = s.outstanding)
    (delivered : t.delivered = s.delivered) (commands : s.commands ≤ t.commands)
    (shrinks : Shrinks s t) : Traced t := by
  have same : known t = known s := by rw [known, known, outstanding, delivered]
  refine ⟨?_, same ▸ traced.distinct, ?_, delivered ▸ traced.delivered⟩
  · intro entry member
    obtain ⟨command, named, old⟩ := traced.known entry (same ▸ member)
    exact ⟨command, named, by omega⟩
  · intro tag member connection found
    exact traced.routes tag (outstanding ▸ member) connection (shrinks _ _ found)

/-- A step that adds one new command to those on their way or answered. -/
private theorem known_cons (traced : Traced s) {connection : ℕ}
    (added : known t = some ⟨s.commands, connection⟩ ::ₘ known s)
    (commands : t.commands = s.commands + 1) :
    (∀ entry ∈ known t, ∃ command, entry = some command ∧ command.number < t.commands) ∧
      (known t).Nodup := by
  constructor
  · intro entry member
    rw [added, Multiset.mem_cons] at member
    rcases member with rfl | member
    · exact ⟨_, rfl, commands ▸ Nat.lt_succ_self _⟩
    · obtain ⟨command, named, old⟩ := traced.known entry member
      exact ⟨command, named, by omega⟩
  · rw [added, Multiset.nodup_cons]
    refine ⟨fun member => ?_, traced.distinct⟩
    obtain ⟨command, named, old⟩ := traced.known _ member
    cases named
    exact absurd old (lt_irrefl _)

theorem traced_received {fd connection : ℕ} {parsed : Parsed} (traced : Traced s)
    (found : s.connection fd = some connection)
    (outcome : Outcome s fd connection (some ⟨s.commands, connection⟩) t parsed)
    (commands : t.commands = s.commands + 1) (shrinks : Shrinks s t) : Traced t := by
  cases outcome with
  | blank outstanding delivered =>
    exact traced_of_same traced outstanding delivered (by omega) shrinks
  | wrong outstanding delivered =>
    have added : known t = some ⟨s.commands, connection⟩ ::ₘ known s := by
      rw [known, known, outstanding, delivered, List.map_append, ← Multiset.coe_add, ← add_assoc,
        ← Multiset.singleton_add, add_comm]
      rfl
    obtain ⟨known, distinct⟩ := known_cons traced added commands
    refine ⟨known, distinct, ?_, ?_⟩
    · intro tag member other route
      exact traced.routes tag (outstanding ▸ member) other (shrinks _ _ route)
    · intro delivery member
      rw [delivered, List.mem_append, List.mem_singleton] at member
      rcases member with member | rfl
      · exact traced.delivered delivery member
      · exact ⟨_, rfl, rfl⟩
  | request outstanding delivered =>
    have added : known t = some ⟨s.commands, connection⟩ ::ₘ known s := by
      rw [known, known, outstanding, delivered, Multiset.map_add, Multiset.map_singleton,
        add_right_comm, ← Multiset.singleton_add, add_comm]
    obtain ⟨known, distinct⟩ := known_cons traced added commands
    refine ⟨known, distinct, ?_, delivered ▸ traced.delivered⟩
    intro tag member other route
    rw [outstanding, Multiset.mem_add, Multiset.mem_singleton] at member
    rcases member with member | rfl
    · exact traced.routes tag member other (shrinks _ _ route)
    · refine ⟨_, rfl, ?_⟩
      exact Option.some.inj (found.symm.trans (shrinks _ _ route))

/-- A reply taken from the queue goes to the connection of its command, or to nobody. -/
theorem traced_answered {tag : Tag} (traced : Traced s)
    (outstanding : s.outstanding = t.outstanding + {tag})
    (delivered : t.delivered =
      s.delivered ++ ((s.connection tag.2).map fun connection => ⟨connection, tag.1⟩).toList)
    (commands : t.commands = s.commands) (clients : t.clients = s.clients) : Traced t := by
  have mine : tag ∈ s.outstanding := by
    rw [outstanding]
    exact Multiset.mem_add.mpr (.inr (Multiset.mem_singleton_self tag))
  have fewer : known t ≤ known s := by
    rw [known, known, outstanding, delivered, Multiset.map_add, Multiset.map_singleton, add_assoc]
    apply add_le_add_right
    cases s.connection tag.2 with
    | none =>
      rw [Option.map_none, Option.toList_none, List.append_nil]
      exact Multiset.le_add_left ..
    | some connection =>
      rw [Option.map_some, Option.toList_some, List.map_append, ← Multiset.coe_add, add_comm]
      rfl
  refine ⟨?_, Multiset.nodup_of_le fewer traced.distinct, ?_, ?_⟩
  · intro entry member
    rw [commands]
    exact traced.known entry (Multiset.mem_of_le fewer member)
  · intro other member connection route
    have before : other ∈ s.outstanding := by
      rw [outstanding]
      exact Multiset.mem_add.mpr (.inl member)
    apply traced.routes other before
    rwa [System.connection, ← clients]
  · intro delivery member
    rw [delivered, List.mem_append] at member
    rcases member with member | last
    · exact traced.delivered delivery member
    · rw [Option.mem_toList, Option.map_eq_some_iff] at last
      obtain ⟨connection, route, rfl⟩ := last
      exact traced.routes tag mine connection route

theorem traced_step (stepped : s.step capacity a = some t) (traced : Traced s)
    (routable : Routable s a) : Traced t := by
  cases step_effect stepped with
  | quiet quiet commands =>
    exact traced_of_same traced quiet.outstanding quiet.delivered commands.ge quiet.shrinks
  | accepted clients accepted outstanding delivered commands =>
    have same : known t = known s := by rw [known, known, outstanding, delivered]
    refine ⟨?_, same ▸ traced.distinct, ?_, delivered ▸ traced.delivered⟩
    · rw [same, commands]
      exact traced.known
    · intro tag member connection route
      rw [outstanding] at member
      apply traced.routes tag member
      have other : tag.2 ≠ s.lowestFd := routable tag member
      rw [System.connection, clients, List.lookup_cons, beq_false_of_ne other] at route
      exact route
  | received found outcome commands accepted shrinks =>
    exact traced_received traced found outcome commands shrinks
  | failed found outcome commands accepted shrinks =>
    rename_i fd hup rand connection
    have blank : processMessageFromClient s.buffer fd rand = .blank := routable
    rw [blank] at outcome
    cases outcome with
    | blank outstanding delivered =>
      exact traced_of_same traced outstanding delivered commands.ge shrinks
  | answered outstanding delivered commands accepted clients =>
    exact traced_answered traced outstanding delivered commands clients

/-- In every run that hands out no descriptor a reply is on its way to and that parses no stale
text, the replies answer commands of the connections they are sent on, each command at most once. -/
theorem replies_routed (capacity : ℕ) (memory : Model.P5.HashTable) {actions : List Action}
    (routable : Guarded (step capacity) Routable (init memory) actions) :
    Throughout (step capacity) Routed (init memory) actions := by
  apply throughout_of_guarded (I := Traced) _ _ routable (traced_init memory)
  · exact fun _ traced => traced.routed
  · exact fun _ _ _ stepped traced allowed => traced_step stepped traced allowed

/-- A client sends `get 1`, which worker 0 answers, and a second one connects. -/
def answeredGet : List Action :=
  [.poll 1, .master, .accept, .acceptDone, .drain,
    .poll 1, .client 5 (.bytes ['g', 'e', 't', ' ', '1']) false 0, .send, .drain,
    .receive 0, .down 0, .call 0, .up 0, .reply 0,
    .poll 1, .master, .accept, .acceptDone, .drain]

theorem replies_routed_answeredGet : Throughout (step 1) Routed (init zeroed) answeredGet :=
  replies_routed 1 zeroed (by decide)

/-- A client sends `get 1` and closes; the next one to connect gets its descriptor, and the reply. -/
def reusedFd : List Action :=
  [.poll 1, .master, .accept, .acceptDone, .drain,
    .poll 1, .client 5 (.bytes ['g', 'e', 't', ' ', '1']) false 0, .send, .drain,
    .poll 1, .client 5 .closed false 0, .drain,
    .receive 0, .down 0, .call 0, .up 0, .reply 0,
    .poll 1, .master, .accept, .acceptDone, .drain]

theorem replies_routed_fails :
    ∃ t, run (step 1) (init zeroed) reusedFd = some t ∧ ¬ Routed t := by
  refine ⟨_, rfl, fun routed => ?_⟩
  obtain ⟨command, named, mine⟩ := routed.1 ⟨1, some ⟨0, 0⟩⟩ (by decide)
  cases named
  cases mine

end SphereMultithreading.Soundness.P5
