import SphereMultithreading.Soundness.P2.Broadcasts

/-! # What the chat server leaves unread

An event is announced once for all that has arrived, so the server has to empty the queue of every
event it takes. Its loops end early: after a successful call when an earlier one has left `EAGAIN` in
`errno`, and after a chunk that ends with a newline. Whatever is left behind then is found only if
something else arrives.
-/

namespace SphereMultithreading.Soundness.P2

open Machine Model.P2 Model.P2.System

/-- The events the server has taken and not finished. -/
def sources : Server → List (Option ℕ)
  | .events batch => batch.map Event.source
  | .accepting batch => none :: batch.map Event.source
  | .receiving fd _ batch => some fd :: batch.map Event.source
  | .undefined => []

/-- Whenever the server waits and no event is announced, there is no connection to accept, and no
client's bytes are unread. -/
def Drained (s : System) : Prop :=
  s.server = .events [] → (∀ event, ¬ s.Announced event) →
    s.listener.pending = [] ∧ ∀ fd connection, s.connection fd = some connection →
      (s.sockets connection).input.pending = []

/-- Everything that waits is announced, or the server is still going to look after it. -/
def Watched (s : System) : Prop :=
  s.server ≠ .undefined → s.listener.Covered (none ∈ sources s.server) ∧
    ∀ fd connection, s.connection fd = some connection →
      (s.sockets connection).input.Covered (some fd ∈ sources s.server)

/-- A loop that ends behind a successful call leaves nothing that is not announced again. -/
def Drains (s : System) : Action → Prop
  | .accept => s.errno = .EAGAIN → (s.listener.drop 1).Covered False
  | .recv (.bytes n) => ∀ fd batch connection, s.server = .receiving fd false batch →
      s.connection fd = some connection →
      ((s.sockets connection).input.pending.take n).getLast? = some '\n' ∨ s.errno = .EAGAIN →
      ((s.sockets connection).input.drop n).Covered False
  | _ => True

/-- The invariant: no event is taken twice, and what arrives before a connection is accepted is
announced. -/
structure Attended (s : System) : Prop where
  matched : Matched s
  distinct : (sources s.server).Nodup
  waiting : ∀ connection, connection ∈ s.listener.pending ∨ s.arrived ≤ connection →
    (s.sockets connection).input.Covered False

theorem attended_init : Attended init :=
  ⟨matched_init, List.nodup_nil, fun _ _ => Edge.covered_empty False⟩

variable {s t : System} {a : Action}

theorem Watched.drained (watched : Watched s) : Drained s := by
  intro position silent
  obtain ⟨listener, sockets⟩ := watched (by rw [position]; simp)
  rw [position] at listener sockets
  constructor
  · by_contra waits
    rcases listener waits with announced | busy
    · exact silent .master announced
    · cases busy
  · intro fd connection found
    by_contra waits
    rcases sockets fd connection found waits with announced | busy
    · exact silent (.client fd false) ⟨connection, found, announced⟩
    · cases busy

/-! ## Announcements -/

theorem connection_deliver (s : System) (event : Event) (fd : ℕ) :
    (s.deliver event).connection fd = s.connection fd := by
  rw [System.connection, (same_deliver s event).descriptors, System.connection]

/-- Taking events touches only their queues. -/
theorem listener_delivers {batch : List Event} (other : none ∉ batch.map Event.source) :
    (batch.foldl deliver s).listener = s.listener := by
  induction batch generalizing s with
  | nil => rfl
  | cons event rest ih =>
    rw [List.map_cons, List.mem_cons, not_or] at other
    rw [List.foldl_cons, ih other.2]
    cases event with
    | master => exact absurd rfl other.1
    | client fd hup =>
      simp only [deliver]
      split <;> rfl

theorem sockets_delivers {batch : List Event} {connection : ℕ}
    (other : ∀ fd, some fd ∈ batch.map Event.source → s.connection fd ≠ some connection) :
    (batch.foldl deliver s).sockets connection = s.sockets connection := by
  induction batch generalizing s with
  | nil => rfl
  | cons event rest ih =>
    have here : (s.deliver event).sockets connection = s.sockets connection := by
      cases event with
      | master => rfl
      | client fd hup =>
        have differ := other fd (List.mem_cons_self ..)
        simp only [deliver]
        split
        · rfl
        · rename_i owner found
          exact Function.update_of_ne (fun (same : connection = owner) => differ (same ▸ found)) _ _
    rw [List.foldl_cons, ih, here]
    intro fd member
    rw [connection_deliver]
    exact other fd (List.mem_cons_of_mem _ member)

/-! ## The end of `process_client_event` -/

/-- The event of a client is done with; after `EPOLLHUP` the client is gone. -/
structure Finished (s t : System) (fd : ℕ) (hup : Bool) (batch : List Event) : Prop where
  listener : t.listener = s.listener
  sockets : t.sockets = s.sockets
  arrived : t.arrived = s.arrived
  server : t.server = .events batch ∨ t.server = .undefined
  others : ∀ other, other ≠ fd → t.connection other = s.connection other
  own : t.server = .events batch → t.connection fd = if hup then none else s.connection fd

theorem connection_disconnectClient (s : System) (fd other : ℕ) :
    (s.disconnectClient fd).connection other = if other = fd then none else s.connection other :=
  lookup_closed s.descriptors fd other

theorem finished_disconnect (s : System) (fd : ℕ) (batch : List Event) :
    Finished s ((s.disconnectClient fd).setServer (.events batch)) fd true batch := by
  refine ⟨rfl, rfl, rfl, .inl rfl, ?_, ?_⟩
  · exact fun other differ => (connection_disconnectClient s fd other).trans (if_neg differ)
  · exact fun _ => (connection_disconnectClient s fd fd).trans (if_pos rfl)

theorem finished_finish (s : System) (fd : ℕ) (hup : Bool) (batch : List Event) :
    Finished s (s.finish fd hup batch) fd hup batch := by
  unfold finish
  split
  · exact ⟨rfl, rfl, rfl, .inr rfl, fun _ _ => rfl, fun here => by cases here⟩
  · rename_i complete asked
    cases hup with
    | false => cases complete <;> exact ⟨rfl, rfl, rfl, .inl rfl, fun _ _ => rfl, fun _ => rfl⟩
    | true =>
      cases complete with
      | false => exact finished_disconnect s fd batch
      | true =>
        obtain ⟨-, -, -, -, others, own⟩ := finished_disconnect
          ((s.broadcast fd).setMessage fd (s.messages fd).clear) fd batch
        exact ⟨rfl, rfl, rfl, .inl rfl, others, own⟩

/-- What was received is not an empty message. -/
theorem server_finish_receive {fd connection n : ℕ} {hup : Bool} {batch : List Event}
    (possible : (Recv.bytes n).possible (s.sockets connection)) :
    ((s.receive fd connection n).finish fd hup batch).server = .events batch := by
  obtain ⟨positive, -, enough⟩ := possible
  have read : (s.sockets connection).input.pending.take n ≠ [] := by
    apply List.ne_nil_of_length_pos
    rw [List.length_take]
    omega
  have defined : ∃ complete, ((s.receive fd connection n).messages fd).isComplete = some complete := by
    simp only [System.receive, setMessage, Function.update_self, Message.isComplete_append,
      List.getLast?_eq_getLast_of_ne_nil read, Option.map_some]
    exact ⟨_, rfl⟩
  obtain ⟨complete, asked⟩ := defined
  simp only [finish, asked]
  rfl

theorem Finished.distinct {fd : ℕ} {hup : Bool} {batch : List Event}
    (finished : Finished s t fd hup batch) (distinct : (some fd :: batch.map Event.source).Nodup) :
    (sources t.server).Nodup := by
  rcases finished.server with server | server
  · rw [server]
    exact (List.nodup_cons.mp distinct).2
  · rw [server]
    exact List.nodup_nil

/-! ## The invariant -/

private theorem Attended.of_frame (attended : Attended s) (matched : Matched t)
    (distinct : (sources t.server).Nodup)
    (waiting : ∀ connection, connection ∈ t.listener.pending ∨ t.arrived ≤ connection →
      (connection ∈ s.listener.pending ∨ s.arrived ≤ connection) ∧
        t.sockets connection = s.sockets connection) : Attended t := by
  refine ⟨matched, distinct, fun connection unread => ?_⟩
  obtain ⟨before, same⟩ := waiting connection unread
  rw [same]
  exact attended.waiting connection before

/-- A connection with a descriptor does not wait. -/
private theorem Attended.ne_of_waiting (attended : Attended s) {fd connection other : ℕ}
    (found : s.connection fd = some connection)
    (waits : other ∈ s.listener.pending ∨ s.arrived ≤ other) : other ≠ connection := by
  obtain ⟨accepted, old⟩ := attended.matched.opened found
  rintro rfl
  rcases waits with waiting | later
  · exact accepted waiting
  · exact absurd old (not_lt.mpr later)

private theorem attended_setSocket (attended : Attended s) {connection : ℕ} {socket : Socket}
    (matched : Matched (s.setSocket connection socket)) (covered : socket.input.Covered False) :
    Attended (s.setSocket connection socket) := by
  refine ⟨matched, attended.distinct, fun other waits => ?_⟩
  change (Function.update s.sockets connection socket other).input.Covered False
  by_cases mine : other = connection
  · rw [mine, Function.update_self]
    exact covered
  · rw [Function.update_of_ne mine]
    exact attended.waiting other waits

theorem attended_step (stepped : s.step a = some t) (attended : Attended s) : Attended t := by
  have matched := matched_step stepped attended.matched
  have distinct := attended.distinct
  cases a with
  | connect =>
    cases stepped
    apply attended.of_frame matched distinct
    rintro connection (waiting | later)
    · refine ⟨?_, rfl⟩
      rcases List.mem_append.mp waiting with waiting | last
      · exact .inl waiting
      · exact .inr (List.mem_singleton.mp last).ge
    · exact ⟨.inr ((Nat.le_succ _).trans later), rfl⟩
  | arrive connection text =>
    obtain ⟨-, rfl⟩ := arrive_eq_some.mp stepped
    exact attended_setSocket attended matched (Edge.covered_arrive _ _ _)
  | shut connection =>
    obtain ⟨-, rfl⟩ := shut_eq_some.mp stepped
    exact attended_setSocket attended matched (Edge.covered_arrive _ _ _)
  | epollWait batch =>
    obtain ⟨-, ⟨-, once, -⟩, rfl⟩ := epollWait_eq_some.mp stepped
    apply attended.of_frame matched once
    intro connection waits
    have frame := same_delivers s batch
    have before : connection ∈ s.listener.pending ∨ s.arrived ≤ connection := by
      rw [← frame.pending, ← frame.arrived]
      exact waits
    refine ⟨before, sockets_delivers fun fd _ found => ?_⟩
    exact attended.ne_of_waiting found before rfl
  | processMasterEvent =>
    obtain ⟨batch, position, rfl⟩ := processMasterEvent_eq_some.mp stepped
    rw [position] at distinct
    exact attended.of_frame matched distinct fun connection waits => ⟨waits, rfl⟩
  | accept =>
    obtain ⟨batch, position, ⟨-, rfl⟩ | ⟨connection, rest, pending, rfl⟩⟩ :=
      accept_eq_some.mp stepped
    · rw [position] at distinct
      exact attended.of_frame matched (List.nodup_cons.mp distinct).2
        fun connection waits => ⟨waits, rfl⟩
    · rw [position] at distinct
      apply attended.of_frame matched
      · simp only [loop, setServer]
        split
        · exact (List.nodup_cons.mp distinct).2
        · exact distinct
      · intro other waits
        have fewer : other ∈ s.listener.pending.drop 1 ∨ s.arrived ≤ other := waits
        exact ⟨fewer.imp_left fun member => List.drop_subset 1 _ member, rfl⟩
  | processClientEvent =>
    obtain ⟨fd, hup, batch, position, rfl⟩ := processClientEvent_eq_some.mp stepped
    rw [position] at distinct
    exact attended.of_frame matched distinct fun connection waits => ⟨waits, rfl⟩
  | recv outcome =>
    obtain ⟨fd, hup, batch, connection, position, found, -, rfl⟩ := recv_eq_some.mp stepped
    rw [position] at distinct
    cases outcome with
    | bytes n =>
      have others (other : ℕ) (waits : other ∈ s.listener.pending ∨ s.arrived ≤ other) :
          (s.receive fd connection n).sockets other = s.sockets other :=
        Function.update_of_ne (attended.ne_of_waiting found waits) _ _
      rw [turn] at matched ⊢
      split at matched
      · next ends =>
        rw [if_pos ends]
        have finished := finished_finish (s.receive fd connection n) fd hup batch
        apply attended.of_frame matched (finished.distinct distinct)
        intro other waits
        rw [finished.listener, finished.arrived] at waits
        rw [finished.sockets]
        exact ⟨waits, others other waits⟩
      · next continues =>
        rw [if_neg continues]
        apply attended.of_frame matched
        · change (sources s.server).Nodup
          rw [position]
          exact distinct
        · exact fun other waits => ⟨waits, others other waits⟩
    | closed =>
      exact attended.of_frame matched (List.nodup_cons.mp distinct).2
        fun other waits => ⟨waits, rfl⟩
    | again =>
      have finished := finished_finish { s with errno := .EAGAIN } fd hup batch
      apply attended.of_frame matched (finished.distinct distinct)
      intro other waits
      rw [turn, finished.listener, finished.arrived] at waits
      rw [turn, finished.sockets]
      exact ⟨waits, rfl⟩
    | failed =>
      apply attended.of_frame matched
      · change (sources s.server).Nodup
        rw [position]
        exact distinct
      · exact fun other waits => ⟨waits, rfl⟩

/-! ## What is watched -/

/-- The announcements an event of the batch takes are looked after. -/
private theorem watched_epollWait (attended : Attended s) (watched : Watched s) {batch : List Event}
    (position : s.server = .events []) :
    Watched ((batch.foldl deliver s).setServer (.events batch)) := by
  obtain ⟨listener, sockets⟩ := watched (by rw [position]; simp)
  rw [position] at listener sockets
  have frame := same_delivers s batch
  intro _
  constructor
  · by_cases taken : none ∈ batch.map Event.source
    · exact Edge.covered_busy _ taken
    · change (batch.foldl deliver s).listener.Covered _
      rw [listener_delivers taken]
      exact listener.imp fun busy => by cases busy
  · intro fd connection found
    have open' : s.connection fd = some connection := by
      rw [System.connection, ← frame.descriptors]
      exact found
    by_cases taken : some fd ∈ batch.map Event.source
    · exact Edge.covered_busy _ taken
    · change ((batch.foldl deliver s).sockets connection).input.Covered _
      rw [sockets_delivers]
      · exact (sockets fd connection open').imp fun busy => by cases busy
      · intro other member found'
        exact taken (attended.matched.inj found' open' ▸ member)

/-- The event of a client is done with. -/
private theorem watched_finished {u : System} {fd : ℕ} {hup : Bool} {batch : List Event}
    (finished : Finished u t fd hup batch)
    (listener : u.listener.Covered (none ∈ batch.map Event.source))
    (others : ∀ other connection, other ≠ fd → u.connection other = some connection →
      (u.sockets connection).input.Covered (some other ∈ batch.map Event.source))
    (own : hup = false → ∀ connection, u.connection fd = some connection →
      (u.sockets connection).input.Covered False) : Watched t := by
  intro defined
  have server := finished.server.resolve_right defined
  rw [server, finished.listener, finished.sockets]
  refine ⟨listener, fun other connection found => ?_⟩
  by_cases mine : other = fd
  · rw [mine, finished.own server] at found
    cases hup with
    | true => cases found
    | false => exact (own rfl connection found).imp False.elim
  · rw [finished.others other mine] at found
    exact others other connection mine found

/-- What is watched while the event of a client is handled. -/
private theorem watched_receiving (watched : Watched s) {fd : ℕ} {hup : Bool} {batch : List Event}
    (position : s.server = .receiving fd hup batch) :
    s.listener.Covered (none ∈ batch.map Event.source) ∧
      ∀ other connection, other ≠ fd → s.connection other = some connection →
        (s.sockets connection).input.Covered (some other ∈ batch.map Event.source) := by
  obtain ⟨listener, sockets⟩ := watched (by rw [position]; simp)
  rw [position] at listener sockets
  refine ⟨listener.imp fun busy => ?_, fun other connection differ found => ?_⟩
  · exact (List.mem_cons.mp busy).resolve_left (by simp)
  · apply (sockets other connection found).imp
    intro busy
    exact (List.mem_cons.mp busy).resolve_left (by simpa using differ)

private theorem watched_setSocket (watched : Watched s) {connection : ℕ} {socket : Socket}
    (covered : ∀ busy, socket.input.Covered busy) : Watched (s.setSocket connection socket) := by
  intro defined
  obtain ⟨listener, sockets⟩ := watched defined
  refine ⟨listener, fun fd owner found => ?_⟩
  change (Function.update s.sockets connection socket owner).input.Covered _
  by_cases mine : owner = connection
  · rw [mine, Function.update_self]
    exact covered _
  · rw [Function.update_of_ne mine]
    exact sockets fd owner found

private theorem watched_join (attended : Attended s) (watched : Watched s) {batch : List Event}
    (position : s.server = .accepting batch) {connection : ℕ} {rest : List ℕ}
    (pending : s.listener.pending = connection :: rest)
    (drains : s.errno = .EAGAIN → (s.listener.drop 1).Covered False) :
    Watched ((s.join connection).loop (.accepting batch) (.events batch)) := by
  obtain ⟨-, sockets⟩ := watched (by rw [position]; simp)
  rw [position] at sockets
  have others : ∀ fd owner, (s.join connection).connection fd = some owner →
      (s.sockets owner).input.Covered (some fd ∈ batch.map Event.source) := by
    intro fd owner found
    rw [System.connection, join, lookup_opened] at found
    split at found
    · cases found
      exact (attended.waiting connection (.inl (pending ▸ List.mem_cons_self ..))).imp False.elim
    · apply (sockets fd owner found).imp
      intro busy
      exact (List.mem_cons.mp busy).resolve_left (by simp)
  intro _
  by_cases again : s.errno = .EAGAIN
  · have server : ((s.join connection).loop (.accepting batch) (.events batch)).server =
        .events batch := if_pos again
    rw [server]
    exact ⟨(drains again).imp False.elim, others⟩
  · have server : ((s.join connection).loop (.accepting batch) (.events batch)).server =
        .accepting batch := if_neg again
    rw [server]
    refine ⟨Edge.covered_busy _ (List.mem_cons_self ..), fun fd owner found => ?_⟩
    exact (others fd owner found).imp fun busy => List.mem_cons_of_mem _ busy

/-- The bytes of a chunk are read from the queue of its own connection only. -/
private theorem sockets_receive (attended : Attended s) {fd connection n other owner : ℕ}
    (found : s.connection fd = some connection) (differ : other ≠ fd)
    (found' : s.connection other = some owner) :
    (s.receive fd connection n).sockets owner = s.sockets owner :=
  Function.update_of_ne
    (fun (same : owner = connection) => differ (attended.matched.inj found' (same.symm ▸ found))) _ _

private theorem sockets_receive_self {fd connection n : ℕ} :
    ((s.receive fd connection n).sockets connection).input = (s.sockets connection).input.drop n :=
  congrArg Socket.input (Function.update_self (f := s.sockets) ..)

theorem watched_step (stepped : s.step a = some t) (attended : Attended s) (watched : Watched s)
    (drains : Drains s a) : Watched t := by
  cases a with
  | connect =>
    cases stepped
    intro defined
    exact ⟨Edge.covered_arrive _ _ _, (watched defined).2⟩
  | arrive connection text =>
    obtain ⟨-, rfl⟩ := arrive_eq_some.mp stepped
    exact watched_setSocket watched fun busy => Edge.covered_arrive _ _ busy
  | shut connection =>
    obtain ⟨-, rfl⟩ := shut_eq_some.mp stepped
    exact watched_setSocket watched fun busy => Edge.covered_arrive _ _ busy
  | epollWait batch =>
    obtain ⟨position, -, rfl⟩ := epollWait_eq_some.mp stepped
    exact watched_epollWait attended watched position
  | processMasterEvent =>
    obtain ⟨batch, position, rfl⟩ := processMasterEvent_eq_some.mp stepped
    intro _
    have before := watched (by rw [position]; simp)
    rw [position] at before
    exact before
  | accept =>
    obtain ⟨batch, position, ⟨empty, rfl⟩ | ⟨connection, rest, pending, rfl⟩⟩ :=
      accept_eq_some.mp stepped
    · obtain ⟨-, sockets⟩ := watched (by rw [position]; simp)
      rw [position] at sockets
      refine fun _ => ⟨fun waits => absurd empty waits, fun fd connection found => ?_⟩
      apply (sockets fd connection found).imp
      intro busy
      exact (List.mem_cons.mp busy).resolve_left (by simp)
    · exact watched_join attended watched position pending drains
  | processClientEvent =>
    obtain ⟨fd, hup, batch, position, rfl⟩ := processClientEvent_eq_some.mp stepped
    intro _
    have before := watched (by rw [position]; simp)
    rw [position] at before
    exact before
  | recv outcome =>
    obtain ⟨fd, hup, batch, connection, position, found, possible, rfl⟩ := recv_eq_some.mp stepped
    obtain ⟨listener, sockets⟩ := watched_receiving watched position
    cases outcome with
    | bytes n =>
      have others (other owner : ℕ) (differ : other ≠ fd)
          (found' : s.connection other = some owner) :
          ((s.receive fd connection n).sockets owner).input.Covered
            (some other ∈ batch.map Event.source) := by
        rw [sockets_receive attended found differ found']
        exact sockets other owner differ found'
      rw [turn]
      split
      · next ends =>
        apply watched_finished (finished_finish (s.receive fd connection n) fd hup batch) listener
          others
        rintro rfl owner found'
        cases found.symm.trans found'
        rw [sockets_receive_self]
        exact drains fd batch connection position found ends
      · intro _
        change (s.listener.Covered (none ∈ sources s.server)) ∧ _
        rw [position]
        refine ⟨listener.imp fun busy => List.mem_cons_of_mem _ busy, fun other owner found' => ?_⟩
        by_cases mine : other = fd
        · rw [mine]
          apply Edge.covered_busy
          change some fd ∈ sources s.server
          rw [position]
          exact List.mem_cons_self ..
        · apply (others other owner mine found').imp
          intro busy
          change some other ∈ sources s.server
          rw [position]
          exact List.mem_cons_of_mem _ busy
    | closed =>
      exact watched_finished (finished_disconnect s fd batch) listener sockets (by simp)
    | again =>
      apply watched_finished (finished_finish { s with errno := .EAGAIN } fd hup batch) listener
        sockets
      rintro - owner found' waits
      cases found.symm.trans found'
      exact absurd possible.1 waits
    | failed => exact watched

/-- What a loop leaves behind is watched only if it is announced. -/
theorem drains_of_watched (stepped : s.step a = some t) (attended : Attended s)
    (watched : Watched t) : Drains s a := by
  have distinct := attended.distinct
  cases a with
  | accept =>
    intro again
    obtain ⟨batch, position, ⟨empty, rfl⟩ | ⟨connection, rest, pending, rfl⟩⟩ :=
      accept_eq_some.mp stepped
    · intro waits
      exact absurd (by simp [Edge.drop, empty]) waits
    · rw [position] at distinct
      have server : ((s.join connection).loop (.accepting batch) (.events batch)).server =
          .events batch := if_pos again
      obtain ⟨listener, -⟩ := watched (by rw [server]; simp)
      rw [server] at listener
      exact listener.imp (List.nodup_cons.mp distinct).1
  | recv outcome =>
    cases outcome with
    | bytes n =>
      intro fd batch connection position found ends
      obtain ⟨fd', hup, batch', connection', position', found', possible, rfl⟩ :=
        recv_eq_some.mp stepped
      cases position.symm.trans position'
      cases found.symm.trans found'
      rw [position] at distinct
      have server : ((s.receive fd connection n).finish fd false batch).server = .events batch :=
        server_finish_receive possible
      have next : s.turn fd connection false batch (.bytes n) =
          (s.receive fd connection n).finish fd false batch := if_pos ends
      rw [next] at watched
      have finished := finished_finish (s.receive fd connection n) fd false batch
      obtain ⟨-, sockets⟩ := watched (by rw [server]; simp)
      have covered := sockets fd connection ((finished.own server).trans found)
      rw [server, finished.sockets, sockets_receive_self] at covered
      exact covered.imp (List.nodup_cons.mp distinct).1
    | _ => exact trivial
  | _ => exact trivial

/-- In every run, everything that waits stays watched exactly when no loop of the server ends while
something is left that is not announced; and then the server never waits while something is left. -/
theorem drained_iff {actions : List Action} {t : System}
    (success : run step init actions = some t) :
    (Throughout step Watched init actions ↔ Guarded step Drains init actions) ∧
      (Guarded step Drains init actions → Throughout step Drained init actions) := by
  have exact : Throughout step Watched init actions ↔ Guarded step Drains init actions := by
    apply throughout_iff_guarded (I := fun s => Attended s ∧ Watched s) _ _ _ success
    · refine ⟨attended_init, fun _ => ⟨Edge.covered_empty _, ?_⟩⟩
      rintro fd connection ⟨⟩
    · exact fun _ both => both.2
    · rintro s a t stepped ⟨attended, watched⟩ drains
      exact ⟨attended_step stepped attended, watched_step stepped attended watched drains⟩
    · rintro s a t stepped ⟨attended, -⟩ watched
      exact drains_of_watched stepped attended watched
  exact ⟨exact, fun guarded => (exact.mpr guarded).imp fun _ watched => watched.drained⟩

/-- One client connects, and later two more at once. -/
def burst : List Action :=
  [.connect, .epollWait [.master], .processMasterEvent, .accept, .accept,
    .connect, .connect, .epollWait [.master], .processMasterEvent, .accept]

theorem drained_burst : ∃ t, run step init burst = some t ∧
    (Throughout step Watched init burst ↔ Guarded step Drains init burst) := by
  have success : run step init burst = some _ := rfl
  exact ⟨_, success, (drained_iff success).1⟩

/-- The last client is not accepted: `errno` is still `EAGAIN` after the accept before. -/
theorem drained_fails : ∃ t, run step init burst = some t ∧ t.errno = .EAGAIN ∧ ¬ Drained t := by
  refine ⟨_, rfl, rfl, fun drained => ?_⟩
  have left := (drained rfl ?_).1
  · cases left
  · rintro (_ | ⟨fd, hup⟩)
    · rintro ⟨⟩
    · rintro ⟨connection, -, ⟨⟩⟩

end SphereMultithreading.Soundness.P2
