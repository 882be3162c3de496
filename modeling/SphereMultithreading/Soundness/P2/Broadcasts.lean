import SphereMultithreading.Proofs.P2.Server

/-! # What the chat server broadcasts

Each connection's bytes are cut into the pieces broadcast for it and the part its descriptor holds.
The descriptor may be given to another connection, whose pieces start anew.
-/

namespace SphereMultithreading.Soundness.P2

open Machine Model.P2 Model.P2.System

/-- What was broadcast for a connection. -/
def pieces (s : System) (connection : ℕ) : Model.Scanf.Text :=
  (s.broadcasts.filter fun sent => sent.sender = some connection).flatMap Broadcast.text

/-- A broadcast is a piece of what its sender sent, ends with a newline and goes to everybody who is
connected, once. -/
def Sound (s : System) (sent : Broadcast) : Prop :=
  (∃ connection, sent.sender = some connection ∧ sent.text <:+: s.received connection) ∧
    sent.text.getLast? = some '\n' ∧ sent.recipients = sent.connected ∧ sent.recipients.Nodup

/-- Broadcasts are sound; the pieces broadcast for a connection and what its descriptor holds are
what was received on it; and of a connection that is closed, the pieces are the beginning. -/
structure Relayed (s : System) : Prop where
  sound : ∀ sent ∈ s.broadcasts, Sound s sent
  held : ∀ fd connection, s.connection fd = some connection →
    pieces s connection ++ (s.messages fd).text = s.received connection
  part : ∀ connection, pieces s connection <+: s.received connection

/-- The invariant: descriptors and connections match, and nothing is received before a connection is
accepted. -/
structure Matched (s : System) : Prop where
  fds : (s.descriptors.map Prod.fst).Nodup
  once : (s.listener.pending ++ s.descriptors.map Prod.snd).Nodup
  known : ∀ connection ∈ s.listener.pending ++ s.descriptors.map Prod.snd, connection < s.arrived
  slaves : s.slaveSockets = s.descriptors.map Prod.fst
  fresh : ∀ connection, connection ∈ s.listener.pending ∨ s.arrived ≤ connection →
    s.received connection = [] ∧ pieces s connection = []
  relayed : Relayed s

theorem matched_init : Matched init where
  fds := List.nodup_nil
  once := List.nodup_nil
  known := by rintro connection ⟨⟩
  slaves := rfl
  fresh := fun _ _ => ⟨rfl, rfl⟩
  relayed := ⟨by rintro sent ⟨⟩, by rintro fd connection ⟨⟩, fun _ => List.prefix_rfl⟩

variable {s t : System}

/-- What the invariant is about. -/
structure Same (s t : System) : Prop where
  pending : t.listener.pending = s.listener.pending
  arrived : t.arrived = s.arrived
  descriptors : t.descriptors = s.descriptors
  slaves : t.slaveSockets = s.slaveSockets
  messages : t.messages = s.messages
  received : t.received = s.received
  broadcasts : t.broadcasts = s.broadcasts

theorem Same.refl (s : System) : Same s s := ⟨rfl, rfl, rfl, rfl, rfl, rfl, rfl⟩

theorem Same.trans {u : System} (left : Same s t) (right : Same t u) : Same s u :=
  ⟨right.pending.trans left.pending, right.arrived.trans left.arrived,
    right.descriptors.trans left.descriptors, right.slaves.trans left.slaves,
    right.messages.trans left.messages, right.received.trans left.received,
    right.broadcasts.trans left.broadcasts⟩

theorem same_deliver (s : System) (event : Event) : Same s (s.deliver event) := by
  unfold deliver
  split
  · exact ⟨rfl, rfl, rfl, rfl, rfl, rfl, rfl⟩
  · split <;> exact ⟨rfl, rfl, rfl, rfl, rfl, rfl, rfl⟩

theorem same_delivers (s : System) (batch : List Event) : Same s (batch.foldl deliver s) := by
  induction batch generalizing s with
  | nil => exact .refl s
  | cons event rest ih => exact (same_deliver s event).trans (ih _)

theorem Matched.of_same (matched : Matched s) (same : Same s t) : Matched t := by
  obtain ⟨pending, arrived, descriptors, slaves, messages, received, broadcasts⟩ := same
  have cut (connection : ℕ) : pieces t connection = pieces s connection := by
    rw [pieces, pieces, broadcasts]
  refine ⟨?_, ?_, ?_, ?_, ?_, ?_, ?_, ?_⟩
  · rw [descriptors]
    exact matched.fds
  · rw [pending, descriptors]
    exact matched.once
  · rw [pending, descriptors, arrived]
    exact matched.known
  · rw [slaves, descriptors]
    exact matched.slaves
  · intro connection
    rw [pending, arrived, received, cut]
    exact matched.fresh connection
  · intro sent member
    rw [broadcasts] at member
    rw [Sound, received]
    exact matched.relayed.sound sent member
  · intro fd connection
    rw [System.connection, descriptors, cut, messages, received]
    exact matched.relayed.held fd connection
  · intro connection
    rw [cut, received]
    exact matched.relayed.part connection

/-- Two descriptors never stand for one connection. -/
theorem Matched.inj (matched : Matched s) {fd other connection : ℕ}
    (found : s.connection fd = some connection) (found' : s.connection other = some connection) :
    fd = other :=
  eq_of_lookup (List.nodup_append.mp matched.once).2.1 found found'

theorem matched_connect (matched : Matched s) : Matched s.connect := by
  have new : s.arrived ∉ s.listener.pending ++ s.descriptors.map Prod.snd :=
    fun member => lt_irrefl _ (matched.known _ member)
  have queue : s.connect.listener.pending ++ s.connect.descriptors.map Prod.snd =
      s.listener.pending ++ s.arrived :: s.descriptors.map Prod.snd := by
    simp [System.connect, Edge.arrive]
  refine ⟨matched.fds, ?_, ?_, matched.slaves, ?_, matched.relayed.sound, matched.relayed.held,
    matched.relayed.part⟩
  · rw [queue, List.nodup_middle, List.nodup_cons]
    exact ⟨new, matched.once⟩
  · intro connection member
    rw [queue] at member
    change connection < s.arrived + 1
    rcases List.mem_append.mp member with waiting | member
    · exact (matched.known _ (List.mem_append_left _ waiting)).trans (Nat.lt_succ_self _)
    · rcases List.mem_cons.mp member with rfl | opened
      · exact Nat.lt_succ_self _
      · exact (matched.known _ (List.mem_append_right _ opened)).trans (Nat.lt_succ_self _)
  · intro connection unread
    apply matched.fresh connection
    rcases unread with waiting | later
    · rcases List.mem_append.mp waiting with waiting | last
      · exact .inl waiting
      · exact .inr (List.mem_singleton.mp last).ge
    · exact .inr ((Nat.le_succ _).trans later)

theorem matched_join (matched : Matched s) {connection : ℕ} {rest : List ℕ}
    (pending : s.listener.pending = connection :: rest) : Matched (s.join connection) := by
  have queue : (s.join connection).listener.pending = rest := by
    simp [join, Edge.drop, pending]
  have once := matched.once
  have known := matched.known
  have fresh := matched.fresh
  rw [pending] at once known
  refine ⟨?_, ?_, ?_, ?_, ?_, matched.relayed.sound, ?_, matched.relayed.part⟩
  · exact List.nodup_cons.mpr ⟨lowestFree_notMem _ _, matched.fds⟩
  · rw [queue]
    have moved : (rest ++ connection :: s.descriptors.map Prod.snd).Nodup ↔ _ := List.nodup_middle
    exact moved.mpr once
  · rw [queue]
    intro other member
    apply known other
    simpa [join, or_left_comm] using member
  · exact congrArg (s.nextFd :: ·) matched.slaves
  · intro other unread
    apply fresh other
    rw [queue] at unread
    exact unread.imp (fun waiting => pending ▸ List.mem_cons_of_mem _ waiting) id
  · intro fd other found
    rw [System.connection, join, lookup_opened] at found
    obtain ⟨noPieces, noBytes⟩ := fresh connection (.inl (pending ▸ List.mem_cons_self ..))
    change pieces s other ++ (Function.update s.messages s.nextFd .empty fd).text = s.received other
    split at found
    · next new =>
      cases found
      rw [new, Function.update_self, noPieces, noBytes]
      rfl
    · next old =>
      rw [Function.update_of_ne old]
      exact matched.relayed.held fd other found

theorem matched_disconnect (matched : Matched s) (fd : ℕ) : Matched (s.disconnectClient fd) := by
  have fewer : ((s.disconnectClient fd).descriptors.map Prod.snd).Sublist
      (s.descriptors.map Prod.snd) := List.filter_sublist.map _
  refine ⟨?_, ?_, ?_, ?_, matched.fresh, matched.relayed.sound, ?_, matched.relayed.part⟩
  · exact List.Nodup.sublist (List.filter_sublist.map _) matched.fds
  · exact List.Nodup.sublist ((List.Sublist.refl _).append fewer) matched.once
  · intro connection member
    exact matched.known connection (((List.Sublist.refl _).append fewer).subset member)
  · change s.slaveSockets.filter _ = (s.descriptors.filter _).map Prod.fst
    rw [matched.slaves, List.filter_map]
    rfl
  · intro other connection found
    rw [System.connection, disconnectClient, lookup_closed] at found
    split at found
    · cases found
    · next apart =>
      change pieces s connection ++ (Function.update s.messages fd .empty other).text = _
      rw [Function.update_of_ne apart]
      exact matched.relayed.held other connection found

/-- A connection with a descriptor is not waiting, and has been accepted. -/
theorem Matched.opened (matched : Matched s) {fd connection : ℕ}
    (found : s.connection fd = some connection) :
    connection ∉ s.listener.pending ∧ connection < s.arrived := by
  have here := mem_map_of_lookup found
  refine ⟨fun waiting => ?_, matched.known _ (List.mem_append_right _ here)⟩
  exact (List.nodup_append.mp matched.once).2.2 _ waiting _ here rfl

theorem matched_receive (matched : Matched s) {fd connection : ℕ} (n : ℕ)
    (found : s.connection fd = some connection) : Matched (s.receive fd connection n) := by
  obtain ⟨accepted, old⟩ := matched.opened found
  have grows (other : ℕ) : s.received other <+: (s.receive fd connection n).received other := by
    change _ <+: Function.update s.received connection _ other
    by_cases mine : other = connection
    · rw [mine, Function.update_self]
      exact List.prefix_append ..
    · rw [Function.update_of_ne mine]
  refine ⟨matched.fds, matched.once, matched.known, matched.slaves, ?_, ?_, ?_, ?_⟩
  · intro other unread
    have differ : other ≠ connection := by
      rintro rfl
      rcases unread with waiting | later
      · exact accepted waiting
      · exact absurd old (not_lt.mpr later)
    change Function.update s.received connection _ other = [] ∧ _
    rw [Function.update_of_ne differ]
    exact matched.fresh other unread
  · intro sent member
    obtain ⟨⟨sender, named, piece⟩, rest⟩ := matched.relayed.sound sent member
    exact ⟨⟨sender, named, piece.trans (grows sender).isInfix⟩, rest⟩
  · intro other owner found'
    change pieces s owner ++ (Function.update s.messages fd _ other).text =
      Function.update s.received connection _ owner
    by_cases mine : other = fd
    · cases (mine ▸ found').symm.trans found
      rw [mine, Function.update_self, Function.update_self, Message.text_append,
        ← List.append_assoc, matched.relayed.held fd connection found]
    · have differ : owner ≠ connection := fun same => mine (matched.inj found' (same ▸ found))
      rw [Function.update_of_ne mine, Function.update_of_ne differ]
      exact matched.relayed.held other owner found'
  · exact fun other => (matched.relayed.part other).trans (grows other)

/-- The message is sent and the descriptor holds nothing. -/
theorem matched_broadcast (matched : Matched s) {fd connection : ℕ}
    (found : s.connection fd = some connection)
    (complete : (s.messages fd).isComplete = some true) :
    Matched ((s.broadcast fd).setMessage fd (s.messages fd).clear) := by
  obtain ⟨accepted, old⟩ := matched.opened found
  have mine : pieces ((s.broadcast fd).setMessage fd (s.messages fd).clear) connection =
      s.received connection := by
    rw [← matched.relayed.held fd connection found]
    simp [pieces, System.broadcast, setMessage, List.filter_append, found]
  have others {other : ℕ} (differ : other ≠ connection) :
      pieces ((s.broadcast fd).setMessage fd (s.messages fd).clear) other = pieces s other := by
    simp [pieces, System.broadcast, setMessage, List.filter_append, found, differ.symm]
  refine ⟨matched.fds, matched.once, matched.known, matched.slaves, ?_, ?_, ?_, ?_⟩
  · intro other unread
    have differ : other ≠ connection := by
      rintro rfl
      rcases unread with waiting | later
      · exact accepted waiting
      · exact absurd old (not_lt.mpr later)
    rw [others differ]
    exact matched.fresh other unread
  · intro sent member
    rcases List.mem_append.mp member with before | new
    · exact matched.relayed.sound sent before
    · have everybody : s.slaveSockets.filterMap s.connection = s.descriptors.map Prod.snd := by
        rw [matched.slaves]
        exact filterMap_lookup matched.fds
      rw [List.mem_singleton.mp new]
      refine ⟨⟨connection, found, ?_⟩, Message.getLast?_of_isComplete complete, everybody, ?_⟩
      · exact ⟨pieces s connection, [], by
          rw [List.append_nil]
          exact matched.relayed.held fd connection found⟩
      · rw [everybody]
        exact (List.nodup_append.mp matched.once).2.1
  · intro other owner found'
    change pieces _ owner ++ (Function.update s.messages fd _ other).text = s.received owner
    by_cases same : other = fd
    · cases (same ▸ found').symm.trans found
      rw [same, Function.update_self, mine]
      exact List.append_nil _
    · rw [Function.update_of_ne same, others fun (owns : owner = connection) => same (matched.inj found' (owns.symm ▸ found))]
      exact matched.relayed.held other owner found'
  · intro other
    by_cases same : other = connection
    · rw [same, mine]
      exact List.prefix_rfl
    · rw [others same]
      exact matched.relayed.part other

theorem matched_setServer (matched : Matched s) (server : Server) : Matched (s.setServer server) :=
  matched.of_same ⟨rfl, rfl, rfl, rfl, rfl, rfl, rfl⟩

theorem matched_finish (matched : Matched s) {fd connection : ℕ} (hup : Bool) (batch : List Event)
    (found : s.connection fd = some connection) : Matched (s.finish fd hup batch) := by
  unfold finish
  split
  · exact matched_setServer matched _
  · rename_i complete asked
    apply matched_setServer
    cases complete with
    | false =>
      cases hup with
      | false => exact matched
      | true => exact matched_disconnect matched fd
    | true =>
      have sent := matched_broadcast matched found asked
      cases hup with
      | false => exact sent
      | true => exact matched_disconnect sent fd

theorem matched_step {a : Action} (stepped : s.step a = some t) (matched : Matched s) :
    Matched t := by
  cases a with
  | connect =>
    cases stepped
    exact matched_connect matched
  | arrive connection text =>
    obtain ⟨-, rfl⟩ := arrive_eq_some.mp stepped
    exact matched.of_same ⟨rfl, rfl, rfl, rfl, rfl, rfl, rfl⟩
  | shut connection =>
    obtain ⟨-, rfl⟩ := shut_eq_some.mp stepped
    exact matched.of_same ⟨rfl, rfl, rfl, rfl, rfl, rfl, rfl⟩
  | epollWait batch =>
    obtain ⟨-, -, rfl⟩ := epollWait_eq_some.mp stepped
    exact matched_setServer (matched.of_same (same_delivers s batch)) _
  | processMasterEvent =>
    obtain ⟨batch, -, rfl⟩ := processMasterEvent_eq_some.mp stepped
    exact matched_setServer matched _
  | accept =>
    obtain ⟨batch, -, ⟨-, rfl⟩ | ⟨connection, rest, pending, rfl⟩⟩ := accept_eq_some.mp stepped
    · exact matched.of_same ⟨rfl, rfl, rfl, rfl, rfl, rfl, rfl⟩
    · exact matched_setServer (matched_join matched pending) _
  | processClientEvent =>
    obtain ⟨fd, hup, batch, -, rfl⟩ := processClientEvent_eq_some.mp stepped
    exact matched_setServer matched _
  | recv outcome =>
    obtain ⟨fd, hup, batch, connection, -, found, -, rfl⟩ := recv_eq_some.mp stepped
    cases outcome with
    | bytes n =>
      have got := matched_receive matched n found
      rw [turn]
      split
      · exact matched_finish got hup batch found
      · exact got
    | closed => exact matched_setServer (matched_disconnect matched fd) _
    | again =>
      have same : Matched { s with errno := .EAGAIN } :=
        matched.of_same ⟨rfl, rfl, rfl, rfl, rfl, rfl, rfl⟩
      exact matched_finish same hup batch found
    | failed => exact matched.of_same ⟨rfl, rfl, rfl, rfl, rfl, rfl, rfl⟩

/-- In every run of the server and its clients, in every state: each broadcast is a piece of its
sender's bytes that ends with a newline and went to everybody connected then; and what was received
on a connection is what was broadcast for it and what its descriptor holds. -/
theorem bytes_relayed {actions : List Action} {t : System}
    (success : run step init actions = some t) : Relayed t :=
  (run_preserves (fun _ _ _ stepped matched => matched_step stepped matched) success
    matched_init).relayed

/-- Two clients connect, the first one sends a line in two parts and closes, and a third one gets
its descriptor. -/
def chat : List Action :=
  [.connect, .connect, .epollWait [.master], .processMasterEvent, .accept, .accept, .accept,
    .arrive 0 ['h'], .epollWait [.client 5 false], .processClientEvent, .recv (.bytes 1),
    .arrive 0 ['i', '\n', '?'], .epollWait [.client 5 false], .processClientEvent, .recv (.bytes 2),
    .shut 0, .connect, .epollWait [.client 5 true, .master], .processClientEvent, .recv (.bytes 1),
    .processMasterEvent, .accept]

theorem bytes_relayed_chat : ∃ t, run step init chat = some t ∧ Relayed t ∧
    t.broadcasts = [⟨some 0, ['h', 'i', '\n'], [1, 0], [1, 0]⟩] ∧ t.connection 5 = some 2 := by
  have success : run step init chat = some _ := rfl
  exact ⟨_, success, bytes_relayed success, by decide, by decide⟩

end SphereMultithreading.Soundness.P2
