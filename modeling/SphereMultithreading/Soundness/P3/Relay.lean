import SphereMultithreading.Machine.Run
import SphereMultithreading.Model.P3.Connection

/-! # What a proxy connection relays

While every send transmits all its bytes and every receive yields some, each buffer has one operation,
and what is received from its side and not yet relayed is the chunk that operation is about. The end
of a file is relayed faithfully when the sends it starts do not exceed that chunk.
-/

namespace SphereMultithreading.Soundness.P3

open Machine Model.P3 Model.P3.Connection

/-- What is transmitted to one side is a prefix of what is received from the other. -/
def Faithful (s : Connection) : Prop :=
  s.undefined = false ∧ ∀ origin, s.relayed origin <+: s.received origin

/-- The bytes at the start of the buffer that the operation, or the send it leads to, is still to
transmit. -/
def left : Pending → ℕ
  | ⟨.receive, some (.done size)⟩ => size
  | ⟨.receive, _⟩ => 0
  | ⟨.send _, some (.done _)⟩ => 0
  | ⟨.send size, _⟩ => size

def Short : Pending → Prop
  | ⟨.send size, some (.done n)⟩ => n < size
  | _ => False

/-- The buffers are strings, and what is sent of them at once is still to be transmitted. -/
def EndsWell (s : Connection) (now : AtOnce) : Prop :=
  ∀ origin, 0 ∈ (s.buffer origin).bytes ∧
    ((s.buffer origin).bytes.headD 0 ≠ 0 → s.connected origin.other → ∀ n ∈ now origin,
      n ≤ ((s.pending origin).map left).sum)

theorem left_of_short {p : Pending} (short : Short p) : left p = 0 := by
  obtain ⟨operation, outcome⟩ := p
  cases operation with
  | receive => exact short.elim
  | send size =>
    rcases outcome with _ | ⟨_ | _⟩
    · exact short.elim
    · rfl
    · exact short.elim

/-- Receives yield bytes, sends transmit all of theirs, and the end of a file comes at a time at which
both buffers can be sent again. -/
def Regular (s : Connection) : Action → Prop
  | .connect error now => error = eof → EndsWell s now
  | .complete origin i now =>
      match (s.pending origin)[i]? with
      | some ⟨.receive, some (.done n)⟩ => n ≠ 0
      | some ⟨.send size, some (.done n)⟩ => n = size
      | some ⟨_, some (.failed error _)⟩ => error = eof → EndsWell s now
      | _ => True
  | _ => True

/-- The one operation on a buffer, and the chunk it is about. -/
def Relays (s : Connection) (origin : Side) : Prop :=
  ∃ p, s.pending origin = [p] ∧
    (s.received origin = s.relayed origin ++ (s.buffer origin).bytes.take (left p) ∨
      Short p ∧ s.relayed origin <+: s.received origin)

/-- Before the server is connected to, while the connection relays, and after `stop`. -/
inductive Phase (s : Connection) : Prop where
  | connecting : s.connecting = true → s.isActive = true →
      (∀ origin, s.pending origin = [] ∧ s.received origin = [] ∧ s.relayed origin = []) → Phase s
  | relaying : s.connecting = false → s.isActive = true → (∀ origin, Relays s origin) → Phase s
  | closed : s.connecting = false → s.isActive = false → (∀ origin, s.connected origin = false) →
      (∀ origin, s.relayed origin <+: s.received origin) → Phase s

variable {s t : Connection} {origin : Side} {now : AtOnce}

theorem Relays.faithful (relays : Relays s origin) : s.relayed origin <+: s.received origin := by
  obtain ⟨p, -, whole | ⟨-, part⟩⟩ := relays
  · exact ⟨_, whole.symm⟩
  · exact part

theorem Phase.faithful (phase : Phase s) (origin : Side) :
    s.relayed origin <+: s.received origin := by
  cases phase with
  | connecting _ _ idle =>
    obtain ⟨-, -, nothing⟩ := idle origin
    exact nothing ▸ List.nil_prefix
  | relaying _ _ relays => exact (relays origin).faithful
  | closed _ _ _ faithful => exact faithful origin

/-! ## Writing -/

/-- What a send of a buffer changes. -/
structure Sent (s t : Connection) (origin : Side) (now : AtOnce) : Prop where
  buffer : t.buffer = s.buffer
  isActive : t.isActive = s.isActive
  connecting : t.connecting = s.connecting
  connected : t.connected = s.connected
  undefined : t.undefined = s.undefined
  received : t.received = s.received
  relayed : t.relayed = s.relayed ∨ ∃ n ∈ now origin, s.connected origin.other ∧
    t.relayed = Function.update s.relayed origin
      (s.relayed origin ++ (s.buffer origin).bytes.take n)

theorem sent_doWrite (s : Connection) (origin : Side) (size : ℕ) (now : AtOnce) :
    Sent s (s.doWrite origin size now) origin now := by
  unfold doWrite
  cases atOnce : now origin with
  | none => exact ⟨rfl, rfl, rfl, rfl, rfl, rfl, .inl rfl⟩
  | some n =>
    dsimp only
    split_ifs with possible
    · exact ⟨rfl, rfl, rfl, rfl, rfl, rfl, .inr ⟨n, atOnce, possible.1, rfl⟩⟩
    · exact ⟨rfl, rfl, rfl, rfl, rfl, rfl, .inl rfl⟩

/-- What is sent at once of a buffer goes on with what was relayed. -/
def Sendable (s : Connection) (now : AtOnce) (origin : Side) : Prop :=
  0 ∈ (s.buffer origin).bytes ∧
    ((s.buffer origin).bytes.headD 0 ≠ 0 → s.connected origin.other → ∀ n ∈ now origin,
      s.relayed origin ++ (s.buffer origin).bytes.take n <+: s.received origin)

/-- A buffer is sent again faithfully, and nothing else changes. -/
theorem resend_faithful (sendable : Sendable s now origin)
    (faithful : ∀ side, s.relayed side <+: s.received side) :
    Sent s (s.resend origin now) origin now ∧
      (∀ side, (s.resend origin now).relayed side <+: (s.resend origin now).received side) := by
  obtain ⟨string, continues⟩ := sendable
  unfold resend
  split_ifs with filled
  · cases length : (s.buffer origin).strlen with
    | none =>
      rw [Buffer.strlen, List.idxOf?_eq_none_iff] at length
      exact absurd string length
    | some size =>
      have sent := sent_doWrite s origin size now
      refine ⟨sent, fun side => ?_⟩
      dsimp only
      rw [sent.received]
      rcases sent.relayed with same | ⟨n, atOnce, connected, more⟩
      · rw [same]
        exact faithful side
      · rw [more]
        rcases eq_or_ne side origin with rfl | differ
        · rw [Function.update_self]
          exact continues filled connected n atOnce
        · rw [Function.update_of_ne differ]
          exact faithful side
  · exact ⟨⟨rfl, rfl, rfl, rfl, rfl, rfl, .inl rfl⟩, faithful⟩

/-- After `stop` the connection is closed. -/
theorem closed_stop {error : ℕ} (defined : s.undefined = false) (connecting : s.connecting = false)
    (consistent : s.isActive = true ∨ ∀ side, s.connected side = false)
    (faithful : ∀ side, s.relayed side <+: s.received side)
    (sendable : error = eof → ∀ side, Sendable s now side) :
    (s.stop error now).undefined = false ∧ Phase (s.stop error now) := by
  have close {t : Connection} (defined : t.undefined = false) (connecting : t.connecting = false)
      (consistent : t.isActive = true ∨ ∀ side, t.connected side = false)
      (faithful : ∀ side, t.relayed side <+: t.received side) :
      let closed := if t.isActive then { t with connected := fun _ => false, isActive := false } else t
      closed.undefined = false ∧ Phase closed := by
    cases active : t.isActive with
    | true => exact ⟨defined, .closed connecting rfl (fun _ => rfl) faithful⟩
    | false =>
      refine ⟨defined, .closed connecting active ?_ faithful⟩
      exact consistent.resolve_left (by simp [active])
  unfold stop
  split_ifs with atEnd
  · obtain ⟨sent, faithful'⟩ := resend_faithful (sendable atEnd .server) faithful
    have sendable' : Sendable (s.resend .server now) now .client := by
      have same : (s.resend .server now).relayed .client = s.relayed .client := by
        rcases sent.relayed with same | ⟨n, -, -, more⟩
        · rw [same]
        · rw [more, Function.update_of_ne (by simp)]
      rw [Sendable, sent.buffer, sent.connected, sent.received, same]
      exact sendable atEnd .client
    obtain ⟨sent', faithful''⟩ := resend_faithful sendable' faithful'
    apply close
    · rw [sent'.undefined, sent.undefined, defined]
    · rw [sent'.connecting, sent.connecting, connecting]
    · rw [sent'.isActive, sent.isActive, sent'.connected, sent.connected]
      exact consistent
    · exact faithful''
  · exact close defined connecting consistent faithful

/-- At an end of file that comes well, what `stop` sends goes on with what was relayed. -/
theorem Phase.sendable (phase : Phase s) (ends : EndsWell s now) (side : Side) :
    Sendable s now side := by
  obtain ⟨string, bounded⟩ := ends side
  refine ⟨string, fun filled connected n atOnce => ?_⟩
  have fits := bounded filled connected n atOnce
  cases phase with
  | connecting _ _ idle =>
    obtain ⟨noneLeft, -, -⟩ := idle side
    have zero : n = 0 := by simpa [noneLeft] using fits
    rw [zero, List.take_zero, List.append_nil]
    exact (Phase.connecting ‹_› ‹_› idle).faithful side
  | relaying _ _ relays =>
    obtain ⟨p, one, chunk⟩ := relays side
    have fits' : n ≤ left p := by simpa [one] using fits
    rcases chunk with whole | ⟨short, part⟩
    · rw [whole]
      exact (List.prefix_append_right_inj _).mpr (List.take_prefix_take_left fits')
    · have zero : n = 0 := by
        rw [left_of_short short] at fits'
        omega
      rw [zero, List.take_zero, List.append_nil]
      exact part
  | closed _ _ disconnected _ =>
    rw [disconnected] at connected
    cases connected

/-! ## Steps -/

theorem handler_receive (origin : Side) : handler origin .receive = handleRead origin := by
  cases origin <;> rfl

theorem handler_send (origin : Side) (size : ℕ) :
    handler origin (.send size) = handleWrite origin := by
  cases origin <;> rfl

theorem handleRead_failed (s : Connection) {error : ℕ} (isError : error ≠ noError) (now : AtOnce) :
    handleRead origin s (.failed error isError) now = s.stop error now := if_pos isError

theorem handleRead_done (s : Connection) {size : ℕ} (nonzero : size ≠ 0) (now : AtOnce) :
    handleRead origin s (.done size) now = s.doWrite origin size now := if_pos nonzero

theorem handleWrite_failed (s : Connection) {error : ℕ} (isError : error ≠ noError) (now : AtOnce) :
    handleWrite origin s (.failed error isError) now = s.stop error now := if_pos isError

theorem handleWrite_done (s : Connection) (n : ℕ) (now : AtOnce) :
    handleWrite origin s (.done n) now =
      { s with buffer := Function.update s.buffer origin .zeros }.doRead origin := rfl

/-- The operations on a buffer are about that buffer alone. -/
theorem Relays.congr (relays : Relays s origin) (pending : t.pending origin = s.pending origin)
    (buffer : t.buffer origin = s.buffer origin) (received : t.received origin = s.received origin)
    (relayed : t.relayed origin = s.relayed origin) : Relays t origin := by
  obtain ⟨p, one, chunk⟩ := relays
  refine ⟨p, pending.trans one, ?_⟩
  rw [buffer, received, relayed]
  exact chunk

/-- A send that has transmitted some of the chunk. -/
theorem relays_transmit {size n : ℕ} (fits : n ≤ size)
    (whole : s.received origin = s.relayed origin ++ (s.buffer origin).bytes.take size)
    (pending : t.pending origin = [⟨.send size, some (.done n)⟩])
    (received : t.received origin = s.received origin)
    (relayed : t.relayed origin = s.relayed origin ++ (s.buffer origin).bytes.take n) :
    Relays t origin := by
  refine ⟨_, pending, ?_⟩
  rw [received, relayed, whole]
  rcases Nat.eq_or_lt_of_le fits with rfl | short
  · left
    simp [left]
  · right
    exact ⟨short, (List.prefix_append_right_inj _).mpr (List.take_prefix_take_left fits)⟩

theorem eq_of_getElem?_singleton {p q : Pending} {i : ℕ} (found : [p][i]? = some q) :
    i = 0 ∧ p = q := by
  cases i with
  | zero => exact ⟨rfl, Option.some.inj found⟩
  | succ i => cases found

theorem relays_doWrite {size : ℕ} (idle : s.pending origin = [])
    (whole : s.received origin = s.relayed origin ++ (s.buffer origin).bytes.take size)
    (now : AtOnce) : Relays (s.doWrite origin size now) origin := by
  have waits : Relays (s.push origin ⟨.send size, none⟩) origin :=
    ⟨⟨.send size, none⟩, by simp [push, idle], .inl whole⟩
  unfold doWrite
  cases now origin with
  | none => exact waits
  | some n =>
    dsimp only
    split_ifs with possible
    · exact relays_transmit possible.2 whole (by simp [push, transmit, idle]) rfl
        (by simp [push, transmit])
    · exact waits

theorem doWrite_of_ne (s : Connection) {side : Side} (differ : side ≠ origin) (size : ℕ)
    (now : AtOnce) : (s.doWrite origin size now).pending side = s.pending side ∧
      (s.doWrite origin size now).relayed side = s.relayed side := by
  unfold doWrite
  cases now origin with
  | none => simp [push, Function.update_of_ne differ]
  | some n =>
    dsimp only
    split_ifs <;> simp [push, transmit, Function.update_of_ne differ]

/-- The handler of an operation on a connection that relays. -/
theorem complete_relaying {i : ℕ} {operation : Operation} {outcome : Outcome}
    (defined : s.undefined = false) (connecting : s.connecting = false) (active : s.isActive = true)
    (relays : ∀ side, Relays s side)
    (found : (s.pending origin)[i]? = some ⟨operation, some outcome⟩)
    (regular : Regular s (.complete origin i now)) :
    (handler origin operation (s.pop origin i) outcome now).undefined = false ∧
      Phase (handler origin operation (s.pop origin i) outcome now) := by
  obtain ⟨p, one, chunk⟩ := relays origin
  obtain ⟨rfl, rfl⟩ := eq_of_getElem?_singleton (one ▸ found)
  simp only [Regular, found] at regular
  have idle : (s.pop origin 0).pending origin = [] := by simp [pop, one]
  have others {t : Connection} {side : Side} (differ : side ≠ origin)
      (pending : t.pending side = (s.pop origin 0).pending side)
      (buffer : t.buffer side = s.buffer side) (received : t.received side = s.received side)
      (relayed : t.relayed side = s.relayed side) : Relays t side :=
    (relays side).congr (by simp [pending, pop, Function.update_of_ne differ]) buffer received relayed
  have stops {error : ℕ} (ends : error = eof → EndsWell s now) :
      ((s.pop origin 0).stop error now).undefined = false ∧
        Phase ((s.pop origin 0).stop error now) :=
    closed_stop defined connecting (.inl active) (fun side => (relays side).faithful)
      fun atEnd side => (Phase.relaying connecting active relays).sendable (ends atEnd) side
  cases operation with
  | receive =>
    rw [handler_receive]
    cases outcome with
    | failed error isError =>
      rw [handleRead_failed]
      exact stops regular
    | done size =>
      rw [handleRead_done _ regular]
      have whole := chunk.resolve_right (by simp [Short])
      have sent := sent_doWrite (s.pop origin 0) origin size now
      refine ⟨sent.undefined.trans defined, .relaying (sent.connecting.trans connecting)
        (sent.isActive.trans active) fun side => ?_⟩
      rcases eq_or_ne side origin with rfl | differ
      · exact relays_doWrite idle whole now
      · obtain ⟨pending, relayed⟩ := doWrite_of_ne (s.pop origin 0) differ size now
        exact others differ pending (congrFun sent.buffer side) (congrFun sent.received side) relayed
  | send size =>
    rw [handler_send]
    cases outcome with
    | failed error isError =>
      rw [handleWrite_failed]
      exact stops regular
    | done n =>
      rw [handleWrite_done]
      have sentAll : n = size := regular
      have whole := chunk.resolve_right (by simp [Short, sentAll])
      refine ⟨defined, .relaying connecting active fun side => ?_⟩
      rcases eq_or_ne side origin with rfl | differ
      · refine ⟨⟨.receive, none⟩, by simp [doRead, push, pop, one], .inl ?_⟩
        change s.received side = s.relayed side ++ List.take 0 _
        rw [whole]
        rfl
      · exact others differ (by simp [doRead, push, Function.update_of_ne differ])
          (by simp [doRead, push, pop, Function.update_of_ne differ]) rfl rfl

/-- The handler of an operation on a closed connection. -/
theorem complete_closed {i : ℕ} {operation : Operation} {outcome : Outcome}
    (defined : s.undefined = false) (connecting : s.connecting = false)
    (inactive : s.isActive = false) (disconnected : ∀ side, s.connected side = false)
    (faithful : ∀ side, s.relayed side <+: s.received side)
    (found : (s.pending origin)[i]? = some ⟨operation, some outcome⟩)
    (regular : Regular s (.complete origin i now)) :
    (handler origin operation (s.pop origin i) outcome now).undefined = false ∧
      Phase (handler origin operation (s.pop origin i) outcome now) := by
  have closed : Phase s := .closed connecting inactive disconnected faithful
  simp only [Regular, found] at regular
  have stops {error : ℕ} (ends : error = eof → EndsWell s now) :
      ((s.pop origin i).stop error now).undefined = false ∧
        Phase ((s.pop origin i).stop error now) :=
    closed_stop defined connecting (.inr disconnected) faithful
      fun atEnd side => closed.sendable (ends atEnd) side
  cases operation with
  | receive =>
    rw [handler_receive]
    cases outcome with
    | failed error isError =>
      rw [handleRead_failed]
      exact stops regular
    | done size =>
      rw [handleRead_done _ regular]
      have sent := sent_doWrite (s.pop origin i) origin size now
      have same : ((s.pop origin i).doWrite origin size now).relayed = s.relayed := by
        refine sent.relayed.resolve_right ?_
        rintro ⟨n, -, connected, -⟩
        cases (disconnected _).symm.trans connected
      refine ⟨sent.undefined.trans defined, .closed (sent.connecting.trans connecting)
        (sent.isActive.trans inactive) (fun side => ?_) fun side => ?_⟩
      · rw [sent.connected]
        exact disconnected side
      · rw [same, sent.received]
        exact faithful side
  | send size =>
    rw [handler_send]
    cases outcome with
    | failed error isError =>
      rw [handleWrite_failed]
      exact stops regular
    | done n => exact ⟨defined, .closed connecting inactive disconnected faithful⟩

/-- The server is connected to, or the connection is closed. -/
theorem connect_connecting {error : ℕ} (defined : s.undefined = false) (active : s.isActive = true)
    (isConnecting : s.connecting = true)
    (idle : ∀ side, s.pending side = [] ∧ s.received side = [] ∧ s.relayed side = [])
    (ends : error = eof → EndsWell s now) (connected : Side → Bool)
    (client : connected .client = s.connected .client)
    (server : connected .server = decide (error = noError)) :
    let connection := { s with connecting := false, connected := connected }
    (connection.handleConnectServer error now).undefined = false ∧
      Phase (connection.handleConnectServer error now) := by
  intro connection
  unfold handleConnectServer
  split_ifs with isError
  · refine closed_stop defined rfl (.inl active) (fun side => ?_) fun atEnd side => ?_
    · obtain ⟨-, -, nothing⟩ := idle side
      change s.relayed side <+: _
      exact nothing ▸ List.nil_prefix
    · obtain ⟨string, continues⟩ :=
        (Phase.connecting isConnecting active idle).sendable (ends atEnd) side
      refine ⟨string, fun filled isOpen => continues filled ?_⟩
      cases side with
      | client =>
        have unconnected : connected .server = true := isOpen
        rw [server, atEnd] at unconnected
        cases unconnected
      | server => exact client ▸ isOpen
  · refine ⟨defined, .relaying rfl active fun side => ⟨⟨.receive, none⟩, ?_, .inl ?_⟩⟩
    · obtain ⟨noneYet, -, -⟩ := idle side
      cases side <;>
        simp [doReadFromServer, doReadFromClient, doRead, push, noneYet, connection]
    · obtain ⟨-, nothing, nothing'⟩ := idle side
      change s.received side = s.relayed side ++ List.take 0 _
      rw [nothing, nothing']
      rfl

theorem take_fill (b : Buffer) {input : List UInt8} (fits : input.length ≤ bufSize) :
    (b.fill input).bytes.take input.length = input := by
  rw [Buffer.fill, List.take_take, Nat.min_eq_left fits, List.take_left]

/-- What is received is the next chunk. -/
theorem relays_receive {i : ℕ} {bytes : List UInt8} (relays : ∀ side, Relays s side)
    (found : (s.pending origin)[i]? = some ⟨.receive, none⟩) (fits : bytes.length ≤ bufSize)
    (side : Side) : Relays (s.receive origin i bytes) side := by
  rcases eq_or_ne side origin with rfl | differ
  · obtain ⟨p, one, chunk⟩ := relays side
    obtain ⟨rfl, rfl⟩ := eq_of_getElem?_singleton (one ▸ found)
    have whole : s.received side = s.relayed side ++ [] := chunk.resolve_right (by simp [Short])
    refine ⟨⟨.receive, some (.done bytes.length)⟩, by simp [receive, setOutcome, one], .inl ?_⟩
    simp only [receive, setOutcome, Function.update_self, left, take_fill _ fits, whole,
      List.append_nil]
  · exact (relays side).congr (by simp [receive, setOutcome, Function.update_of_ne differ])
      (by simp [receive, setOutcome, Function.update_of_ne differ])
      (by simp [receive, setOutcome, Function.update_of_ne differ]) rfl

theorem relays_send {i n size : ℕ} (relays : ∀ side, Relays s side)
    (found : (s.pending origin)[i]? = some ⟨.send size, none⟩) (fits : n ≤ size) (side : Side) :
    Relays ((s.transmit origin n).setOutcome origin i ⟨.send size, some (.done n)⟩) side := by
  rcases eq_or_ne side origin with rfl | differ
  · obtain ⟨p, one, chunk⟩ := relays side
    obtain ⟨rfl, rfl⟩ := eq_of_getElem?_singleton (one ▸ found)
    have whole := chunk.resolve_right (by simp [Short])
    exact relays_transmit fits whole (by simp [setOutcome, transmit, one]) rfl
      (by simp [setOutcome, transmit])
  · exact (relays side).congr (by simp [transmit, setOutcome, Function.update_of_ne differ]) rfl
      rfl (by simp [transmit, setOutcome, Function.update_of_ne differ])

/-- An operation that fails leaves its chunk as it is. -/
theorem relays_fail {i error : ℕ} {operation : Operation} (relays : ∀ side, Relays s side)
    (found : (s.pending origin)[i]? = some ⟨operation, none⟩) (isError : error ≠ noError)
    (side : Side) :
    Relays (s.setOutcome origin i ⟨operation, some (.failed error isError)⟩) side := by
  rcases eq_or_ne side origin with rfl | differ
  · obtain ⟨p, one, chunk⟩ := relays side
    obtain ⟨rfl, rfl⟩ := eq_of_getElem?_singleton (one ▸ found)
    have whole := chunk.resolve_right (by cases operation <;> simp [Short])
    refine ⟨⟨operation, some (.failed error isError)⟩, by simp [setOutcome, one], .inl ?_⟩
    cases operation <;> exact whole
  · exact (relays side).congr (by simp [setOutcome, Function.update_of_ne differ]) rfl rfl rfl

/-- While the server is connected to, no buffer has an operation. -/
theorem not_idle {i : ℕ} {p : Pending} (found : (s.pending origin)[i]? = some p) :
    ¬ ∀ side, s.pending side = [] ∧ s.received side = [] ∧ s.relayed side = [] := by
  intro idle
  rw [(idle origin).1] at found
  cases found

theorem phase_step {a : Action} (defined : s.undefined = false) (phase : Phase s)
    (stepped : s.step a = some t) (regular : Regular s a) : t.undefined = false ∧ Phase t := by
  unfold step at stepped
  rw [if_neg (by simp [defined])] at stepped
  cases a with
  | connect error now =>
    obtain ⟨isConnecting, same⟩ := Option.ite_none_right_eq_some.mp stepped
    cases same
    cases phase with
    | connecting _ active idle =>
      exact connect_connecting defined active isConnecting idle regular _
        (Function.update_of_ne (by simp) ..) (Function.update_self ..)
    | relaying connecting _ _ => simp [connecting] at isConnecting
    | closed connecting _ _ _ => simp [connecting] at isConnecting
  | receive origin i bytes =>
    obtain ⟨⟨found, connected, fits⟩, same⟩ := Option.ite_none_right_eq_some.mp stepped
    cases same
    cases phase with
    | connecting _ _ idle => exact absurd idle (not_idle found)
    | relaying connecting active relays =>
      exact ⟨defined, .relaying connecting active (relays_receive relays found fits)⟩
    | closed _ _ disconnected _ => cases (disconnected origin).symm.trans connected
  | send origin i n =>
    dsimp only at stepped
    split at stepped
    · next size found =>
      obtain ⟨⟨connected, fits⟩, same⟩ := Option.ite_none_right_eq_some.mp stepped
      cases same
      cases phase with
      | connecting _ _ idle => exact absurd idle (not_idle found)
      | relaying connecting active relays =>
        exact ⟨defined, .relaying connecting active (relays_send relays found fits)⟩
      | closed _ _ disconnected _ => cases (disconnected _).symm.trans connected
    · cases stepped
  | fail origin i error =>
    dsimp only at stepped
    split at stepped
    · next operation found =>
      split_ifs at stepped with isError
      cases stepped
      cases phase with
      | connecting _ _ idle => exact absurd idle (not_idle found)
      | relaying connecting active relays =>
        exact ⟨defined, .relaying connecting active (relays_fail relays found isError)⟩
      | closed connecting inactive disconnected faithful =>
        exact ⟨defined, .closed connecting inactive disconnected faithful⟩
    · cases stepped
  | complete origin i now =>
    dsimp only at stepped
    split at stepped
    · next operation outcome found =>
      cases stepped
      cases phase with
      | connecting _ _ idle => exact absurd idle (not_idle found)
      | relaying connecting active relays =>
        exact complete_relaying defined connecting active relays found regular
      | closed connecting inactive disconnected faithful =>
        exact complete_closed defined connecting inactive disconnected faithful found regular
    · cases stepped

/-! ## Runs -/

/-- The server is being connected to. -/
def opening (buffer : Side → Buffer) : Connection := (newInstance buffer).start

/-- Every run whose steps are regular relays faithfully, whatever the buffers held at first. -/
theorem faithful_of_regular (buffer : Side → Buffer) (actions : List Action)
    (regular : Guarded step Regular (opening buffer) actions) :
    Throughout step Faithful (opening buffer) actions := by
  refine throughout_of_guarded (I := fun s => s.undefined = false ∧ Phase s) ?_ ?_ regular ?_
  · exact fun s ⟨defined, phase⟩ => ⟨defined, phase.faithful⟩
  · exact fun s a t stepped ⟨defined, phase⟩ regular => phase_step defined phase stepped regular
  · exact ⟨rfl, .connecting rfl rfl fun _ => ⟨rfl, rfl, rfl⟩⟩

/-- A send that has to wait. -/
def later : AtOnce := fun _ => none

/-- The client sends two bytes and closes. -/
def request : List Action :=
  [.connect noError later, .receive .client 0 [71, 10], .complete .client 0 later, .send .client 0 2,
    .complete .client 0 later, .fail .client 0 eof, .complete .client 0 later]

theorem faithful_request : Throughout step Faithful (opening fun _ => .zeros) request := by
  apply faithful_of_regular
  have string : 0 ∈ Buffer.zeros.bytes := by simp [Buffer.zeros]
  refine ⟨fun wrong => absurd wrong (by decide), fun _ connected => ?_⟩
  cases connected
  refine ⟨trivial, fun _ received => ?_⟩
  cases received
  refine ⟨Nat.succ_ne_zero _, fun _ handled => ?_⟩
  cases handled
  refine ⟨trivial, fun _ sent => ?_⟩
  cases sent
  refine ⟨rfl, fun _ handled => ?_⟩
  cases handled
  refine ⟨trivial, fun _ failed => ?_⟩
  cases failed
  refine ⟨fun _ side => ?_, fun _ _ => trivial⟩
  cases side <;> exact ⟨string, fun filled => absurd rfl filled⟩

/-- A send transmits one byte of two, and the handler does not look. -/
def shortSend : List Action :=
  [.connect noError later, .receive .client 0 [1, 2], .complete .client 0 later, .send .client 0 1,
    .complete .client 0 later, .receive .client 0 [3], .complete .client 0 later, .send .client 0 1]

/-- The client closes before the server has sent anything. -/
def earlyEnd : List Action :=
  [.connect noError later, .fail .client 0 eof, .complete .client 0 fun _ => some 1]

/-- A buffer that still holds what was in memory before. -/
def garbage : Buffer := ⟨7 :: List.replicate 1023 0, congrArg (· + 1) List.length_replicate⟩

theorem faithful_fails :
    (∃ t, run step (opening fun _ => .zeros) shortSend = some t ∧ ¬ Faithful t) ∧
      ∃ t, run step (opening fun _ => garbage) earlyEnd = some t ∧ ¬ Faithful t := by
  refine ⟨⟨_, rfl, fun faithful => ?_⟩, ⟨_, rfl, fun faithful => ?_⟩⟩
  · have relayed : ([1, 3] : List UInt8) <+: [1, 2, 3] := faithful.2 .client
    exact absurd relayed (by decide)
  · have relayed : ([7] : List UInt8) <+: [] := faithful.2 .server
    exact absurd relayed (by decide)

end SphereMultithreading.Soundness.P3
