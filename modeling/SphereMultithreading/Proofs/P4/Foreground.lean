import SphereMultithreading.Machine.Run
import SphereMultithreading.Proofs.P4.Pipes

/-! # The steps of the shell and its child

What is still to happen is written down as a relation between the operands that are left, the streams and
what these are in the end, with the number of steps that takes. Each step, whoever takes it, does one of
them.
-/

namespace SphereMultithreading.Model.P4

open Machine Machine.Pipelines

/-! ## Streams -/

namespace Streams

variable {i o : Channel}

/-- What is read from the one is not written to the other. -/
def Apart (i o : Channel) : Prop := ∀ pipe, i = .readEnd pipe → o ≠ .writeEnd pipe

theorem leave_pending (s : Streams) (channel : Channel) : s.leave channel (s.pending channel) = s := by
  cases channel with
  | terminal => rfl
  | readEnd pipe => rw [leave, pending, Function.update_eq_self]
  | writeEnd => rfl

theorem leave_leave (s : Streams) (channel : Channel) (bytes bytes' : List UInt8) :
    (s.leave channel bytes).leave channel bytes' = s.leave channel bytes' := by
  cases channel with
  | terminal => rfl
  | readEnd pipe => simp only [leave, Function.update_idem]
  | writeEnd => rfl

theorem emit_nil (s : Streams) (channel : Channel) : s.emit channel [] = s := by
  cases channel with
  | terminal => simp only [emit, List.append_nil]
  | readEnd => rfl
  | writeEnd pipe => simp only [emit, List.append_nil, Function.update_eq_self]

theorem emit_emit (s : Streams) (channel : Channel) (bytes bytes' : List UInt8) :
    (s.emit channel bytes).emit channel bytes' = s.emit channel (bytes ++ bytes') := by
  cases channel with
  | terminal => simp only [emit, List.append_assoc]
  | readEnd => rfl
  | writeEnd pipe => simp only [emit, Function.update_self, Function.update_idem, List.append_assoc]

/-- Reading leaves what is read. -/
theorem pending_leave (s : Streams) (readable : ∀ pipe, i ≠ .writeEnd pipe) (bytes : List UInt8) :
    (s.leave i bytes).pending i = bytes := by
  cases i with
  | terminal => rfl
  | readEnd pipe => exact Function.update_self ..
  | writeEnd pipe => exact absurd rfl (readable pipe)

section Apart

variable (apart : Apart i o) (s : Streams) (bytes bytes' : List UInt8)

include apart

theorem pending_emit : (s.emit o bytes).pending i = s.pending i := by
  cases o with
  | terminal => cases i <;> rfl
  | readEnd => rfl
  | writeEnd pipe =>
    cases i with
    | terminal => rfl
    | readEnd other =>
      have differ : other ≠ pipe := fun same => apart other rfl (same ▸ rfl)
      exact Function.update_of_ne differ ..
    | writeEnd => rfl

theorem leave_emit : (s.emit o bytes).leave i bytes' = (s.leave i bytes').emit o bytes := by
  cases o with
  | terminal => cases i <;> rfl
  | readEnd => rfl
  | writeEnd pipe =>
    cases i with
    | terminal => rfl
    | readEnd other =>
      have differ : other ≠ pipe := fun same => apart other rfl (same ▸ rfl)
      simp only [leave, emit, Function.update_of_ne differ.symm]
      rw [Function.update_comm differ]
    | writeEnd => rfl

end Apart

end Streams

/-- Who reads from the channel comes to its end. -/
def Ended (fed : Finset ℕ) : Channel → Prop
  | .readEnd pipe => pipe ∈ fed
  | _ => True

/-- There is room for the bytes. -/
def Fits (capacity : ℕ) (s : Streams) : Channel → List UInt8 → Prop
  | .writeEnd pipe, bytes => bytes ≠ [] → (s.pipes pipe).length + bytes.length ≤ capacity
  | _, _ => True

theorem fits_nil (capacity : ℕ) (s : Streams) (channel : Channel) : Fits capacity s channel [] := by
  cases channel with
  | terminal => trivial
  | readEnd => trivial
  | writeEnd => exact fun nonempty => absurd rfl nonempty

theorem fits_cons {capacity : ℕ} {s : Streams} {channel : Channel} {x : UInt8} {bytes : List UInt8} :
    Fits capacity s channel (x :: bytes) ↔
      Fits capacity s channel [x] ∧ Fits capacity (s.emit channel [x]) channel bytes := by
  cases channel with
  | terminal => exact (and_self_iff).symm
  | readEnd => exact (and_self_iff).symm
  | writeEnd pipe =>
    simp only [Fits, Streams.emit, Function.update_self, List.length_append, List.length_cons,
      List.length_nil, ne_eq, reduceCtorEq, not_false_eq_true, forall_const]
    constructor
    · intro fits
      exact ⟨by omega, fun _ => by omega⟩
    · rintro ⟨one, others⟩
      cases bytes with
      | nil => exact one
      | cons y bytes =>
        have := others (List.cons_ne_nil _ _)
        omega

theorem fits_leave {capacity : ℕ} {s : Streams} {i o : Channel} (apart : Streams.Apart i o)
    {bytes bytes' : List UInt8} :
    Fits capacity (s.leave i bytes) o bytes' ↔ Fits capacity s o bytes' := by
  cases o with
  | terminal => exact Iff.rfl
  | readEnd => exact Iff.rfl
  | writeEnd pipe =>
    cases i with
    | terminal => exact Iff.rfl
    | readEnd other =>
      have differ : pipe ≠ other := fun same => apart other rfl (same ▸ rfl)
      simp only [Fits, Streams.leave, Function.update_of_ne differ]
    | writeEnd => exact Iff.rfl

/-! ## What is still to happen -/

/-- Programs and a line that is built, and what is to be left of the input, the output and the status. -/
structure Plan (σ : Type) where
  capacity : ℕ
  start : Command → σ
  next : σ → Request σ UInt8 Status
  w : Wiring
  rest : List UInt8
  output : List UInt8
  final : Status

namespace Plan

variable {σ : Type} (p : Plan σ)

/-- So many steps execute the operands that are left. The commands at some places have been executed. -/
inductive Executes : ℕ → Loop → Status → List Operand → Finset ℕ → Streams → Prop
  | nil {loop : Loop} {fed : Finset ℕ} {s : Streams} (input : s.input = p.rest)
      (written : s.output = p.output) : Executes 0 loop p.final [] fed s
  | turn {n : ℕ} {loop loop' : Loop} {status : Status} {operands operands' : List Operand}
      {fed : Finset ℕ} {s : Streams} (turned : advanceLoop loop status operands = some (loop', operands'))
      (later : Executes n loop' status operands' fed s) : Executes (n + 1) loop status operands fed s
  | command {n m : ℕ} {earlier status : Status} {c : Command} {operands : List Operand}
      {fed : Finset ℕ} {s : Streams} {left bytes : List UInt8}
      (ran : Runs p.next (Ended fed (p.w.inChannel c.place)) n (p.start c)
        (s.pending (p.w.inChannel c.place)) left bytes status)
      (fits : Fits p.capacity s (p.w.outChannel c.place) bytes)
      (later : Executes m .outer status operands (insert c.place fed)
        ((s.leave (p.w.inChannel c.place) left).emit (p.w.outChannel c.place) bytes)) :
      Executes ((p.w.build.members c.place).fds.length + (n + m) + 2) .outer earlier
        (.cmd c :: operands) fed s

/-- What a child is still to do. -/
def Leaves (ends : Prop) (n : ℕ) : Running σ → List UInt8 → List UInt8 → List UInt8 → Status → Prop
  | .program state, input, left, bytes, status => Runs p.next ends n state input left bytes status
  | .ended status', input, left, bytes, status =>
      n = 0 ∧ left = input ∧ bytes = [] ∧ status' = status

/-- So many steps of the child and of what comes behind it. -/
def Delivers (n : ℕ) (fed : Finset ℕ) (c : Command) (running : Running σ) (s : Streams)
    (operands : List Operand) : Prop :=
  ∃ k m left bytes status, n = k + m ∧
    p.Leaves (Ended fed (p.w.inChannel c.place)) k running (s.pending (p.w.inChannel c.place)) left bytes
      status ∧
    Fits p.capacity s (p.w.outChannel c.place) bytes ∧
    p.Executes m .outer status operands (insert c.place fed)
      ((s.leave (p.w.inChannel c.place) left).emit (p.w.outChannel c.place) bytes)

variable {p} {n : ℕ} {fed : Finset ℕ} {c : Command} {s : Streams}
  {operands operands' : List Operand} {status status' : Status} {state state' : σ} {x : UInt8}
  {bytes : List UInt8} {k : Option UInt8 → σ}

theorem executes_nil {loop : Loop} :
    p.Executes n loop status [] fed s ↔
      n = 0 ∧ s.input = p.rest ∧ s.output = p.output ∧ status = p.final := by
  constructor
  · intro executes
    cases executes with
    | nil input written => exact ⟨rfl, input, written, rfl⟩
    | turn turned => cases loop <;> cases turned
  · rintro ⟨rfl, input, written, rfl⟩
    exact .nil input written

theorem executes_turn {loop loop' : Loop}
    (turned : advanceLoop loop status operands = some (loop', operands')) :
    p.Executes (n + 1) loop status operands fed s ↔
      p.Executes n loop' status operands' fed s := by
  constructor
  · intro executes
    cases executes with
    | turn turned' later =>
      cases turned.symm.trans turned'
      exact later
    | command => cases turned
  · exact .turn turned

theorem executes_command : p.Executes n .outer status'
      (.cmd c :: operands) fed s ↔
    ∃ m, n = (p.w.build.members c.place).fds.length + m + 2 ∧
      p.Delivers m fed c (.program (p.start c)) s operands := by
  constructor
  · intro executes
    cases executes with
    | turn turned => cases turned
    | command ran fits later => exact ⟨_, rfl, _, _, _, _, _, rfl, ran, fits, later⟩
  · rintro ⟨m, rfl, k, m', left, bytes, status, rfl, ran, fits, later⟩
    exact .command ran fits later

theorem delivers_ended : p.Delivers n fed c (.ended status) s operands ↔
    p.Executes n .outer status operands (insert c.place fed) s := by
  constructor
  · rintro ⟨k, m, left, bytes, status, rfl, ⟨rfl, rfl, rfl, rfl⟩, -, later⟩
    rwa [Streams.leave_pending, Streams.emit_nil, ← Nat.zero_add m] at later
  · intro later
    refine ⟨0, n, s.pending (p.w.inChannel c.place), [], status, (Nat.zero_add n).symm,
      ⟨rfl, rfl, rfl, rfl⟩, fits_nil .., ?_⟩
    rwa [Streams.leave_pending, Streams.emit_nil]

/-! ## The steps of a child -/

theorem not_delivers_zero :
    ¬ p.Delivers 0 fed c (.program state) s operands := by
  rintro ⟨k, m, left, bytes, status, none, ran, -⟩
  obtain rfl : k = 0 := by omega
  cases ran

theorem delivers_exit (here : p.next state = .exit status) :
    p.Delivers (n + 1) fed c (.program state) s operands ↔
      p.Delivers n fed c (.ended status) s operands := by
  constructor
  · rintro ⟨k, m, left, bytes, status', count, ran, fits, later⟩
    obtain ⟨rfl, rfl, rfl, rfl⟩ := (runs_exit here).mp ran
    exact ⟨0, m, _, _, _, by omega, ⟨rfl, rfl, rfl, rfl⟩, fits, later⟩
  · rintro ⟨k, m, left, bytes, status', count, ⟨rfl, rfl, rfl, rfl⟩, fits, later⟩
    exact ⟨1, m, _, _, _, by omega, .exit here, fits, later⟩

theorem delivers_write (apart : Streams.Apart (p.w.inChannel c.place) (p.w.outChannel c.place))
    (here : p.next state = .write x state') :
    p.Delivers (n + 1) fed c (.program state) s operands ↔
      Fits p.capacity s (p.w.outChannel c.place) [x] ∧
        p.Delivers n fed c (.program state')
          (s.emit (p.w.outChannel c.place) [x]) operands := by
  constructor
  · rintro ⟨k, m, left, bytes, status, count, ran, fits, later⟩
    obtain ⟨k, bytes, rfl, rfl, ran⟩ := (runs_write here).mp ran
    obtain ⟨one, others⟩ := fits_cons.mp fits
    refine ⟨one, k, m, left, bytes, status, by omega, ?_, others, ?_⟩
    · rwa [Streams.pending_emit apart]
    · rwa [Streams.leave_emit apart, Streams.emit_emit]
  · rintro ⟨one, k, m, left, bytes, status, rfl, ran, others, later⟩
    rw [Streams.pending_emit apart] at ran
    rw [Streams.leave_emit apart, Streams.emit_emit] at later
    exact ⟨k + 1, m, left, x :: bytes, status, by omega, .write here ran, fits_cons.mpr ⟨one, others⟩, later⟩

theorem delivers_read (apart : Streams.Apart (p.w.inChannel c.place) (p.w.outChannel c.place))
    (readable : ∀ pipe, p.w.inChannel c.place ≠ .writeEnd pipe) (here : p.next state = .read k)
    (more : s.pending (p.w.inChannel c.place) = x :: bytes) :
    p.Delivers (n + 1) fed c (.program state) s operands ↔
      p.Delivers n fed c (.program (k (some x)))
        (s.leave (p.w.inChannel c.place) bytes) operands := by
  constructor
  · rintro ⟨l, m, left, written, status, count, ran, fits, later⟩
    rw [more] at ran
    obtain ⟨l, rfl, ran⟩ := (runs_read here).mp ran
    refine ⟨l, m, left, written, status, by omega, ?_, (fits_leave apart).mpr fits, ?_⟩
    · rwa [Streams.pending_leave s readable]
    · rwa [Streams.leave_leave]
  · rintro ⟨l, m, left, written, status, rfl, ran, fits, later⟩
    rw [Streams.pending_leave s readable] at ran
    rw [Streams.leave_leave] at later
    refine ⟨l + 1, m, left, written, status, by omega, ?_, (fits_leave apart).mp fits, later⟩
    rw [more]
    exact .read here ran

theorem delivers_endOfFile (here : p.next state = .read k) (none : s.pending (p.w.inChannel c.place) = []) :
    p.Delivers (n + 1) fed c (.program state) s operands ↔
      Ended fed (p.w.inChannel c.place) ∧
        p.Delivers n fed c (.program (k Option.none)) s operands := by
  constructor
  · rintro ⟨l, m, left, written, status, count, ran, fits, later⟩
    rw [none] at ran
    obtain ⟨l, rfl, ended, ran⟩ := (runs_endOfFile here).mp ran
    refine ⟨ended, l, m, left, written, status, by omega, ?_, fits, later⟩
    rwa [none]
  · rintro ⟨ended, l, m, left, written, status, rfl, ran, fits, later⟩
    rw [none] at ran
    refine ⟨l + 1, m, left, written, status, by omega, ?_, fits, later⟩
    rw [none]
    exact .endOfFile ended here ran

end Plan

/-! ## The states of a run -/

/-- The commands that are left stand behind those that were executed. -/
def Ahead (fed : Finset ℕ) : List Operand → Prop
  | [] => True
  | .cmd c :: operands => (∀ place ∈ fed, place < c.place) ∧ Ahead (insert c.place fed) operands
  | .op _ :: operands => Ahead fed operands

theorem Ahead.mono {fed fed' : Finset ℕ} {operands : List Operand} (fewer : fed ⊆ fed')
    (ahead : Ahead fed' operands) : Ahead fed operands := by
  induction operands generalizing fed fed' with
  | nil => trivial
  | cons operand operands ih =>
    cases operand with
    | cmd c =>
      exact ⟨fun place member => ahead.1 place (fewer member), ih (Finset.insert_subset_insert _ fewer) ahead.2⟩
    | op name => exact ih fewer ahead

theorem Ahead.advance {fed : Finset ℕ} {operands operands' : List Operand} {loop loop' : Loop}
    {status : Status} (ahead : Ahead fed operands)
    (turned : advanceLoop loop status operands = some (loop', operands')) : Ahead fed operands' := by
  cases operands with
  | nil => cases loop <;> cases turned
  | cons operand operands =>
    cases operand with
    | cmd c =>
      cases loop with
      | outer => cases turned
      | inner name =>
        cases turned
        exact ahead.2.mono (Finset.subset_insert ..)
    | op name => cases loop <;> cases turned <;> exact ahead

/-- The parent of a command, with descriptors of it still to be closed, and its child, which has what the
command was given. -/
def parentOf {σ : Type} (w : Wiring) (fed : Finset ℕ) (c : Command) (fds : List ℕ)
    (operands : List Operand) (running : Running σ) (streams : Streams) : Foreground σ :=
  ⟨.parent c fds operands, ⟨w.left (insert c.place fed) ∪ fds.toFinset, w.channel⟩,
    some ⟨w.childFiles fed c.place, running⟩, streams⟩

/-- A state of a run, with the places of the commands that were executed. -/
inductive Sane {σ : Type} (w : Wiring) : Finset ℕ → Foreground σ → Prop
  | run {fed : Finset ℕ} {loop : Loop} {status : Status} {operands : List Operand} {streams : Streams}
      (ahead : Ahead fed operands) :
      Sane w fed ⟨.run loop status operands, ⟨w.left fed, w.channel⟩, none, streams⟩
  | parent {fed : Finset ℕ} {c : Command} {fds : List ℕ} {operands : List Operand}
      {running : Running σ} {streams : Streams} (above : ∀ place ∈ fed, place < c.place)
      (unclosed : fds <:+ (w.build.members c.place).fds) (ahead : Ahead (insert c.place fed) operands) :
      Sane w fed (parentOf w fed c fds operands running streams)

section Steps

open Foreground

variable {σ : Type} {before fed : Finset ℕ} {w : Wiring} (wired : w.Wired before)
  (standard : 0 ∈ before ∧ 1 ∈ before)

theorem apart_channels {w : Wiring} {before : Finset ℕ} (wired : w.Wired before) (place : ℕ) :
    Streams.Apart (w.inChannel place) (w.outChannel place) := by
  intro pipe reads writes
  rw [Wiring.inChannel] at reads
  rw [Wiring.outChannel] at writes
  split at reads
  · next some =>
    obtain ⟨fd, has⟩ := Option.isSome_iff_exists.mp some
    have above := (wired.input place fd has).1
    have := Channel.readEnd.inj reads
    split at writes
    · have := Channel.writeEnd.inj writes
      omega
    · cases writes
  · cases reads

theorem outChannel_ne_readEnd (w : Wiring) (place pipe : ℕ) : w.outChannel place ≠ .readEnd pipe := by
  rw [Wiring.outChannel]
  split <;> exact Channel.noConfusion

theorem inChannel_ne_writeEnd (w : Wiring) (place pipe : ℕ) : w.inChannel place ≠ .writeEnd pipe := by
  rw [Wiring.inChannel]
  split <;> exact Channel.noConfusion

theorem Files.Connects.mono {table table' : Finset ℕ} {channels : ℕ → Channel} {channel : Channel}
    (fewer : table ⊆ table') (connects : (⟨table, channels⟩ : Files).Connects channel) :
    (⟨table', channels⟩ : Files).Connects channel := by
  obtain ⟨fd, opened, connected⟩ := connects
  exact ⟨fd, fewer opened, connected⟩

section Parent

variable {c : Command} {fds : List ℕ} {operands : List Operand} {streams : Streams}
  {running : Running σ}

variable (above : ∀ place ∈ fed, place < c.place) (unclosed : fds <:+ (w.build.members c.place).fds)

include above

theorem notMem_fed : c.place ∉ fed := fun member => (above c.place member).false

include wired

/-- What it writes can be read by the command behind it. -/
theorem connected_reader {pipe : ℕ} (writes : w.outChannel c.place = .writeEnd pipe) :
    (parentOf w fed c fds operands running streams).Connected (w.childFiles fed c.place)
      (.readEnd pipe) := by
  rw [Wiring.outChannel] at writes
  split at writes
  · next piped =>
    obtain rfl := Channel.writeEnd.inj writes
    have later : c.place + 2 ∉ insert c.place fed := by
      rw [Finset.mem_insert, not_or]
      refine ⟨by omega, fun member => ?_⟩
      have := above _ member
      omega
    exact .inl (Files.Connects.mono Finset.subset_union_left (wired.reads piped later))
  · cases writes

include unclosed

theorem table_subset : w.left (insert c.place fed) ∪ fds.toFinset ⊆ w.left fed := by
  apply Finset.union_subset
  · rw [Wiring.left_insert]
    exact Finset.filter_subset ..
  · intro fd member
    exact wired.mem_left_of_fds (unclosed.subset (List.mem_toFinset.mp member))
      (notMem_fed above)

/-- A command finds its input at an end as soon as the command before it has been executed. -/
theorem awaits_iff : (parentOf w fed c fds operands running streams).Awaits (w.childFiles fed c.place)
    (w.inChannel c.place) ↔ ¬ Ended fed (w.inChannel c.place) := by
  rw [Wiring.inChannel]
  split
  · next piped =>
    obtain ⟨fd, has⟩ := Option.isSome_iff_exists.mp piped
    have behind := (wired.input c.place fd has).1
    have joined := wired.joined (c.place - 2)
    rw [Nat.sub_add_cancel behind] at joined
    constructor
    · rintro (shell | child) executed
      · exact wired.not_writes _ executed (Files.Connects.mono (table_subset wired above unclosed) shell)
      · exact wired.not_writes _ executed (wired.connects_childFiles (notMem_fed above) child)
    · intro new
      have later : c.place - 2 ∉ insert c.place fed := by
        rw [Finset.mem_insert, not_or]
        exact ⟨by omega, new⟩
      exact .inl (Files.Connects.mono Finset.subset_union_left (wired.writes (joined.mpr piped) later))
  · exact ⟨False.elim, fun absurd => absurd trivial⟩

end Parent

/-! ## Reading and writing -/

section Child

variable {capacity : ℕ} {s t : Foreground σ} {files : Files} {channel : Channel} {x : UInt8}
  {state : σ} {k : Option UInt8 → σ}

theorem write_eq_some (found : files.lookup 1 = some channel) (writable : ∀ pipe, channel ≠ .readEnd pipe)
    (heard : ∀ pipe, channel = .writeEnd pipe → s.Connected files (.readEnd pipe)) :
    s.write capacity files x state = some t ↔ Fits capacity s.streams channel [x] ∧
      (s.setStreams (s.streams.emit channel [x])).setRunning files (.program state) = t := by
  rw [write, found]
  cases channel with
  | terminal => exact Option.some_inj.trans (iff_of_eq (true_and _)).symm
  | readEnd pipe => exact absurd rfl (writable pipe)
  | writeEnd pipe =>
    dsimp only
    rw [if_pos (heard pipe rfl), Option.ite_none_right_eq_some, Option.some_inj]
    exact and_congr_left fun _ => ⟨fun room _ => room, fun fits => fits (List.cons_ne_nil _ _)⟩

theorem read_eq_some (found : files.lookup 0 = some channel)
    (readable : ∀ pipe, channel ≠ .writeEnd pipe) :
    s.read files k = some t ↔
      (∃ x bytes, s.streams.pending channel = x :: bytes ∧
        (s.setStreams (s.streams.leave channel bytes)).setRunning files (.program (k (some x))) = t) ∨
      s.streams.pending channel = [] ∧ ¬ s.Awaits files channel ∧
        s.setRunning files (.program (k none)) = t := by
  rw [Foreground.read, found]
  cases channel with
  | writeEnd pipe => exact absurd rfl (readable pipe)
  | terminal =>
    dsimp only
    cases s.streams.pending .terminal with
    | nil => simp
    | cons x bytes => simp
  | readEnd pipe =>
    dsimp only
    cases s.streams.pending (.readEnd pipe) with
    | nil => simp
    | cons x bytes => simp

section Program

variable {next : σ → Request σ UInt8 Status} (running : s.child = some ⟨files, .program state⟩)

include running

theorem childStep_read (here : next state = .read k) : s.childStep capacity next = s.read files k := by
  rw [childStep, running]
  dsimp only
  rw [here]

theorem childStep_write {state' : σ} (here : next state = .write x state') :
    s.childStep capacity next = s.write capacity files x state' := by
  rw [childStep, running]
  dsimp only
  rw [here]

theorem childStep_exit {status : Status} (here : next state = .exit status) :
    s.childStep capacity next = some (s.setRunning files (.ended status)) := by
  rw [childStep, running]
  dsimp only
  rw [here]

end Program

end Child

end Steps

/-! ## One step -/

namespace Plan

open Foreground

variable {σ : Type} {p : Plan σ} {before fed : Finset ℕ} {n : ℕ} {s t : Foreground σ}

/-- A step in the run of the line. -/
def step (p : Plan σ) (s : Foreground σ) (turn : Turn) : Option (Foreground σ) :=
  s.step p.capacity p.start p.next p.w.build.members turn

/-- So many steps are left. -/
def Promises (p : Plan σ) (n : ℕ) (fed : Finset ℕ) (s : Foreground σ) : Prop :=
  match s.phase, s.child with
  | .run loop status operands, _ => p.Executes n loop status operands fed s.streams
  | .parent c fds operands, some child =>
      ∃ m, n = fds.length + m + 1 ∧ p.Delivers m fed c child.running s.streams operands
  | .parent .., none => False

theorem promises_parentOf {c : Command} {fds : List ℕ} {operands : List Operand} {running : Running σ}
    {streams : Streams} : p.Promises n fed (parentOf p.w fed c fds operands running streams) ↔
      ∃ m, n = fds.length + m + 1 ∧ p.Delivers m fed c running streams operands :=
  Iff.rfl

section Parent

variable (wired : p.w.Wired before) (standard : 0 ∈ before ∧ 1 ∈ before) {c : Command} {fds : List ℕ}
  {operands : List Operand} {running : Running σ} {streams : Streams}
  (above : ∀ place ∈ fed, place < c.place) (unclosed : fds <:+ (p.w.build.members c.place).fds)

include wired standard above unclosed

/-- A step of the child's program is one of those it is to take. -/
theorem childStep_parentOf
    (stepped : p.step (parentOf p.w fed c fds operands running streams) .child = some t) :
    ∃ running' streams', parentOf p.w fed c fds operands running' streams' = t ∧
      ∀ n, p.Delivers n fed c running' streams' operands ↔
        p.Delivers (n + 1) fed c running streams operands := by
  have apart := apart_channels wired c.place
  have readable := inChannel_ne_writeEnd p.w c.place
  obtain ⟨zero, one⟩ : (p.w.childFiles fed c.place).lookup 0 = some (p.w.inChannel c.place) ∧
      (p.w.childFiles fed c.place).lookup 1 = some (p.w.outChannel c.place) :=
    wired.lookup_childFiles standard
  cases running with
  | ended status => cases stepped
  | program state =>
    change childStep p.capacity p.next (parentOf p.w fed c fds operands (.program state) streams) =
      some t at stepped
    cases here : p.next state with
    | read k =>
      rw [childStep_read rfl here] at stepped
      rcases (read_eq_some zero readable).mp stepped with ⟨x, bytes, more, rfl⟩ | ⟨none, ended, rfl⟩
      · exact ⟨_, _, rfl, fun n => (delivers_read apart readable here more).symm⟩
      · have ended := not_not.mp ((awaits_iff wired above unclosed).not.mp ended)
        exact ⟨_, _, rfl, fun n => ((delivers_endOfFile here none).trans (and_iff_right ended)).symm⟩
    | write x state' =>
      rw [childStep_write rfl here] at stepped
      have writable := outChannel_ne_readEnd p.w c.place
      obtain ⟨fits, rfl⟩ := (write_eq_some one writable fun pipe writes =>
        connected_reader wired above writes).mp stepped
      exact ⟨_, _, rfl, fun n => ((delivers_write apart here).trans (and_iff_right fits)).symm⟩
    | exit status =>
      rw [childStep_exit rfl here] at stepped
      obtain rfl := Option.some.inj stepped
      exact ⟨_, _, rfl, fun n => (delivers_exit here).symm⟩

/-- While something is left to be done, the child can go on or has ended. -/
theorem childStep_enabled {state : σ} {m : ℕ} (promised : p.Delivers m fed c (.program state) streams operands) :
    ∃ t, p.step (parentOf p.w fed c fds operands (.program state) streams) .child = some t := by
  have apart := apart_channels wired c.place
  have readable := inChannel_ne_writeEnd p.w c.place
  obtain ⟨zero, one⟩ : (p.w.childFiles fed c.place).lookup 0 = some (p.w.inChannel c.place) ∧
      (p.w.childFiles fed c.place).lookup 1 = some (p.w.outChannel c.place) :=
    wired.lookup_childFiles standard
  cases m with
  | zero => exact absurd promised not_delivers_zero
  | succ m =>
    change ∃ t, childStep p.capacity p.next (parentOf p.w fed c fds operands (.program state) streams) =
      some t
    cases here : p.next state with
    | read k =>
      rw [childStep_read rfl here]
      cases more : streams.pending (p.w.inChannel c.place) with
      | nil =>
        have ended := ((delivers_endOfFile here more).mp promised).1
        have free : ¬ (parentOf p.w fed c fds operands (.program state) streams).Awaits
            (p.w.childFiles fed c.place) (p.w.inChannel c.place) :=
          (awaits_iff wired above unclosed).not.mpr (not_not.mpr ended)
        exact ⟨_, (read_eq_some zero readable).mpr (.inr ⟨more, free, rfl⟩)⟩
      | cons x bytes => exact ⟨_, (read_eq_some zero readable).mpr (.inl ⟨x, bytes, more, rfl⟩)⟩
    | write x state' =>
      rw [childStep_write rfl here]
      have writable := outChannel_ne_readEnd p.w c.place
      have fits := ((delivers_write apart here).mp promised).1
      exact ⟨_, (write_eq_some one writable fun pipe writes =>
        connected_reader wired above writes).mpr ⟨fits, rfl⟩⟩
    | exit status => exact ⟨_, childStep_exit rfl here⟩

end Parent

section Shell

variable (wired : p.w.Wired before) {c : Command} {fds : List ℕ} {operands : List Operand}
  {status : Status} {streams : Streams} {running : Running σ}

include wired

/-- What the parent closes is what it forked the child with. -/
theorem left_eq_union (new : c.place ∉ fed) : p.w.left (insert c.place fed) ∪
    (p.w.build.members c.place).fds.toFinset = p.w.left fed := by
  rw [Wiring.left_insert]
  ext fd
  rw [Finset.mem_union, Finset.mem_filter, List.mem_toFinset]
  constructor
  · rintro (⟨member, -⟩ | holds)
    · exact member
    · exact wired.mem_left_of_fds holds new
  · intro member
    by_cases holds : fd ∈ (p.w.build.members c.place).fds
    · exact .inr holds
    · exact .inl ⟨member, holds⟩

theorem fork_eq (above : ∀ place ∈ fed, place < c.place) :
    p.step ⟨.run .outer status (.cmd c :: operands), ⟨p.w.left fed, p.w.channel⟩, none, streams⟩ .shell =
      some (parentOf p.w fed c (p.w.build.members c.place).fds operands (.program (p.start c)) streams) := by
  rw [parentOf, left_eq_union wired (notMem_fed above)]
  rfl

theorem close_eq {fd : ℕ} (unclosed : fd :: fds <:+ (p.w.build.members c.place).fds) :
    p.step (parentOf p.w fed c (fd :: fds) operands running streams) .shell =
      some (parentOf p.w fed c fds operands running streams) := by
  have once := (wired.nodup_fds c.place).sublist unclosed.sublist
  have closed : fd ∉ p.w.left (insert c.place fed) := by
    rw [Wiring.left_insert, Finset.mem_filter, not_and_not_right]
    exact fun _ => unclosed.subset (List.mem_cons_self ..)
  have table : (p.w.left (insert c.place fed) ∪ (fd :: fds).toFinset).erase fd =
      p.w.left (insert c.place fed) ∪ fds.toFinset := by
    rw [Finset.erase_union_distrib, Finset.erase_eq_of_notMem closed, List.toFinset_cons,
      Finset.erase_insert (fun member => (List.nodup_cons.mp once).1 (List.mem_toFinset.mp member))]
  rw [parentOf, parentOf, ← table]
  rfl

end Shell

theorem advance_eq {loop : Loop} {status : Status} {operands : List Operand} {files : Files}
    {streams : Streams} (turning : ∀ c rest, ¬ (loop = .outer ∧ operands = .cmd c :: rest)) :
    p.step ⟨.run loop status operands, files, none, streams⟩ .shell =
      (advanceLoop loop status operands).map fun (loop, rest) =>
        ⟨.run loop status rest, files, none, streams⟩ := by
  rcases loop with _ | name <;> rcases operands with _ | ⟨_ | _, rest⟩
  · rfl
  · exact absurd ⟨rfl, rfl⟩ (turning _ rest)
  · rfl
  · rfl
  · rfl
  · rfl

theorem promises_finished (sane : Sane p.w fed s) (input : s.streams.input = p.rest)
    (written : s.streams.output = p.output) (finished : s.Finished p.final) : p.Promises 0 fed s := by
  obtain ⟨loop, phase⟩ := finished
  cases sane with
  | run ahead =>
    cases phase
    exact .nil input written
  | parent => cases phase

/-- When no steps are left, none can be taken. -/
theorem promises_zero (promised : p.Promises 0 fed s) (sane : Sane p.w fed s) (turn : Turn) :
    p.step s turn = none := by
  cases sane with
  | @run loop status operands streams ahead =>
    change p.Executes 0 loop status operands fed streams at promised
    cases promised with
    | nil =>
      cases turn with
      | shell => cases loop <;> rfl
      | child => rfl
  | parent =>
    obtain ⟨m, count, -⟩ := promises_parentOf.mp promised
    cases count

section Kept

variable (wired : p.w.Wired before)

include wired

theorem shell_run {loop : Loop} {status : Status} {operands : List Operand} {streams : Streams}
    (ahead : Ahead fed operands)
    (stepped : p.step ⟨.run loop status operands, ⟨p.w.left fed, p.w.channel⟩, none, streams⟩ .shell =
      some t) :
    Sane p.w fed t ∧ ∀ n, p.Promises n fed t ↔ p.Executes (n + 1) loop status operands fed streams := by
  by_cases command : ∃ c rest, loop = .outer ∧ operands = .cmd c :: rest
  · obtain ⟨c, rest, rfl, rfl⟩ := command
    rw [fork_eq wired ahead.1] at stepped
    obtain rfl := Option.some.inj stepped
    refine ⟨.parent ahead.1 List.suffix_rfl ahead.2, fun n => ?_⟩
    refine promises_parentOf.trans (Iff.trans ?_ executes_command.symm)
    exact exists_congr fun m => and_congr_left fun _ => by omega
  · push Not at command
    rw [advance_eq fun c rest is => command c rest is.1 is.2] at stepped
    obtain ⟨⟨loop', rest⟩, turned, rfl⟩ := Option.map_eq_some_iff.mp stepped
    exact ⟨.run (ahead.advance turned), fun n => (executes_turn turned).symm⟩

section Parent

variable {c : Command} {fds : List ℕ} {operands : List Operand} {running : Running σ} {streams : Streams}
  (above : ∀ place ∈ fed, place < c.place) (unclosed : fds <:+ (p.w.build.members c.place).fds)
  (ahead : Ahead (insert c.place fed) operands)

include above unclosed ahead

theorem shell_parentOf
    (stepped : p.step (parentOf p.w fed c fds operands running streams) .shell = some t) :
    ∃ fed', Sane p.w fed' t ∧ ∀ n, p.Promises n fed' t ↔
      p.Promises (n + 1) fed (parentOf p.w fed c fds operands running streams) := by
  cases fds with
  | cons fd fds =>
    rw [close_eq wired unclosed] at stepped
    obtain rfl := Option.some.inj stepped
    refine ⟨fed, .parent above ((List.suffix_cons ..).trans unclosed) ahead, fun n => ?_⟩
    refine promises_parentOf.trans (Iff.trans ?_ promises_parentOf.symm)
    rw [List.length_cons]
    exact exists_congr fun m => and_congr_left fun _ => by omega
  | nil =>
    cases running with
    | program state => cases stepped
    | ended status =>
      obtain rfl := Option.some.inj stepped
      have files : (parentOf p.w fed c [] operands (.ended status : Running σ) streams).files =
          ⟨p.w.left (insert c.place fed), p.w.channel⟩ :=
        congrArg (Files.mk · _) (Finset.union_empty _)
      rw [files]
      refine ⟨insert c.place fed, .run ahead, fun n => ?_⟩
      refine Iff.trans delivers_ended.symm (Iff.trans ?_ promises_parentOf.symm)
      constructor
      · exact fun promised => ⟨n, by simp, promised⟩
      · rintro ⟨m, count, promised⟩
        obtain rfl : n = m := by simpa using count
        exact promised

theorem child_parentOf (standard : 0 ∈ before ∧ 1 ∈ before)
    (stepped : p.step (parentOf p.w fed c fds operands running streams) .child = some t) :
    Sane p.w fed t ∧ ∀ n, p.Promises n fed t ↔
      p.Promises (n + 1) fed (parentOf p.w fed c fds operands running streams) := by
  obtain ⟨running', streams', rfl, same⟩ := childStep_parentOf wired standard above unclosed stepped
  refine ⟨.parent above unclosed ahead, fun n => ?_⟩
  refine promises_parentOf.trans (Iff.trans ?_ promises_parentOf.symm)
  constructor
  · rintro ⟨m, rfl, promised⟩
    exact ⟨m + 1, by omega, (same m).mp promised⟩
  · rintro ⟨m, count, promised⟩
    cases m with
    | zero =>
      cases running with
      | ended => cases stepped
      | program => exact absurd promised not_delivers_zero
    | succ m => exact ⟨m, by omega, (same m).mpr promised⟩

end Parent

variable (standard : 0 ∈ before ∧ 1 ∈ before)

include standard

/-- Each step is one of those that are left. -/
theorem step_promises (sane : Sane p.w fed s) {turn : Turn} (stepped : p.step s turn = some t) :
    ∃ fed', Sane p.w fed' t ∧ ∀ n, p.Promises n fed' t ↔ p.Promises (n + 1) fed s := by
  cases sane with
  | run ahead =>
    cases turn with
    | shell => exact ⟨fed, shell_run wired ahead stepped⟩
    | child => cases stepped
  | parent above unclosed ahead =>
    cases turn with
    | shell => exact shell_parentOf wired above unclosed ahead stepped
    | child => exact ⟨fed, child_parentOf wired above unclosed ahead standard stepped⟩

/-- While steps are left, one can be taken, and when there are none the line is at its end. -/
theorem promises_progress (sane : Sane p.w fed s) (promised : p.Promises n fed s) :
    n = 0 ∧ s.Finished p.final ∧ s.streams.input = p.rest ∧ s.streams.output = p.output ∨
      ∃ turn t, p.step s turn = some t := by
  cases sane with
  | @run loop status operands streams ahead =>
    change p.Executes n loop status operands fed streams at promised
    cases promised with
    | nil input written => exact .inl ⟨rfl, ⟨loop, rfl⟩, input, written⟩
    | turn turned =>
      refine .inr ⟨.shell, _, (advance_eq ?_).trans (congrArg _ turned)⟩
      rintro c rest ⟨rfl, rfl⟩
      cases turned
    | command => exact .inr ⟨.shell, _, fork_eq wired ahead.1⟩
  | @parent c fds operands running streams above unclosed ahead =>
    obtain ⟨m, -, delivered⟩ := promises_parentOf.mp promised
    cases running with
    | program state =>
      obtain ⟨t, stepped⟩ := childStep_enabled wired standard above unclosed delivered
      exact .inr ⟨.child, t, stepped⟩
    | ended status =>
      cases fds with
      | nil => exact .inr ⟨.shell, _, rfl⟩
      | cons fd fds => exact .inr ⟨.shell, _, close_eq wired unclosed⟩

end Kept

/-! ## A whole run -/

section Runs

variable (wired : p.w.Wired before) (standard : 0 ∈ before ∧ 1 ∈ before) {turns : List Turn}

include wired standard

/-- A run takes steps that are left, one after the other. -/
theorem run_promises (sane : Sane p.w fed s) (success : Machine.run p.step s turns = some t) :
    ∃ fed', Sane p.w fed' t ∧ (∀ n, p.Promises n fed' t → p.Promises (n + turns.length) fed s) ∧
      ∀ n, p.Promises n fed s → ∃ m, n = m + turns.length ∧ p.Promises m fed' t := by
  induction turns generalizing s fed with
  | nil =>
    obtain rfl := Option.some.inj success
    exact ⟨fed, sane, fun n promised => promised, fun n promised => ⟨n, rfl, promised⟩⟩
  | cons turn turns ih =>
    obtain ⟨next, stepped, suffix⟩ := run_cons_eq_some.mp success
    obtain ⟨fed₁, sane₁, same⟩ := step_promises wired standard sane stepped
    obtain ⟨fed', sane', back, forth⟩ := ih sane₁ suffix
    refine ⟨fed', sane', fun n promised => ?_, fun n promised => ?_⟩
    · rw [List.length_cons, ← Nat.add_assoc, ← same]
      exact back n promised
    · cases n with
      | zero => cases (promises_zero promised sane turn).symm.trans stepped
      | succ n =>
        obtain ⟨m, rfl, later⟩ := forth n ((same n).mpr promised)
        exact ⟨m, rfl, later⟩

/-- Taking them leads to the end. -/
theorem promises_complete (sane : Sane p.w fed s) (promised : p.Promises n fed s) :
    ∃ turns t, Machine.run p.step s turns = some t ∧ t.Finished p.final ∧ t.streams.input = p.rest ∧
      t.streams.output = p.output := by
  induction n generalizing s fed with
  | zero =>
    rcases promises_progress wired standard sane promised with ⟨-, finished⟩ | ⟨turn, t, stepped⟩
    · exact ⟨[], s, rfl, finished⟩
    · cases (promises_zero promised sane turn).symm.trans stepped
  | succ n ih =>
    rcases promises_progress wired standard sane promised with ⟨none, -⟩ | ⟨turn, next, stepped⟩
    · cases none
    · obtain ⟨fed', sane', same⟩ := step_promises wired standard sane stepped
      obtain ⟨turns, t, success, finished⟩ := ih sane' ((same n).mpr promised)
      exact ⟨turn :: turns, t, run_cons_eq_some.mpr ⟨next, stepped, success⟩, finished⟩

end Runs

end Plan

end SphereMultithreading.Model.P4
