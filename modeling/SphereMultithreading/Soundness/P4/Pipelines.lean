import SphereMultithreading.Proofs.P4.Foreground
import SphereMultithreading.Soundness.P4.AndOr

/-! # What a line computes

The shell waits for each command of a pipeline before it forks the next, so that a pipeline is the
composition of its programs as long as what one of them writes fits the pipe. It stands still for ever if
one writes more. With that, the steps of the shell and its children, in whatever order they are taken,
compute what the and-or list means.
-/

namespace SphereMultithreading.Soundness.P4

open Machine Machine.AndOrList Machine.Pipelines Model.P4

/-! ## The pipelines of a line and its channels -/

/-- Each command writes what the next one reads. -/
def Joined (w : Wiring) (c : Command) : List Command → Prop
  | [] => w.outChannel c.place = .terminal
  | d :: others =>
      w.outChannel c.place = .writeEnd c.place ∧ w.inChannel d.place = .readEnd c.place ∧
        Joined w d others

/-- A pipeline between the terminal and the terminal. -/
def JoinedPipeline (w : Wiring) (p : Pipeline Command) : Prop :=
  w.inChannel p.first.place = .terminal ∧ Joined w p.first p.others

/-- Only the pipes behind commands that were executed may hold something. -/
def Clean (fed : Finset ℕ) (s : Streams) : Prop := ∀ place ∉ fed, s.pipes place = []

section Commands

variable {σ : Type} {p : Plan σ} {fed : Finset ℕ} {s : Streams} {c : Command} {left bytes : List UInt8}

/-- The streams when a command has been executed. -/
def settled (w : Wiring) (s : Streams) (c : Command) (left bytes : List UInt8) : Streams :=
  (s.leave (w.inChannel c.place) left).emit (w.outChannel c.place) bytes

theorem pipes_leave (clean : Clean fed s) {channel : Channel} (ended : Ended fed channel)
    (bytes : List UInt8) : Clean fed (s.leave channel bytes) := by
  intro place new
  cases channel with
  | terminal => exact clean place new
  | readEnd pipe =>
    have differ : place ≠ pipe := fun same => new (same ▸ ended)
    exact (Function.update_of_ne differ ..).trans (clean place new)
  | writeEnd => exact clean place new

theorem clean_settled (w : Wiring) (clean : Clean fed s) (ended : Ended fed (w.inChannel c.place)) :
    Clean (insert c.place fed) (settled w s c left bytes) := by
  intro place new
  rw [Finset.mem_insert, not_or] at new
  have before := pipes_leave clean ended left place new.2
  rw [settled, Wiring.outChannel]
  split
  · exact (Function.update_of_ne new.1 ..).trans before
  · exact before

theorem settled_terminal {w : Wiring} (s : Streams) (left bytes : List UInt8)
    (writes : w.outChannel c.place = .terminal) :
    (settled w s c left bytes).input = (s.leave (w.inChannel c.place) left).input ∧
      (settled w s c left bytes).output = s.output ++ bytes := by
  rw [settled, writes]
  refine ⟨rfl, congrArg (· ++ bytes) ?_⟩
  cases w.inChannel c.place <;> rfl

theorem settled_writeEnd {w : Wiring} (left bytes : List UInt8) (clean : Clean fed s) (new : c.place ∉ fed)
    (ended : Ended fed (w.inChannel c.place)) (writes : w.outChannel c.place = .writeEnd c.place) :
    (settled w s c left bytes).input = (s.leave (w.inChannel c.place) left).input ∧
      (settled w s c left bytes).output = s.output ∧
      (settled w s c left bytes).pipes c.place = bytes := by
  have empty := pipes_leave clean ended left c.place new
  rw [settled, writes]
  refine ⟨rfl, ?_, ?_⟩
  · cases w.inChannel c.place <;> rfl
  · simp only [Streams.emit, Function.update_self, empty, List.nil_append]

/-- A `|` is passed. -/
theorem advance_pipe (status : Status) (rest : List Operand) :
    advanceLoop .outer status (.op .CONVEYOR :: rest) = some (.outer, rest) := by
  simp [advanceLoop, shortCircuits]

theorem fits_writeEnd (clean : Clean fed s) (new : c.place ∉ fed)
    (writes : p.w.outChannel c.place = .writeEnd c.place) :
    Fits p.capacity s (p.w.outChannel c.place) bytes ↔ bytes.length ≤ p.capacity := by
  rw [writes]
  simp only [Fits, clean c.place new, List.length_nil, Nat.zero_add]
  constructor
  · intro fits
    cases bytes with
    | nil => exact Nat.zero_le _
    | cons x bytes => exact fits (List.cons_ne_nil _ _)
  · exact fun fits _ => fits

end Commands

section Pipelines

variable {σ : Type} {p : Plan σ} {fed : Finset ℕ} {s : Streams} {c : Command} {others : List Command}
  {operands : List Operand} {status : Status} {left bytes : List UInt8}

/-- The end of a pipeline: its commands have been executed and it has left some input and written some
output. -/
structure Behind (w : Wiring) (s : Streams) (c : Command) (left bytes : List UInt8)
    (operands : List Operand) (fed' : Finset ℕ) (s' : Streams) : Prop where
  ahead : Ahead fed' operands
  clean : Clean fed' s'
  input : s'.input = (s.leave (w.inChannel c.place) left).input
  output : s'.output = s.output ++ bytes

def pipelineOperands (c : Command) (others : List Command) : List Operand :=
  .cmd c :: others.flatMap fun d => [.op .CONVEYOR, .cmd d]

/-- A pipeline whose programs compute something is executed, if what is behind it is. -/
theorem executes_of_flows {input : List UInt8} (joined : Joined p.w c others)
    (ahead : Ahead fed (pipelineOperands c others ++ operands)) (clean : Clean fed s)
    (ended : Ended fed (p.w.inChannel c.place)) (pending : s.pending (p.w.inChannel c.place) = input)
    (flows : Flows p.start p.next p.capacity c others input left bytes status)
    (behind : ∀ fed' s', Behind p.w s c left bytes operands fed' s' →
      ∃ n, p.Executes n .outer status operands fed' s') (earlier : Status) :
    ∃ n, p.Executes n .outer earlier (pipelineOperands c others ++ operands) fed s := by
  induction flows generalizing fed s earlier with
  | @last n c input left bytes status ran =>
    obtain ⟨input, output⟩ := settled_terminal s left bytes joined
    obtain ⟨m, later⟩ := behind _ _ ⟨ahead.2, clean_settled p.w clean ended, input, output⟩
    rw [← pending, ← eq_true ended] at ran
    refine ⟨_, .command ran ?_ later⟩
    rw [joined]
    trivial
  | @pipe n c d others input left between left' bytes earlier' status ran fits flows ih =>
    obtain ⟨writes, reads, joined⟩ := joined
    have new : c.place ∉ fed := fun member => (ahead.1 _ member).false
    obtain ⟨input', output, pipes⟩ := settled_writeEnd left between clean new ended writes
    have later : ∃ m, p.Executes m .outer earlier' (pipelineOperands d others ++ operands)
        (insert c.place fed) (settled p.w s c left between) := by
      refine ih joined ahead.2 (clean_settled p.w clean ended) ?_ ?_ ?_ earlier'
      · rw [reads]
        exact Finset.mem_insert_self ..
      · rw [reads]
        exact pipes
      · rintro fed' s' ⟨ahead', clean', rest, written⟩
        rw [reads] at rest
        exact behind fed' s' ⟨ahead', clean', rest.trans input', by rw [written, output]⟩
    obtain ⟨m, later⟩ := later
    rw [← pending, ← eq_true ended] at ran
    exact ⟨_, .command ran ((fits_writeEnd clean new writes).mpr fits)
      (.turn (advance_pipe ..) later)⟩

/-- A pipeline that is executed computes something. -/
theorem flows_of_executes {n : ℕ} {earlier : Status} (joined : Joined p.w c others)
    (ahead : Ahead fed (pipelineOperands c others ++ operands)) (clean : Clean fed s)
    (ended : Ended fed (p.w.inChannel c.place))
    (executes : p.Executes n .outer earlier (pipelineOperands c others ++ operands) fed s) :
    ∃ left bytes status fed' s' m,
      Flows p.start p.next p.capacity c others (s.pending (p.w.inChannel c.place)) left bytes status ∧
      Behind p.w s c left bytes operands fed' s' ∧ p.Executes m .outer status operands fed' s' := by
  induction others generalizing c fed s n earlier with
  | nil =>
    obtain ⟨m, -, k, m', left, bytes, status, -, ran, fits, later⟩ := Plan.executes_command.mp executes
    obtain ⟨input, output⟩ := settled_terminal s left bytes joined
    rw [eq_true ended] at ran
    exact ⟨left, bytes, status, _, _, m', .last ran,
      ⟨ahead.2, clean_settled p.w clean ended, input, output⟩, later⟩
  | cons d others ih =>
    obtain ⟨writes, reads, joined⟩ := joined
    have new : c.place ∉ fed := fun member => (ahead.1 _ member).false
    obtain ⟨m, -, k, m', left, bytes, status, -, ran, fits, later⟩ := Plan.executes_command.mp executes
    obtain ⟨input, output, pipes⟩ := settled_writeEnd left bytes clean new ended writes
    cases m' with
    | zero => cases later
    | succ m' =>
      have behind := (Plan.executes_turn (advance_pipe ..)).mp later
      have ended' : Ended (insert c.place fed) (p.w.inChannel d.place) := by
        rw [reads]
        exact Finset.mem_insert_self ..
      obtain ⟨left', bytes', status', fed', s', m, flows, ⟨ahead', clean', rest, written⟩, last⟩ :=
        ih joined ahead.2 (clean_settled p.w clean ended) ended' behind
      rw [reads] at rest
      have between : (settled p.w s c left bytes).pending (p.w.inChannel d.place) = bytes := by
        rw [reads]
        exact pipes
      have flows : Flows p.start p.next p.capacity d others bytes left' bytes' status' := between ▸ flows
      rw [eq_true ended] at ran
      exact ⟨left, bytes', status', fed', s', m, .pipe ran ((fits_writeEnd clean new writes).mp fits) flows,
        ⟨ahead', clean', rest.trans input, written.trans (congrArg (· ++ bytes') output)⟩, last⟩

end Pipelines

/-! ## And-or lists -/

section Lists

variable {σ : Type} {p : Plan σ} {fed : Finset ℕ} {s : Streams} {status : Status}
  {list : List (Connective × Pipeline Command)}

/-- At a connective that does not continue, both loops go on alike. -/
theorem advance_restOperands {k : Connective} (stops : k.continues status.success = false)
    (list : List (Connective × Pipeline Command)) :
    advanceLoop (.inner k.name) status (restOperands list) = advanceLoop .outer status (restOperands list) := by
  cases list with
  | nil => rfl
  | cons entry list =>
    obtain ⟨k', q⟩ := entry
    change some (if k'.name ≠ k.name then Loop.outer else .inner k.name, _) =
      some (if shortCircuits k'.name status then Loop.inner k'.name else .outer, _)
    rw [shortCircuits_name]
    cases k <;> cases k' <;> simp_all [Connective.name, Connective.continues]

theorem executes_inner {k : Connective} (stops : k.continues status.success = false) {n : ℕ} :
    p.Executes n (.inner k.name) status (restOperands list) fed s ↔
      p.Executes n .outer status (restOperands list) fed s := by
  cases list with
  | nil => rw [restOperands, List.flatMap_nil, Plan.executes_nil, Plan.executes_nil]
  | cons entry list =>
    have alike := advance_restOperands stops (entry :: list)
    have turned : ∃ next, advanceLoop .outer status (restOperands (entry :: list)) = some next := ⟨_, rfl⟩
    obtain ⟨⟨loop, operands⟩, turned⟩ := turned
    cases n with
    | zero =>
      constructor
      · rintro ⟨⟩
      · rintro ⟨⟩
    | succ n => rw [Plan.executes_turn (alike.trans turned), Plan.executes_turn turned]

theorem restOperands_cons (k : Connective) (q : Pipeline Command) :
    restOperands ((k, q) :: list) =
      .op k.name :: (pipelineOperands q.first q.others ++ restOperands list) := rfl

/-- A single command is skipped in two turns. -/
theorem executes_skipped {k : Connective} {q : Pipeline Command}
    (stops : k.continues status.success = false) (single : q.others = []) {n : ℕ} :
    p.Executes n .outer status (restOperands ((k, q) :: list)) fed s ↔
      ∃ m, n = m + 2 ∧ p.Executes m .outer status (restOperands list) fed s := by
  have operands : restOperands ((k, q) :: list) = .op k.name :: .cmd q.first :: restOperands list := by
    rw [restOperands_cons, single]
    rfl
  have turned : advanceLoop .outer status (.op k.name :: .cmd q.first :: restOperands list) =
      some (.inner k.name, .cmd q.first :: restOperands list) := by
    rw [advanceLoop, shortCircuits_name, stops]
    rfl
  rw [operands]
  constructor
  · intro executes
    rcases n with _ | _ | m
    · cases executes
    · cases (Plan.executes_turn turned).mp executes
    · refine ⟨m, rfl, (executes_inner stops).mp ?_⟩
      exact (Plan.executes_turn rfl).mp ((Plan.executes_turn turned).mp executes)
  · rintro ⟨m, rfl, later⟩
    exact .turn turned (.turn rfl ((executes_inner stops).mpr later))

theorem advance_continues {k : Connective} (continues : k.continues status.success = true)
    (operands : List Operand) :
    advanceLoop .outer status (.op k.name :: operands) = some (.outer, operands) := by
  rw [advanceLoop, shortCircuits_name, continues]
  rfl

theorem ahead_skipped {k : Connective} {q : Pipeline Command} (single : q.others = [])
    (ahead : Ahead fed (restOperands ((k, q) :: list))) : Ahead fed (restOperands list) := by
  rw [restOperands_cons, single] at ahead
  exact ahead.2.mono (Finset.subset_insert ..)

variable (joined : ∀ entry ∈ list, JoinedPipeline p.w entry.2)

include joined

/-- What an and-or list means is what is executed. -/
theorem executes_of_evaluates {input rest output : List UInt8} {final : Status}
    (evaluates : Evaluates p.start p.next p.capacity Status.success status list input rest output final)
    (typed : s.input = input) (ending : rest = p.rest ∧ s.output ++ output = p.output ∧ final = p.final)
    (ahead : Ahead fed (restOperands list)) (clean : Clean fed s) :
    ∃ n, p.Executes n .outer status (restOperands list) fed s := by
  induction evaluates generalizing fed s with
  | nil =>
    obtain ⟨left, written, rfl⟩ := ending
    rw [List.append_nil] at written
    exact ⟨0, .nil (typed.trans left) written⟩
  | @executed k q list input between rest output later status earlier final continues flows evaluates ih =>
    obtain ⟨⟨reads, pipeline⟩, joined⟩ := List.forall_mem_cons.mp joined
    have ended : Ended fed (p.w.inChannel q.first.place) := by
      rw [reads]
      trivial
    have pending : s.pending (p.w.inChannel q.first.place) = input := by
      rw [reads]
      exact typed
    obtain ⟨n, executes⟩ := executes_of_flows pipeline ahead clean ended pending flows
      (fun fed' s' ⟨ahead', clean', left, written⟩ => by
        rw [reads] at left
        refine ih joined left ⟨ending.1, ?_, ending.2.2⟩ ahead' clean'
        rw [written, List.append_assoc, ending.2.1]) status
    exact ⟨n + 1, .turn (advance_continues continues _) executes⟩
  | skipped stops single evaluates ih =>
    obtain ⟨-, joined⟩ := List.forall_mem_cons.mp joined
    obtain ⟨n, executes⟩ := ih joined typed ending (ahead_skipped single ahead) clean
    exact ⟨n + 2, (executes_skipped stops single).mpr ⟨n, rfl, executes⟩⟩

/-- What is executed is what the list means, if all that may be skipped are single commands. -/
theorem evaluates_of_executes {n : ℕ} (singles : ∀ entry ∈ list, entry.2.others = [])
    (ahead : Ahead fed (restOperands list)) (clean : Clean fed s)
    (executes : p.Executes n .outer status (restOperands list) fed s) :
    ∃ output, p.output = s.output ++ output ∧
      Evaluates p.start p.next p.capacity Status.success status list s.input p.rest output p.final := by
  induction list generalizing fed s status n with
  | nil =>
    obtain ⟨-, input, written, rfl⟩ := Plan.executes_nil.mp executes
    exact ⟨[], by rw [List.append_nil, written], input ▸ .nil⟩
  | cons entry list ih =>
    obtain ⟨k, q⟩ := entry
    obtain ⟨⟨reads, pipeline⟩, joined⟩ := List.forall_mem_cons.mp joined
    obtain ⟨single, singles⟩ := List.forall_mem_cons.mp singles
    cases goes : k.continues status.success with
    | true =>
      have ended : Ended fed (p.w.inChannel q.first.place) := by
        rw [reads]
        trivial
      cases n with
      | zero => cases executes
      | succ n =>
        have later := (Plan.executes_turn (advance_continues goes _)).mp executes
        obtain ⟨left, bytes, status', fed', s', m, flows, ⟨ahead', clean', input, written⟩, later⟩ :=
          flows_of_executes pipeline ahead clean ended later
        obtain ⟨output, whole, evaluates⟩ := ih joined singles ahead' clean' later
        rw [reads] at flows input
        have evaluates : Evaluates p.start p.next p.capacity Status.success status' list left p.rest output
            p.final := (show s'.input = left from input) ▸ evaluates
        exact ⟨bytes ++ output, by rw [whole, written, List.append_assoc], .executed goes flows evaluates⟩
    | false =>
      obtain ⟨m, -, later⟩ := (executes_skipped goes single).mp executes
      obtain ⟨output, whole, evaluates⟩ := ih joined singles (ahead_skipped single ahead) clean later
      exact ⟨output, whole, .skipped goes single evaluates⟩

end Lists

/-! ## The wiring of a line -/

/-- No word of a command is a redirection. -/
def Unredirected (words : List Word) : Prop := ∀ word ∈ words, word ≠ ['<'] ∧ word ≠ ['>']

theorem construct_unredirected {cmd : List Word} (plain : Unredirected cmd) (m : Members)
    (d : Descriptors) : m.construct d cmd = some ({ m with args := m.args ++ cmd }, d) := by
  induction cmd generalizing m with
  | nil => rw [Members.construct.eq_def, List.append_nil]
  | cons word cmd ih =>
    obtain ⟨here, plain⟩ := List.forall_mem_cons.mp plain
    rw [Members.construct.eq_def]
    dsimp only
    rw [if_neg here.1, if_neg here.2, ih plain, List.append_assoc]
    rfl

/-- Nobody has been given a descriptor. -/
def Bare (b : Build) : Prop :=
  ∀ place, (b.members place).fdInput = none ∧ (b.members place).fdOutput = none

theorem pushCommand_unredirected {b : Build} (bare : Bare b) {cmd : List Word}
    (plain : Unredirected cmd) : ∃ b', b.pushCommand cmd = some b' ∧
      b'.operands = pushCommand b.operands cmd ∧ b'.fds = b.fds ∧ Bare b' := by
  rw [Build.pushCommand, construct_unredirected plain]
  refine ⟨_, rfl, rfl, rfl, fun place => ?_⟩
  dsimp only
  rw [Function.update_apply]
  split
  · exact ⟨rfl, rfl⟩
  · exact bare place

/-- A line without redirections opens nothing before its pipes. -/
theorem pushOperands_unredirected {b : Build} (bare : Bare b) {cmd words : List Word}
    (plain : Unredirected cmd) (plain' : Unredirected words) : ∃ b', b.pushOperands cmd words = some b' ∧
      b'.operands = pushOperands b.operands cmd words ∧ b'.fds = b.fds ∧ Bare b' := by
  induction words generalizing b cmd with
  | nil =>
    rw [Build.pushOperands, pushOperands]
    split
    · exact pushCommand_unredirected bare plain
    · exact ⟨b, rfl, rfl, rfl, bare⟩
  | cons word words ih =>
    obtain ⟨here, plain'⟩ := List.forall_mem_cons.mp plain'
    rw [Build.pushOperands, pushOperands]
    split
    · obtain ⟨b₁, pushed, operands, fds, bare₁⟩ := pushCommand_unredirected bare plain
      rw [pushed, ← operands]
      obtain ⟨b', pushed', operands', fds', bare'⟩ :=
        ih (b := b₁.pushOperator word) bare₁ (fun _ absent => absurd absent List.not_mem_nil) plain'
      exact ⟨b', pushed', operands', fds'.trans fds, bare'⟩
    · apply ih bare _ plain'
      intro other member
      rcases List.mem_append.mp member with member | member
      · exact plain other member
      · exact List.mem_singleton.mp member ▸ here

/-- The pipes of a command and what is linked behind it. -/
def setLinks (w : Wiring) (c : Command) : List (Link × Command) → Wiring
  | [] => w
  | (.pipe, d) :: rest => setLinks (w.setPipe c d) d rest
  | (.connective _, d) :: rest => setLinks w d rest

def linkOperands (rest : List (Link × Command)) : List Operand :=
  rest.flatMap fun (l, d) => [.op l.name, .cmd d]

theorem setPipes_links (w : Wiring) (previous : Option Operand) (c : Command)
    (rest : List (Link × Command)) :
    w.setPipes previous (.cmd c :: linkOperands rest) = some (setLinks w c rest) := by
  induction rest generalizing w previous c with
  | nil => rfl
  | cons link rest ih =>
    obtain ⟨l, d⟩ := link
    cases l with
    | pipe => exact ih (w.setPipe c d) (some (.op .CONVEYOR)) d
    | connective k =>
      cases k with
      | and => exact ih w (some (.op .LOGICAL_AND)) d
      | or => exact ih w (some (.op .LOGICAL_OR)) d

theorem operands_setLinks (w : Wiring) (c : Command) (rest : List (Link × Command)) :
    (setLinks w c rest).build.operands = w.build.operands := by
  induction rest generalizing w c with
  | nil => rfl
  | cons link rest ih =>
    obtain ⟨l, d⟩ := link
    cases l with
    | pipe => exact ih (w.setPipe c d) d
    | connective k => exact ih w d

/-- The channels on both sides of each link. -/
def Linked (w : Wiring) (c : Command) : List (Link × Command) → Prop
  | [] => w.outChannel c.place = .terminal
  | (l, d) :: rest =>
      (w.outChannel c.place = if l = .pipe then .writeEnd c.place else .terminal) ∧
        (w.inChannel d.place = if l = .pipe then .readEnd c.place else .terminal) ∧ Linked w d rest

section Links

variable {before : Finset ℕ} {w : Wiring} {n : ℕ}

/-- Commands further back are given nothing more. -/
theorem members_setLinks (w : Wiring) (n : ℕ) (cmd : List Word) (rest : List (Link × List Word)) :
    let w' := setLinks w ⟨n, cmd⟩ (place (n + 2) rest)
    (∀ place < n, (w'.build.members place).fdOutput = (w.build.members place).fdOutput) ∧
      ∀ place ≤ n, (w'.build.members place).fdInput = (w.build.members place).fdInput := by
  induction rest generalizing w n cmd with
  | nil => exact ⟨fun _ _ => rfl, fun _ _ => rfl⟩
  | cons link rest ih =>
    obtain ⟨l, next⟩ := link
    cases l with
    | pipe =>
      obtain ⟨output, input⟩ := ih (w.setPipe ⟨n, cmd⟩ ⟨n + 2, next⟩) (n + 2) next
      refine ⟨fun place below => (output place (by omega)).trans ?_,
        fun place below => (input place (by omega)).trans ?_⟩
      · rw [Wiring.fdOutput_setPipe, if_neg below.ne]
      · rw [Wiring.fdInput_setPipe w (by simp), if_neg (by dsimp only; omega)]
    | connective k =>
      obtain ⟨output, input⟩ := ih w (n + 2) next
      exact ⟨fun place below => output place (by omega), fun place below => input place (by omega)⟩

theorem wired_setLinks (cmd : List Word) (rest : List (Link × List Word)) (wired : w.Wired before)
    (unpiped : w.Unpiped n) : (setLinks w ⟨n, cmd⟩ (place (n + 2) rest)).Wired before ∧
      Linked (setLinks w ⟨n, cmd⟩ (place (n + 2) rest)) ⟨n, cmd⟩ (place (n + 2) rest) := by
  induction rest generalizing w n cmd with
  | nil =>
    refine ⟨wired, ?_⟩
    change w.outChannel n = .terminal
    rw [Wiring.outChannel, unpiped.1 n le_rfl]
    rfl
  | cons link rest ih =>
    obtain ⟨l, next⟩ := link
    cases l with
    | pipe =>
      let c : Command := ⟨n, cmd⟩
      let d : Command := ⟨n + 2, next⟩
      obtain ⟨wired', linked⟩ := ih next (wired.setPipe (c := c) (d := d) unpiped rfl)
        (unpiped.setPipe (c := c) (d := d) rfl)
      obtain ⟨output, input⟩ := members_setLinks (w.setPipe c d) (n + 2) next rest
      refine ⟨wired', ?_, ?_, linked⟩
      · rw [if_pos rfl, Wiring.outChannel]
        refine if_pos ?_
        refine (congrArg Option.isSome (output n (by omega))).trans ?_
        rw [Wiring.fdOutput_setPipe, if_pos rfl]
        rfl
      · rw [if_pos rfl, Wiring.inChannel]
        refine if_pos ?_
        refine (congrArg Option.isSome (input (n + 2) le_rfl)).trans ?_
        rw [Wiring.fdInput_setPipe w (by simp [c, d]), if_pos rfl]
        rfl
    | connective k =>
      obtain ⟨wired', linked⟩ := ih (n := n + 2) next wired
        ⟨fun place above => unpiped.1 place (by omega), fun place above => unpiped.2 place (by omega)⟩
      obtain ⟨output, input⟩ := members_setLinks w (n + 2) next rest
      refine ⟨wired', ?_, ?_, linked⟩
      · rw [if_neg (by simp), Wiring.outChannel]
        refine if_neg ?_
        rw [Bool.not_eq_true]
        refine (congrArg Option.isSome (output n (by omega))).trans ?_
        rw [unpiped.1 n le_rfl]
        rfl
      · rw [if_neg (by simp), Wiring.inChannel]
        refine if_neg ?_
        rw [Bool.not_eq_true]
        refine (congrArg Option.isSome (input (n + 2) le_rfl)).trans ?_
        rw [unpiped.2 (n + 2) (by omega)]
        rfl

theorem joined_group {c : Command} {rest : List (Link × Command)} (linked : Linked w c rest) :
    (group c rest).first.first = c ∧ Joined w c (group c rest).first.others ∧
      ∀ entry ∈ (group c rest).rest, JoinedPipeline w entry.2 := by
  induction rest generalizing c with
  | nil => exact ⟨rfl, linked, fun _ absent => absurd absent List.not_mem_nil⟩
  | cons link rest ih =>
    obtain ⟨l, d⟩ := link
    obtain ⟨writes, reads, linked⟩ := linked
    obtain ⟨first, joined, others⟩ := ih linked
    cases l with
    | pipe =>
      refine ⟨rfl, ?_, others⟩
      change Joined w c ((group d rest).first.first :: (group d rest).first.others)
      rw [first]
      exact ⟨writes, reads, joined⟩
    | connective k =>
      refine ⟨rfl, writes, List.forall_mem_cons.mpr ⟨?_, others⟩⟩
      rw [JoinedPipeline, first]
      exact ⟨reads, joined⟩

theorem ahead_place {fed : Finset ℕ} (below : ∀ place ∈ fed, place < n) (cmd : List Word)
    (rest : List (Link × List Word)) :
    Ahead fed (.cmd ⟨n, cmd⟩ :: linkOperands (place (n + 2) rest)) := by
  induction rest generalizing fed n cmd with
  | nil => exact ⟨below, trivial⟩
  | cons link rest ih =>
    refine ⟨below, ih (fun place member => ?_) link.2⟩
    rcases Finset.mem_insert.mp member with rfl | member
    · omega
    · have := below place member
      omega

end Links

/-! ## A line -/

/-- A line that was built: its pipelines are joined, and the terminal is on both ends of each. -/
structure Ready (line : Line) (table : Finset ℕ) (w : Wiring) : Prop where
  wired : w.Wired table
  operands : w.build.operands = line.andOr.operands
  first : JoinedPipeline w line.andOr.first
  others : ∀ entry ∈ line.andOr.rest, JoinedPipeline w entry.2
  ahead : Ahead ∅ line.andOr.operands

theorem exists_wire (line : Line) (plain : Unredirected line.words) (table : Finset ℕ) :
    ∃ w, wire line.words ⟨table, []⟩ = some w ∧ Ready line table w := by
  obtain ⟨b, pushed, operands, fds, bare⟩ := pushOperands_unredirected
    (b := ⟨[], fun _ => ⟨[], none, none⟩, ⟨table, []⟩⟩) (fun _ => ⟨rfl, rfl⟩)
    (fun _ absent => absurd absent List.not_mem_nil) plain
  have whole : pushOperands [] [] line.words = line.andOr.operands := operands_words line
  have links : line.andOr.operands = .cmd ⟨0, line.first⟩ :: linkOperands (place 2 line.rest) :=
    operands_group ..
  rw [whole, links] at operands
  let w : Wiring := ⟨b, fun _ => .terminal⟩
  have opened : w.build.fds.table = table := congrArg Descriptors.table fds
  have wired : w.Wired table := by
    refine ⟨fun fd member => ⟨?_, rfl⟩, fun place fd has => ?_, fun place fd has => ?_,
      fun fd member new => ?_, fun place => ?_⟩
    · exact opened ▸ member
    · cases (bare place).1.symm.trans has
    · cases (bare place).2.symm.trans has
    · exact absurd (opened ▸ member) new
    · rw [(bare place).2, (bare (place + 2)).1]
  have unpiped : w.Unpiped 0 := ⟨fun place _ => (bare place).2, fun place _ => (bare place).1⟩
  obtain ⟨wired', linked⟩ := wired_setLinks line.first line.rest wired unpiped
  obtain ⟨first, joined, others⟩ := joined_group linked
  have operands' := (operands_setLinks w ⟨0, line.first⟩ (place 2 line.rest)).trans operands
  refine ⟨setLinks w ⟨0, line.first⟩ (place 2 line.rest), ?_, wired', operands'.trans links.symm,
    ⟨?_, ?_⟩, others, ?_⟩
  · rw [wire, pushed]
    dsimp only
    rw [operands, setPipes_links]
    dsimp only
    rw [operands', if_pos (by simp)]
  · have untouched := (members_setLinks w 0 line.first line.rest).2 0 le_rfl
    rw [Line.andOr, first, Wiring.inChannel]
    refine if_neg ?_
    rw [Bool.not_eq_true]
    exact (congrArg Option.isSome untouched).trans (congrArg Option.isSome (bare 0).1)
  · rw [Line.andOr, first]
    exact joined
  · rw [links]
    exact ahead_place (fun _ absent => absurd absent (Finset.notMem_empty _)) ..

section Whole

variable {σ : Type} {p : Plan σ} {line : Line} {table : Finset ℕ} (ready : Ready line table p.w)
  (status : Status) (input : List UInt8)

include ready

theorem sane_init : Sane p.w ∅ (Foreground.init p.w status input : Foreground σ) := by
  rw [Foreground.init, Wiring.files, ← Wiring.left_empty]
  exact .run (ready.operands ▸ ready.ahead)

theorem promises_init {n : ℕ} : p.Promises n ∅ (Foreground.init p.w status input) ↔
    p.Executes n .outer status line.andOr.operands ∅ ⟨fun _ => [], input, []⟩ := by
  rw [← ready.operands]
  exact Iff.rfl

theorem ended_first : Ended ∅ (p.w.inChannel line.andOr.first.first.place) := by
  rw [ready.first.1]
  trivial

theorem pending_first : (⟨fun _ => [], input, []⟩ : Streams).pending
    (p.w.inChannel line.andOr.first.first.place) = input := by
  rw [ready.first.1]
  rfl

theorem executes_of_computes (computes : Computes p.start p.next p.capacity Status.success line.andOr input
    p.rest p.output p.final) :
    ∃ n, p.Executes n .outer status line.andOr.operands ∅ ⟨fun _ => [], input, []⟩ := by
  generalize left : p.rest = rest at computes
  generalize written : p.output = output at computes
  generalize ended : p.final = final at computes
  cases computes with
  | intro flows evaluates =>
    refine executes_of_flows ready.first.2 ready.ahead (fun _ _ => rfl) (ended_first ready)
      (pending_first ready input) flows (fun fed' s' behind => ?_) status
    have typed := behind.input
    rw [ready.first.1] at typed
    refine executes_of_evaluates ready.others evaluates typed ⟨left.symm, ?_, ended.symm⟩ behind.ahead
      behind.clean
    rw [behind.output, written]
    rfl

theorem computes_of_executes {n : ℕ} (singles : ∀ entry ∈ line.andOr.rest, entry.2.others = [])
    (executes : p.Executes n .outer status line.andOr.operands ∅ ⟨fun _ => [], input, []⟩) :
    Computes p.start p.next p.capacity Status.success line.andOr input p.rest p.output p.final := by
  obtain ⟨left, bytes, status', fed', s', m, flows, behind, later⟩ :=
    flows_of_executes ready.first.2 ready.ahead (fun _ _ => rfl) (ended_first ready) executes
  obtain ⟨output, whole, evaluates⟩ :=
    evaluates_of_executes ready.others singles behind.ahead behind.clean later
  have typed := behind.input
  rw [ready.first.1] at typed
  rw [pending_first ready] at flows
  rw [typed] at evaluates
  rw [whole, behind.output]
  exact .intro flows evaluates

end Whole

section Computing

variable {σ : Type} (line : Line) (plain : Unredirected line.words) (table : Finset ℕ)
  (standard : 0 ∈ table ∧ 1 ∈ table) (capacity : ℕ) (start : Command → σ)
  (next : σ → Request σ UInt8 Status) (status : Status)

include plain standard

/-- A line that means something is built, and its run comes to an end, however the shell and its children
are scheduled: no run is longer than some bound, none stands still before its end, and there the line has
left of the input, written and ended with what it means. -/
theorem line_computed {input rest output : List UInt8} {final : Status}
    (computes : Computes start next capacity Status.success line.andOr input rest output final) :
    ∃ w, wire line.words ⟨table, []⟩ = some w ∧ ∃ n, ∀ turns s,
      run (Foreground.step capacity start next w.build.members) (Foreground.init w status input) turns =
        some s →
      turns.length ≤ n ∧ (s.Finished final ∧ s.streams.input = rest ∧ s.streams.output = output ∨
        ∃ turn t, Foreground.step capacity start next w.build.members s turn = some t) := by
  obtain ⟨w, wired, ready⟩ := exists_wire line plain table
  let p : Plan σ := ⟨capacity, start, next, w, rest, output, final⟩
  obtain ⟨n, executes⟩ := executes_of_computes (p := p) ready status input computes
  refine ⟨w, wired, n, fun turns s success => ?_⟩
  have promised := (promises_init (p := p) ready status input).mpr executes
  obtain ⟨fed, sane, -, forth⟩ := Plan.run_promises (p := p) ready.wired standard
    (sane_init (p := p) ready status input) success
  obtain ⟨m, rfl, later⟩ := forth n promised
  refine ⟨Nat.le_add_left .., ?_⟩
  rcases Plan.promises_progress (p := p) ready.wired standard sane later with ⟨-, finished⟩ | more
  · exact .inl finished
  · exact .inr more

end Computing

/-- `a | b && b` -/
def copying : Line where
  first := [['a']]
  rest := [(.pipe, [['b']]), (.connective .and, [['b']])]
  commands := by decide

/-- The first program writes a byte, and the others write one for each that they read. -/
def copies : ℕ → Request ℕ UInt8 Status
  | 0 => .write 7 1
  | 1 => .exit (.exited 0)
  | 2 => .read fun x => if x.isSome then 3 else 1
  | _ => .write 7 2

def copiesFrom (c : Command) : ℕ := if c.place = 0 then 0 else 2

theorem copying_flows :
    Flows copiesFrom copies 1 ⟨0, [['a']]⟩ [⟨2, [['b']]⟩] [] [] [7] (Status.exited 0) :=
  .pipe (.write rfl (.exit rfl)) (by decide)
    (.last (.read rfl (.write rfl (.endOfFile trivial rfl (.exit rfl)))))

theorem copying_computes :
    Computes copiesFrom copies 1 Status.success copying.andOr [] [] [7] (.exited 0) := by
  have reads : Flows copiesFrom copies 1 ⟨4, [['b']]⟩ [] [] [] [] (Status.exited 0) :=
    .last (.endOfFile trivial rfl (.exit rfl))
  have behind : Evaluates copiesFrom copies 1 Status.success (.exited 0) copying.andOr.rest [] []
      ([] ++ []) (.exited 0) :=
    .executed rfl reads .nil
  have whole : Computes copiesFrom copies 1 Status.success copying.andOr [] [] ([7] ++ []) (.exited 0) :=
    .intro copying_flows behind
  exact whole

theorem line_computed_copying :
    ∃ w, wire copying.words ⟨{0, 1, 2}, []⟩ = some w ∧ ∃ n, ∀ turns s,
      run (Foreground.step 1 copiesFrom copies w.build.members) (Foreground.init w (.exited 0) []) turns =
        some s →
      turns.length ≤ n ∧ (s.Finished (.exited 0) ∧ s.streams.input = [] ∧ s.streams.output = [7] ∨
        ∃ turn t, Foreground.step 1 copiesFrom copies w.build.members s turn = some t) :=
  line_computed copying (by unfold Unredirected; decide) {0, 1, 2} (by decide) 1 copiesFrom copies
    (.exited 0) copying_computes

section Completing

variable {σ : Type} (line : Line) (plain : Unredirected line.words) (table : Finset ℕ)
  (standard : 0 ∈ table ∧ 1 ∈ table) (capacity : ℕ) (start : Command → σ)
  (next : σ → Request σ UInt8 Status) (status : Status)

include plain standard

/-- A line in which only the first pipeline has pipes comes to an end exactly if it means something, and
then with that. So it stands still whenever a program writes more than a pipe holds. -/
theorem line_completes_iff (singles : ∀ entry ∈ line.andOr.rest, entry.2.others = [])
    (input rest output : List UInt8) (final : Status) :
    ∃ w, wire line.words ⟨table, []⟩ = some w ∧
      ((∃ turns s, run (Foreground.step capacity start next w.build.members)
          (Foreground.init w status input) turns = some s ∧
          s.Finished final ∧ s.streams.input = rest ∧ s.streams.output = output) ↔
        Computes start next capacity Status.success line.andOr input rest output final) := by
  obtain ⟨w, wired, ready⟩ := exists_wire line plain table
  let p : Plan σ := ⟨capacity, start, next, w, rest, output, final⟩
  have sane : Sane w ∅ (Foreground.init w status input : Foreground σ) :=
    sane_init (p := p) ready status input
  refine ⟨w, wired, ?_, fun computes => ?_⟩
  · rintro ⟨turns, s, success, finished, left, written⟩
    obtain ⟨fed, sane', back, -⟩ := Plan.run_promises (p := p) ready.wired standard sane success
    have promised := back 0 (Plan.promises_finished sane' left written finished)
    exact computes_of_executes (p := p) ready status input singles
      ((promises_init (p := p) ready status input).mp promised)
  · obtain ⟨n, executes⟩ := executes_of_computes (p := p) ready status input computes
    exact Plan.promises_complete (p := p) ready.wired standard sane
      ((promises_init (p := p) ready status input).mpr executes)

end Completing

theorem line_completes_copying :
    ∃ w, wire copying.words ⟨{0, 1, 2}, []⟩ = some w ∧
      ((∃ turns s, run (Foreground.step 1 copiesFrom copies w.build.members)
          (Foreground.init w (.exited 0) []) turns = some s ∧
          s.Finished (.exited 0) ∧ s.streams.input = [] ∧ s.streams.output = [7]) ↔
        Computes copiesFrom copies 1 Status.success copying.andOr [] [] [7] (.exited 0)) :=
  line_completes_iff copying (by unfold Unredirected; decide) {0, 1, 2} (by decide) 1 copiesFrom copies
    (.exited 0) (by decide) [] [] [7] (.exited 0)

end SphereMultithreading.Soundness.P4
