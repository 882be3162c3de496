import SphereMultithreading.Model.P6.Worker
import SphereMultithreading.Model.P7.Server
import SphereMultithreading.Soundness.P6.Representation
import SphereMultithreading.Soundness.P7.Search

/-! # The processes of p6 and p7 and their clients

A `recv` that fails throws, the exception leaves `process_client_event` and the event loop, and the
process that serves all clients ends. Short of that, and of texts that leave what the language
defines, every event is handled, and only the client that hung up is removed.
-/

namespace SphereMultithreading.Soundness

open Machine Model Model.ClientLoop Model.Process

section Loop

variable {σ χ ω : Type} {handle : χ → σ → ℕ → Scanf.Text → Except Fault σ}
  {change : ω → σ → Option σ}

/-- The process goes on, and a client that is gone had closed the stream or hung up. -/
def Serves (handle : χ → σ → ℕ → Scanf.Text → Except Fault σ) (change : ω → σ → Option σ)
    (p : Process σ) (a : Action χ ω) : Prop :=
  ∀ s, p = .running s → ∃ t, p.step handle change a = some (.running t) ∧
    ∀ client ∈ s.slaveSockets, client ∈ t.slaveSockets ∨
      ∃ context recv hup, a = .event context client recv hup ∧ (recv = .closed ∨ hup = true)

/-- No `recv` fails, and the bytes received can be dealt with. -/
def Bearable (readable : Scanf.Text → Prop) (_ : Process σ) : Action χ ω → Prop
  | .event _ _ (.bytes text) _ => readable text
  | .event _ _ .closed _ => True
  | .event _ _ .failed _ => False
  | _ => True

theorem mem_disconnectClient {s : ClientLoop σ} {fd client : ℕ} :
    client ∈ (s.disconnectClient fd).slaveSockets ↔ client ∈ s.slaveSockets ∧ client ≠ fd := by
  simp [disconnectClient]

/-- What the process has beside its clients is in order. -/
def Ordered (I : σ → Prop) (p : Process σ) : Prop := ∀ s, p = .running s → I s.process

/-- The handler returns exactly on the texts that are readable, and keeps what is in order. -/
structure Tame (handle : χ → σ → ℕ → Scanf.Text → Except Fault σ) (change : ω → σ → Option σ)
    (I : σ → Prop) (readable : Scanf.Text → Prop) : Prop where
  total : ∀ context s fd text, I s → readable text → ∃ t, handle context s fd text = .ok t ∧ I t
  needed : ∀ context s fd text t, handle context s fd text = .ok t → readable text
  changed : ∀ others s t, change others s = some t → I s → I t

variable {I : σ → Prop} {readable : Scanf.Text → Prop}

/-- A bearable event is handled, and removes at most its own client. -/
private theorem handled
    (tame : Tame handle change I readable)
    {p : Process σ} {s : ClientLoop σ} (ordered : I s.process) {context : χ} {fd : ℕ} {recv : Recv}
    {hup : Bool}
    (bearable : Bearable readable p (.event context fd recv hup : Action χ ω)) :
    ∃ t, s.processClientEvent (handle context) fd recv hup = .ok t ∧ I t.process ∧
      ∀ client ∈ s.slaveSockets, client ∈ t.slaveSockets ∨
        client = fd ∧ (recv = .closed ∨ hup = true) := by
  have gone (t : ClientLoop σ) (client : ℕ) (member : client ∈ t.slaveSockets) :
      client ∈ (t.disconnectClient fd).slaveSockets ∨ client = fd := by
    rw [mem_disconnectClient]
    by_cases own : client = fd
    · exact .inr own
    · exact .inl ⟨member, own⟩
  cases recv with
  | bytes text =>
    obtain ⟨process, handled, ordered'⟩ := tame.total context s.process fd text ordered bearable
    cases hup with
    | false =>
      refine ⟨{ s with process := process }, ?_, ordered', fun client member => .inl member⟩
      simp [processClientEvent, handled, Except.map]
    | true =>
      refine ⟨({ s with process := process } : ClientLoop σ).disconnectClient fd, ?_, ordered', ?_⟩
      · simp [processClientEvent, handled, Except.map]
      · intro client member
        exact (gone { s with process := process } client member).imp_right fun own => ⟨own, .inr rfl⟩
  | closed =>
    refine ⟨s.disconnectClient fd, rfl, ordered, fun client member => ?_⟩
    exact (gone s client member).imp_right fun own => ⟨own, .inl rfl⟩
  | failed => exact bearable.elim

/-- Only a bearable event is handled. -/
private theorem bearable_of_handled
    (tame : Tame handle change I readable)
    {p : Process σ} {s t : ClientLoop σ} {context : χ} {fd : ℕ} {recv : Recv} {hup : Bool}
    (handled : s.processClientEvent (handle context) fd recv hup = .ok t) :
    Bearable readable p (.event context fd recv hup : Action χ ω) := by
  cases recv with
  | bytes text =>
    cases done : handle context s.process fd text with
    | error fault => simp [processClientEvent, done, Except.map] at handled
    | ok process => exact tame.needed context s.process fd text process done
  | closed => exact trivial
  | failed => cases handled

theorem serves_iff_bearable
    (tame : Tame handle change I readable)
    {p q : Process σ} {a : Action χ ω} (stepped : p.step handle change a = some q)
    (ordered : Ordered I p) : Serves handle change p a ↔ Bearable readable p a := by
  cases p with
  | stopped fault => cases stepped
  | running s =>
    cases a with
    | join fd =>
      refine iff_of_true ?_ trivial
      rintro s' ⟨⟩
      obtain ⟨fresh, -⟩ := Option.ite_none_right_eq_some.mp stepped
      exact ⟨_, if_pos fresh, fun client member => .inl (List.mem_cons_of_mem _ member)⟩
    | change others =>
      refine iff_of_true ?_ trivial
      rintro s' ⟨⟩
      obtain ⟨process, changed, -⟩ := Option.map_eq_some_iff.mp stepped
      exact ⟨{ s with process := process }, Option.map_eq_some_iff.mpr ⟨process, changed, rfl⟩,
        fun client member => .inl member⟩
    | event context fd recv hup =>
      obtain ⟨enabled, -⟩ := Option.ite_none_right_eq_some.mp stepped
      constructor
      · intro serves
        obtain ⟨t, goesOn, -⟩ := serves s rfl
        rw [Process.step, if_pos enabled] at goesOn
        cases done : s.processClientEvent (handle context) fd recv hup with
        | error fault => simp [done] at goesOn
        | ok t => exact bearable_of_handled tame done
      · rintro bearable s' ⟨⟩
        obtain ⟨t, done, -, clients⟩ := handled tame (ordered s rfl) bearable
        refine ⟨t, ?_, fun client member => ?_⟩
        · rw [Process.step, if_pos enabled, done]
        · refine (clients client member).imp_right ?_
          rintro ⟨rfl, cause⟩
          exact ⟨context, recv, hup, rfl, cause⟩

theorem ordered_step
    (tame : Tame handle change I readable)
    {p q : Process σ} {a : Action χ ω} (stepped : p.step handle change a = some q)
    (ordered : Ordered I p) : Ordered I q := by
  rintro t rfl
  cases p with
  | stopped fault => cases stepped
  | running s =>
    have before := ordered s rfl
    cases a with
    | join fd =>
      obtain ⟨-, same⟩ := Option.ite_none_right_eq_some.mp stepped
      cases same
      exact before
    | change others =>
      obtain ⟨process, change, same⟩ := Option.map_eq_some_iff.mp stepped
      cases same
      exact tame.changed others _ _ change before
    | event context fd recv hup =>
      obtain ⟨enabled, outcome⟩ := Option.ite_none_right_eq_some.mp stepped
      cases done : s.processClientEvent (handle context) fd recv hup with
      | error fault => simp [done] at outcome
      | ok next =>
        rw [done] at outcome
        cases outcome
        have bearable : Bearable readable (.running s) (.event context fd recv hup : Action χ ω) :=
          bearable_of_handled tame done
        obtain ⟨t', done', ordered', -⟩ := handled tame before bearable
        cases done.symm.trans done'
        exact ordered'

/-- In a run, every event is served exactly if it is bearable. -/
theorem serves_run (tame : Tame handle change I readable) {s : ClientLoop σ} (ordered : I s.process)
    {q : Process σ} {actions : List (Action χ ω)}
    (success : run (step handle change) (.running s) actions = some q) :
    Guarded (step handle change) (Serves handle change) (.running s) actions ↔
      Guarded (step handle change) (Bearable readable) (.running s) actions := by
  apply guarded_congr (I := Ordered I) _ _ success
  · rintro _ ⟨⟩
    exact ordered
  · exact fun _ _ _ stepped ordered => serves_iff_bearable tame stepped ordered
  · exact fun _ _ _ stepped ordered => ordered_step tame stepped ordered

end Loop

/-! ## p6 -/

/-- The first word fits `cmd`, and the semaphore of a query is one there is. -/
def P6.Readable (text : Scanf.Text) : Prop :=
  P6.processQuery text ≠ .overflow ∧
    ∀ query, P6.processQuery text = .query query → query.semId < HashTable.numSections

/-- Other processes use the shared memory, one call after the other and none during an event. -/
def P6.change (action : P6.Action) (s : P6.WorkerState) : Option P6.WorkerState :=
  (P6.step s.memory action).map fun memory => { s with memory := memory }

theorem P6.tame : Tame P6.WorkerState.handle P6.change (fun s => P6.Valid s.memory)
    P6.Readable where
  total := by
    rintro clock s fd text valid ⟨fits, known⟩
    unfold P6.WorkerState.handle
    cases parsed : P6.processQuery text with
    | blank => exact ⟨s, rfl, valid⟩
    | wrong => exact ⟨s.sendMessageToClient fd P6.wrongCommand, rfl, valid⟩
    | query query =>
      obtain ⟨reply, memory, called, valid'⟩ := P6.call_valid valid clock query.call
      have executed : s.executeQuery clock query =
          .ok ((query.answer reply).toList, { s with memory := memory }) := by
        rw [P6.WorkerState.executeQuery, if_pos (known query parsed), called]
      refine ⟨P6.WorkerState.sendMessageToClient ⟨memory, s.sent⟩ fd (query.answer reply).toList, ?_,
        valid'⟩
      simp only [executed]
      rfl
    | overflow => exact absurd parsed fits
  needed := by
    intro clock s fd text t handled
    unfold P6.WorkerState.handle at handled
    cases parsed : P6.processQuery text with
    | query query =>
      refine ⟨by simp [parsed], fun other same => ?_⟩
      cases parsed.symm.trans same
      rw [parsed] at handled
      by_contra unknown
      simp [P6.WorkerState.executeQuery, unknown, Except.map] at handled
    | overflow =>
      rw [parsed] at handled
      cases handled
    | _ => exact ⟨by simp [parsed], by simp [parsed]⟩
  changed := by
    intro action s t changed valid
    obtain ⟨memory, stepped, rfl⟩ := Option.map_eq_some_iff.mp changed
    obtain ⟨memory', stepped', valid'⟩ := P6.step_valid valid action
    cases stepped.symm.trans stepped'
    exact valid'

/-! ## p7 -/

/-- There is room for the byte 0 behind the text, and the first word fits `buffer_`. -/
def P7.Readable (text : Scanf.Text) : Prop :=
  text.length < maxBufSize ∧ ∀ word args, Scanf.scanCommand 0 text = some (word, args) →
    word.length < P7.prefixSize

theorem P7.tame : Tame (fun (_ : Unit) => P7.Server.handle)
    (fun (others : Empty) _ => others.elim) (fun s => Proofs.P7.WellFormed s.dict) P7.Readable where
  total := by
    rintro - s fd text wellFormed ⟨room, fits⟩
    have answered : ∃ answer, P7.Server.processMessageFromClient s.dict text = .ok answer := by
      unfold P7.Server.processMessageFromClient
      cases scanned : Scanf.scanCommand 0 text with
      | none => exact ⟨_, rfl⟩
      | some pair =>
        obtain ⟨word, args⟩ := pair
        obtain ⟨result, found⟩ := P7.getWords_total wellFormed word
        dsimp only
        rw [if_neg (not_le.mpr (fits word args scanned)), found]
        cases result <;> exact ⟨_, rfl⟩
    obtain ⟨answer, answered⟩ := answered
    simp only [P7.Server.handle, if_pos room, answered]
    cases answer <;> exact ⟨_, rfl, wellFormed⟩
  needed := by
    rintro - s fd text t handled
    unfold P7.Server.handle at handled
    split at handled
    · next room =>
      refine ⟨room, fun word args scanned => ?_⟩
      by_contra long
      simp [P7.Server.processMessageFromClient, scanned, not_lt.mp long, Except.map] at handled
    · cases handled
  changed := by rintro ⟨⟩

/-- The memory is laid out and nobody has joined. -/
def P6.worker (memory : P6.HashTable) : Process P6.WorkerState :=
  .running ⟨[], memory.sharedMemorySet, []⟩

abbrev P6.workerStep : Process P6.WorkerState → Process.Action (ℕ → ℤ) P6.Action →
    Option (Process P6.WorkerState) :=
  Process.step P6.WorkerState.handle P6.change

def P7.server (dict : P7.Trie) : Process P7.Server := .running ⟨[], dict, []⟩

abbrev P7.serverStep : Process P7.Server → Process.Action Unit Empty → Option (Process P7.Server) :=
  Process.step (fun _ => P7.Server.handle) fun others _ => others.elim

/-- In every run of a p6 worker whose calls of the table overlap with none of another process, and of a p7
server with any dictionary, each event of a client is handled, and only that client is removed if it
closed or hung up, exactly when no `recv` fails and the text received fits. -/
theorem servers_survive_iff (memory : P6.HashTable) {words : List Scanf.Text} {dict : P7.Trie}
    (wordLetters : ∀ w ∈ words, ∀ c ∈ w, Proofs.P7.IsLetter c)
    (built : run P7.addStep .new words = some dict) :
    (∀ actions q, run P6.workerStep (P6.worker memory) actions = some q →
      (Guarded P6.workerStep (Serves P6.WorkerState.handle P6.change) (P6.worker memory) actions ↔
        Guarded P6.workerStep (Bearable P6.Readable) (P6.worker memory) actions)) ∧
    ∀ actions q, run P7.serverStep (P7.server dict) actions = some q →
      (Guarded P7.serverStep (Serves (fun _ => P7.Server.handle) fun others _ => others.elim)
          (P7.server dict) actions ↔
        Guarded P7.serverStep (Bearable P7.Readable) (P7.server dict) actions) := by
  constructor
  · intro actions q success
    exact serves_run P6.tame ⟨_, Proofs.HashTable.table_sharedMemorySet memory⟩ success
  · intro actions q success
    obtain ⟨t, added, holds⟩ := P7.holds_of_run P7.holds_new wordLetters
    cases built.symm.trans added
    exact serves_run P7.tame holds.wellFormed success

/-- Two clients join; one closes, and a `recv` from the other fails. -/
def resetClient {χ ω : Type} (context : χ) : List (Process.Action χ ω) :=
  [.join 7, .join 8, .event context 7 .closed false, .event context 8 .failed true]

theorem servers_survive_resetClient :
    (∃ q, run P6.workerStep (P6.worker P6.zeroed) (resetClient fun _ => 0) = some q ∧
      (Guarded P6.workerStep (Serves P6.WorkerState.handle P6.change) (P6.worker P6.zeroed)
          (resetClient fun _ => 0) ↔
        Guarded P6.workerStep (Bearable P6.Readable) (P6.worker P6.zeroed) (resetClient fun _ => 0))) ∧
    ∃ q, run P7.serverStep (P7.server .new) (resetClient ()) = some q ∧
      (Guarded P7.serverStep (Serves (fun _ => P7.Server.handle) fun others _ => others.elim)
          (P7.server .new) (resetClient ()) ↔
        Guarded P7.serverStep (Bearable P7.Readable) (P7.server .new) (resetClient ())) := by
  have noWords : ∀ w ∈ ([] : List Scanf.Text), ∀ c ∈ w, Proofs.P7.IsLetter c := by simp
  obtain ⟨workers, servers⟩ := servers_survive_iff P6.zeroed noWords rfl
  exact ⟨⟨_, rfl, workers _ _ rfl⟩, ⟨_, rfl, servers _ _ rfl⟩⟩

/-- The exception ends the process, with its other clients. -/
theorem servers_survive_fails :
    run P6.workerStep (P6.worker P6.zeroed)
        [.join 7, .join 8, .event (fun _ => 0) 8 .failed false] =
      some (.stopped .systemError) ∧
    run P7.serverStep (P7.server .new) [.join 7, .join 8, .event () 8 .failed false] =
      some (.stopped .systemError) :=
  ⟨rfl, rfl⟩

end SphereMultithreading.Soundness
