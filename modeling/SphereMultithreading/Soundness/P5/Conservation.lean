import SphereMultithreading.Machine.Permits
import SphereMultithreading.Model.P5.Workers
import SphereMultithreading.Proofs.P5.Permits

/-! # The permits of p5 are conserved

Whatever is asked and whatever the table answers or throws, a section's value and the permits held
in the section make up the number of workers. A section with an index past the semaphores gives
and takes nothing. The workers beside the server are such workers.
-/

namespace SphereMultithreading.Soundness.P5

open Machine Machine.Permits Model.HashTable Model.P5

namespace Workers

open Model.P5.Workers

/-- The permits a worker holds in a section: from behind its `sem_down` up to its `sem_up`. -/
def held (i : Fin numSections) : Position → ℕ
  | .call msg | .up msg | .caught msg => if msg.semId = i then msg.permits else 0
  | _ => 0

/-- No permit is lost and none is returned twice. -/
def Conserved (s : Workers) : Prop := ∀ i, s.sems i + ∑ w, held i (s.positions w) = numWorkers

variable {s t : Workers} {w : Fin numWorkers} {msg : Message}

/-! ## The calls of `semop` -/

theorem enter_eq (s : Workers) (msg : Message) : s.enter msg = s.semop msg.semId (-msg.permits) := by
  rw [enter, Message.permits]
  cases msg.op <;> rfl

theorem leave_eq (s : Workers) (msg : Message) : s.leave msg = s.semop msg.semId msg.permits := by
  rw [leave, Message.permits]
  cases msg.op <;> rfl

/-- The `catch` block gives back what the `try` block would have. -/
theorem giveBack_eq (s : Workers) (msg : Message) : s.giveBack msg = s.leave msg := by
  rw [giveBack, leave]
  cases msg.op <;> rfl

theorem semop_spec {semNum : ℕ} {semOp : ℤ} (passed : s.semop semNum semOp = some t) :
    t.positions = s.positions ∧
      ∀ i : Fin numSections, (t.sems i : ℤ) = s.sems i + if semNum = i then semOp else 0 := by
  unfold semop at passed
  split at passed
  · next valid =>
    simp only [Option.ite_none_right_eq_some, Option.some.injEq] at passed
    obtain ⟨enough, rfl⟩ := passed
    refine ⟨rfl, ?_⟩
    intro i
    by_cases same : semNum = i
    · obtain rfl : (⟨semNum, valid⟩ : Fin numSections) = i := Fin.ext same
      simp only [if_true, Function.update_self]
      omega
    · have apart : i ≠ ⟨semNum, valid⟩ := by
        rintro rfl
        exact same rfl
      simp only [if_neg same, Function.update_of_ne apart, add_zero]
  · next past =>
    cases passed
    refine ⟨rfl, ?_⟩
    intro i
    rw [if_neg, add_zero]
    rintro rfl
    exact past i.isLt

/-! ## The account -/

/-- A worker takes from the semaphores what it holds more than before. -/
private theorem conserved_of_exchange (w : Fin numWorkers) (position : Position)
    (conserved : Conserved s) (positions : t.positions = Function.update s.positions w position)
    (exchanged : ∀ i, t.sems i + held i position = s.sems i + held i (s.positions w)) :
    Conserved t := by
  intro i
  have total := conserved i
  have moved := exchanged i
  have changed := sum_update (held i) s.positions w position
  rw [positions]
  omega

/-- What a `semop` takes is what the worker holds more behind it. -/
private theorem conserved_semop {next : Workers} {position : Position} {semNum : ℕ} {semOp : ℤ}
    (conserved : Conserved s) (passed : s.semop semNum semOp = some next)
    (taken : ∀ i : Fin numSections, (held i position : ℤ) + (if semNum = i then semOp else 0) =
      held i (s.positions w)) : Conserved (next.setPosition w position) := by
  obtain ⟨same, values⟩ := semop_spec passed
  apply conserved_of_exchange w position conserved (by rw [← same]; rfl)
  intro i
  have value := values i
  have permits := taken i
  change next.sems i + _ = _
  omega

private theorem conserved_leave {next : Workers}
    (inside : ∀ i, held i (s.positions w) = if msg.semId = i then msg.permits else 0)
    (passed : s.leave msg = some next) (conserved : Conserved s) :
    Conserved (next.setPosition w (.reply msg)) := by
  rw [leave_eq] at passed
  apply conserved_semop conserved passed
  intro i
  rw [inside]
  simp only [held]
  split <;> omega

/-- A step that calls no `semop` keeps what the worker holds. -/
private theorem conserved_setPosition {position : Position} (conserved : Conserved s)
    (same : ∀ i, held i position = held i (s.positions w)) : Conserved (s.setPosition w position) := by
  apply conserved_of_exchange w position conserved rfl
  intro i
  rw [same]
  rfl

theorem conserved_step {a : Workers.Action} (stepped : s.step a = some t) (conserved : Conserved s) :
    Conserved t := by
  cases a with
  | receive w msg =>
    simp only [step, receive] at stepped
    split at stepped
    · next position =>
      cases stepped
      exact conserved_setPosition conserved fun i => by rw [position]; rfl
    · cases stepped
  | quit w =>
    simp only [step, quit] at stepped
    split at stepped
    · next position =>
      cases stepped
      exact conserved_setPosition conserved fun i => by rw [position]; rfl
    · cases stepped
  | down w =>
    simp only [step, down] at stepped
    split at stepped
    · next msg position =>
      obtain ⟨next, passed, rfl⟩ := Option.map_eq_some_iff.mp stepped
      rw [enter_eq] at passed
      apply conserved_semop conserved passed
      intro i
      rw [position]
      simp only [held]
      split <;> omega
    · cases stepped
  | call w reply =>
    simp only [step, call] at stepped
    split at stepped
    · next msg position =>
      split at stepped
      all_goals
        cases stepped
        apply conserved_setPosition conserved
        intro i
        rw [position]
        simp only [held, Message.semId_answered, Message.permits, Message.op_answered]
    · cases stepped
  | up w =>
    simp only [step, up] at stepped
    split at stepped
    · next msg position =>
      obtain ⟨next, passed, rfl⟩ := Option.map_eq_some_iff.mp stepped
      exact conserved_leave (fun i => by rw [position]; rfl) passed conserved
    · cases stepped
  | recover w =>
    simp only [step, recover] at stepped
    split at stepped
    · next msg position =>
      obtain ⟨next, passed, rfl⟩ := Option.map_eq_some_iff.mp stepped
      rw [giveBack_eq] at passed
      exact conserved_leave (fun i => by rw [position]; rfl) passed conserved
    · cases stepped
  | reply w =>
    simp only [step, reply] at stepped
    split at stepped
    · next msg position =>
      cases stepped
      exact conserved_setPosition conserved fun i => by rw [position]; rfl
    · cases stepped

theorem conserved_init : Conserved init := by
  intro i
  simp [init, held]

/-- A request whose call throws comes back to the head of the loop. -/
example : (run step init [.receive 0 ⟨2, .DEL, 8, 0, 0, 5⟩, .down 0, .call 0 (.error noKey),
    .recover 0, .reply 0]).map (fun s => (s.positions 0, s.sems 1)) = some (.receive, 4) := by decide

/-! ## The workers beside the server -/

/-- A worker that is to give back is in the `catch` block when its message has an error. -/
def position : Worker → Position
  | .receive => .receive
  | .down parcel => .down parcel.message
  | .call parcel => .call parcel.message
  | .up parcel => if parcel.message.err = 0 then .up parcel.message else .caught parcel.message
  | .reply parcel => .reply parcel.message

/-- What the workers of a system have of their own. -/
def workersOf (s : System) : Workers := ⟨s.sems, fun w => position (s.workers w)⟩

variable {capacity : ℕ} {q r : System}

theorem workersOf_setWorker (q : System) (w : Fin numWorkers) (worker : Worker) :
    workersOf (q.setWorker w worker) = (workersOf q).setPosition w (position worker) := by
  have moved := Function.comp_update position q.workers w worker
  rw [workersOf, setPosition, Model.P5.Workers.mk.injEq]
  exact ⟨rfl, moved⟩

theorem workersOf_semDown (passed : q.semDown msg = some r) :
    (workersOf q).enter msg = some (workersOf r) := by
  rw [enter_eq, semop]
  unfold System.semDown at passed
  split at passed
  · next valid =>
    simp only [Option.ite_none_right_eq_some, Option.some.injEq] at passed
    obtain ⟨enough, rfl⟩ := passed
    have left : ((q.sems ⟨msg.semId, valid⟩ : ℤ) + -(msg.permits : ℤ)).toNat =
        q.sems ⟨msg.semId, valid⟩ - msg.permits := by omega
    rw [dif_pos valid]
    simp only [workersOf, left]
    rw [if_pos (by omega)]
    rfl
  · next past =>
    cases passed
    rw [dif_neg past]

theorem workersOf_semUp (q : System) (msg : Message) :
    (workersOf q).leave msg = some (workersOf (q.semUp msg)) := by
  rw [leave_eq, semop, System.semUp]
  split
  · rw [if_pos (by omega)]
    rfl
  · rfl

private theorem err_answered_error (msg : Message) (err : HashTableError) :
    (msg.answered (.error err)).err ≠ 0 := by
  rw [Message.answered]
  split
  · exact one_ne_zero
  · exact two_ne_zero

/-- A step of the system is one of its workers, or of the server, which leaves them where they are. -/
theorem workersOf_step {a : Model.P5.Action} (stepped : q.step capacity a = some r) :
    workersOf r = workersOf q ∨ ∃ b, (workersOf q).step b = some (workersOf r) := by
  cases owner : a.worker with
  | none =>
    obtain ⟨workers, sems, -⟩ := System.workersIdle_of_server stepped owner
    left
    rw [workersOf, workersOf, workers, sems]
  | some w =>
    right
    cases a with
    | receive v =>
      obtain ⟨parcel, rest, before, taken, rfl⟩ := System.receive_eq_some.mp stepped
      obtain ⟨-, -, -, -, -, rfl⟩ := System.msgrcv_eq_some taken
      have there : (workersOf q).positions v = .receive := congrArg position before
      refine ⟨.receive v parcel.message, ?_⟩
      simp only [step, receive, there, workersOf_setWorker]
      rfl
    | down v =>
      obtain ⟨parcel, next, before, passed, rfl⟩ := System.down_eq_some.mp stepped
      have there : (workersOf q).positions v = .down parcel.message := congrArg position before
      refine ⟨.down v, ?_⟩
      simp only [step, down, there, workersOf_semDown passed, workersOf_setWorker]
      rfl
    | call v =>
      obtain ⟨parcel, reply, table, before, -, rfl⟩ := System.call_eq_some.mp stepped
      have there : (workersOf q).positions v = .call parcel.message := congrArg position before
      refine ⟨.call v reply, ?_⟩
      simp only [step, call, there, workersOf_setWorker, position]
      cases reply with
      | ok value => rfl
      | error err =>
        rw [if_neg (err_answered_error parcel.message err)]
        rfl
    | up v =>
      obtain ⟨parcel, before, rfl⟩ := System.up_eq_some.mp stepped
      have there : (workersOf q).positions v = position (.up parcel) := congrArg position before
      rw [workersOf_setWorker]
      by_cases returned : parcel.message.err = 0
      · refine ⟨.up v, ?_⟩
        simp only [step, up, there, position, if_pos returned, workersOf_semUp]
        rfl
      · refine ⟨.recover v, ?_⟩
        simp only [step, recover, there, position, if_neg returned, giveBack_eq, workersOf_semUp]
        rfl
    | reply v =>
      obtain ⟨parcel, before, -, rfl⟩ := System.reply_eq_some.mp stepped
      have there : (workersOf q).positions v = .reply parcel.message := congrArg position before
      refine ⟨.reply v, ?_⟩
      simp only [step, Model.P5.Workers.reply, there, workersOf_setWorker]
      rfl
    | _ => cases owner

theorem conserved_workersOf (memory : Model.P5.HashTable)
    (reachable : Reachable (System.step capacity) (.init memory) q) : Conserved (workersOf q) := by
  apply reachable.preserves (I := fun s => Conserved (workersOf s))
  · intro s a t stepped conserved
    rcases workersOf_step stepped with same | ⟨b, stepped'⟩
    · rwa [same]
    · exact conserved_step stepped' conserved
  · exact conserved_init

end Workers

open Workers

/-- Under any requests, any outcomes of the calls and any order of the workers' steps, a section's
value and the permits held in the section make up the number of workers; so they do beside the
server, where the table answers. -/
theorem permits_conserved (capacity : ℕ) (memory : Model.P5.HashTable) :
    (∀ s, Reachable Workers.step .init s →
      ∀ i, s.sems i + ∑ w, held i (s.positions w) = numWorkers) ∧
    ∀ q, Reachable (System.step capacity) (.init memory) q →
      ∀ i, q.sems i + ∑ w, held i (position (q.workers w)) = numWorkers :=
  ⟨fun _ reachable => reachable.preserves (fun _ _ _ => conserved_step) conserved_init,
    fun _ => conserved_workersOf memory⟩

end SphereMultithreading.Soundness.P5
