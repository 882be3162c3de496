import SphereMultithreading.Model.P5.Shutdown
import SphereMultithreading.Proofs.P5.System

/-! # The steps at the end of the p5 server

Without the letters that say `QUIT`, the workers take the steps of the running system.
-/

namespace SphereMultithreading.Model.P5

/-- The request or reply a letter is. -/
def Letter.parcel? : Letter → Option Parcel
  | .parcel p => some p
  | .quit _ => none

@[simp] theorem Letter.parcel?_parcel (p : Parcel) : (Letter.parcel p).parcel? = some p := rfl

@[simp] theorem Letter.parcel?_quit (w : Fin numWorkers) : (Letter.quit w).parcel? = none := rfl

namespace System

variable {s t : System}

theorem semDown_queue (queue : List Parcel) (msg : Message) :
    ({ s with queue := queue } : System).semDown msg =
      (s.semDown msg).map fun t => { t with queue := queue } := by
  unfold semDown
  split
  · dsimp only
    split <;> rfl
  · rfl

theorem semUp_queue (queue : List Parcel) (msg : Message) :
    ({ s with queue := queue } : System).semUp msg = { s.semUp msg with queue := queue } := by
  unfold semUp
  split <;> rfl

end System

namespace Shutdown

variable {capacity : ℕ} {s t : Shutdown} {w : Fin numWorkers}

/-- The system with the requests and replies of the queue. -/
def view (s : Shutdown) : System := { s.system with queue := s.queue.filterMap Letter.parcel? }

theorem view_start (s : System) : (start s).view = s := by
  have same : (s.queue.map Letter.parcel).filterMap Letter.parcel? = s.queue := by
    rw [List.filterMap_map]
    exact List.filterMap_some
  rw [view, start, same]

theorem view_quit (i : Fin numWorkers) (leaving : Leaving) :
    ({ s with queue := s.queue ++ [.quit i], leaving := leaving } : Shutdown).view = s.view := by
  rw [view, view, List.filterMap_append]
  simp

theorem view_exit {before after : List Letter} (cut : s.queue = before ++ .quit w :: after)
    (exited : Fin numWorkers → Bool) :
    ({ s with queue := before ++ after, exited := exited } : Shutdown).view = s.view := by
  rw [view, view, cut, List.filterMap_append, List.filterMap_append]
  rfl

theorem length_queue_view_le (s : Shutdown) : s.view.queue.length ≤ s.queue.length :=
  List.length_filterMap_le ..

theorem msgsnd_eq_some {letter : Letter} :
    s.msgsnd capacity letter = some t ↔
      s.queue.length < capacity ∧ { s with queue := s.queue ++ [letter] } = t := by
  unfold msgsnd
  split <;> rename_i room <;> simp [room]

theorem msgrcv_eq_some {mtype : ℕ} {letter : Letter} (taken : s.msgrcv mtype = some (letter, t)) :
    ∃ before after, s.queue = before ++ letter :: after ∧ letter.mtype = mtype ∧
      (∀ other ∈ before, other.mtype ≠ mtype) ∧ t = { s with queue := before ++ after } := by
  obtain ⟨found, search, same⟩ := Option.map_eq_some_iff.mp taken
  obtain ⟨rfl, rfl⟩ := Prod.mk.inj same
  obtain ⟨named, before, after, cut, earlier⟩ := List.find?_eq_some_iff_append.mp search
  simp only [Bool.not_eq_true', decide_eq_false_iff_not] at earlier
  refine ⟨before, after, cut, of_decide_eq_true named, earlier, ?_⟩
  rw [cut, List.eraseP_append_right, List.eraseP_cons_of_pos]
  · exact named
  · simpa using earlier

theorem msgrcv_eq_none {mtype : ℕ} :
    s.msgrcv mtype = none ↔ ∀ letter ∈ s.queue, letter.mtype ≠ mtype := by
  simp [msgrcv, Option.map_eq_none_iff, List.find?_eq_none]

/-- The oldest letter of a type is the oldest message of that type. -/
theorem view_msgrcv {mtype : ℕ} {parcel : Parcel} {before after : List Letter}
    (cut : s.queue = before ++ .parcel parcel :: after) (named : parcel.message.mtype = mtype)
    (earlier : ∀ other ∈ before, other.mtype ≠ mtype) :
    s.view.msgrcv mtype = some (parcel, ({ s with queue := before ++ after } : Shutdown).view) := by
  have whole : s.view.queue =
      before.filterMap Letter.parcel? ++ parcel :: after.filterMap Letter.parcel? := by
    rw [view, cut, List.filterMap_append]
    rfl
  have unnamed : ∀ other ∈ before.filterMap Letter.parcel?, other.message.mtype ≠ mtype := by
    intro other member
    obtain ⟨letter, listed, same⟩ := List.mem_filterMap.mp member
    cases letter with
    | parcel found =>
      cases same
      exact earlier _ listed
    | quit v => cases same
  rw [System.msgrcv, whole, List.find?_append, List.find?_eq_none.mpr (by simpa using unnamed),
    List.find?_cons_of_pos (by simpa using named), List.eraseP_append_right _ (by simpa using unnamed),
    List.eraseP_cons_of_pos (by simpa using named)]
  simp [view, List.filterMap_append]

/-- What a worker exchanges with the queue: nothing, a reply or a request. -/
def Exchanges (s t : Shutdown) (w : Fin numWorkers) : Prop :=
  (t.queue = s.queue ∧ s.system.workers w ≠ .receive) ∨
    (∃ parcel, s.system.workers w = .reply parcel ∧ t.queue = s.queue ++ [.parcel parcel]) ∨
    ∃ before parcel after, s.exited w = false ∧ s.queue = before ++ .parcel parcel :: after ∧
      t.queue = before ++ after

/-- What a step does. -/
inductive Steps (capacity : ℕ) (s t : Shutdown) : Prop where
  | quit (i : Fin numWorkers) (position : s.leaving = .quit i) (room : s.queue.length < capacity)
      (next : t = { s with queue := s.queue ++ [.quit i], leaving := nextWorker i })
  | wait (position : s.leaving = .wait) (ended : ∀ w, s.exited w = true)
      (next : t = { s with leaving := .freed })
  | exit (w : Fin numWorkers) (before after : List Letter) (runs : s.exited w = false)
      (position : s.system.workers w = .receive) (cut : s.queue = before ++ .quit w :: after)
      (earlier : ∀ other ∈ before, other.mtype ≠ workerId w)
      (next : t = { s with queue := before ++ after, exited := Function.update s.exited w true })
  | work (w : Fin numWorkers) (a : P5.Action) (mine : a.worker = some w)
      (stepped : s.view.step capacity a = some t.view) (exited : t.exited = s.exited)
      (leaving : t.leaving = s.leaving) (exchanged : Exchanges s t w)

theorem workerId_injective : Function.Injective workerId := fun _ _ same =>
  Fin.ext (Nat.add_right_cancel same)

theorem steps_of_step {a : Action} (stepped : s.step capacity a = some t) : Steps capacity s t := by
  cases a with
  | quit =>
    simp only [step, quit] at stepped
    split at stepped
    · next i position =>
      obtain ⟨next, sent, rfl⟩ := Option.map_eq_some_iff.mp stepped
      obtain ⟨room, rfl⟩ := msgsnd_eq_some.mp sent
      exact .quit i position room rfl
    · cases stepped
  | wait =>
    simp only [step, wait] at stepped
    split at stepped
    · next position =>
      obtain ⟨ended, next⟩ := Option.ite_none_right_eq_some.mp stepped
      exact .wait position ended (Option.some.inj next).symm
    · cases stepped
  | receive w =>
    simp only [step, receive] at stepped
    split at stepped
    · next runs position =>
      split at stepped
      · next parcel rest taken =>
        cases stepped
        obtain ⟨before, after, cut, named, earlier, rfl⟩ := msgrcv_eq_some taken
        refine .work w (.receive w) rfl ?_ rfl rfl (.inr (.inr ⟨before, parcel, after, runs, cut, rfl⟩))
        exact System.receive_eq_some.mpr ⟨parcel, _, position, view_msgrcv cut named earlier, rfl⟩
      · next v rest taken =>
        cases stepped
        obtain ⟨before, after, cut, named, earlier, rfl⟩ := msgrcv_eq_some taken
        obtain rfl := workerId_injective named
        exact .exit v before after runs position cut earlier rfl
      · cases stepped
    · cases stepped
  | down w =>
    obtain ⟨system, down, rfl⟩ := Option.map_eq_some_iff.mp stepped
    obtain ⟨parcel, next, position, passed, rfl⟩ := System.down_eq_some.mp down
    refine .work w (.down w) rfl ?_ rfl rfl (.inl ⟨rfl, by rw [position]; exact nofun⟩)
    refine System.down_eq_some.mpr ⟨parcel, { next with queue := s.view.queue }, position, ?_, rfl⟩
    rw [view, System.semDown_queue, passed]
    rfl
  | call w =>
    obtain ⟨system, call, rfl⟩ := Option.map_eq_some_iff.mp stepped
    obtain ⟨parcel, reply, table, position, answered, rfl⟩ := System.call_eq_some.mp call
    refine .work w (.call w) rfl ?_ rfl rfl (.inl ⟨rfl, by rw [position]; exact nofun⟩)
    exact System.call_eq_some.mpr ⟨parcel, reply, table, position, answered, rfl⟩
  | up w =>
    obtain ⟨system, up, rfl⟩ := Option.map_eq_some_iff.mp stepped
    obtain ⟨parcel, position, rfl⟩ := System.up_eq_some.mp up
    refine .work w (.up w) rfl ?_ rfl rfl (.inl ⟨rfl, by rw [position]; exact nofun⟩)
    refine System.up_eq_some.mpr ⟨parcel, position, ?_⟩
    rw [view, System.semUp_queue]
    rfl
  | reply w =>
    simp only [step, reply] at stepped
    split at stepped
    · next parcel position =>
      obtain ⟨next, sent, rfl⟩ := Option.map_eq_some_iff.mp stepped
      obtain ⟨room, rfl⟩ := msgsnd_eq_some.mp sent
      refine .work w (.reply w) rfl ?_ rfl rfl (.inr (.inl ⟨parcel, position, rfl⟩))
      refine System.reply_eq_some.mpr ⟨parcel, position, ?_, ?_⟩
      · exact (length_queue_view_le s).trans_lt room
      · simp [view, setWorker, System.setWorker]
    · cases stepped

end Shutdown

end SphereMultithreading.Model.P5
