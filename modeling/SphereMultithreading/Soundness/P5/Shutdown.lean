import SphereMultithreading.Proofs.P5.Shutdown
import SphereMultithreading.Soundness.P5.Deadlock
import SphereMultithreading.Soundness.P5.Protection

/-! # When the p5 server comes to its end

While it shuts down the server takes no replies out of the queue. A letter that is not a reply is for a
worker that has not ended. So a full queue that blocks everybody holds replies, and requests and `QUIT`
for workers that have a message of their own: no more letters than there were messages under way. The table
calls are taken to end, which those do that are let in without clashing with another one.
-/

namespace SphereMultithreading.Soundness.P5

open Machine Machine.Permits Model.HashTable Model.P5 Model.P5.HashTable Model.P5.Shutdown
open Proofs.HashTable

variable {capacity : ℕ} {s t : Shutdown} {w : Fin numWorkers}

/-- `QUIT` has been sent to the worker. -/
def Called (w : Fin numWorkers) : Leaving → Prop
  | .quit i => w < i
  | _ => True

/-- Behind `QUIT` there are only replies. -/
def Behind (letter later : Letter) : Prop :=
  ∀ v parcel, letter = .quit v → later = .parcel parcel → parcel.message.mtype = serverMsgId

/-- What holds while the server shuts down: a worker gets `QUIT` once, behind all of its requests. -/
structure Closing (capacity : ℕ) (s : Shutdown) : Prop where
  sound : Sound capacity s.view
  once : ∀ w, s.queue.count (.quit w) ≤ 1
  called : ∀ w, Called w s.leaving ↔ s.exited w = true ∨ .quit w ∈ s.queue
  running : ∀ w, .quit w ∈ s.queue → s.exited w = false
  behind : s.queue.Pairwise Behind
  gone : ∀ w, s.exited w = true → s.system.workers w = .receive ∧
    ∀ parcel, .parcel parcel ∈ s.queue → parcel.message.mtype ≠ workerId w
  ended : s.leaving = .freed → ∀ w, s.exited w = true

theorem quit_notMem_map (w : Fin numWorkers) (queue : List Parcel) :
    .quit w ∉ queue.map Letter.parcel := by
  intro member
  obtain ⟨_, -, same⟩ := List.mem_map.mp member
  cases same

theorem closing_start {s : System} (sound : Sound capacity s) : Closing capacity (start s) where
  sound := by rwa [view_start]
  once w := by
    rw [start, List.count_eq_zero.mpr (quit_notMem_map w s.queue)]
    exact Nat.zero_le 1
  called w := iff_of_false (Nat.not_lt_zero _) fun called =>
    called.elim (fun ended => by cases ended) (quit_notMem_map w s.queue)
  running w member := (quit_notMem_map w s.queue member).elim
  behind := by
    refine List.pairwise_map.mpr (List.pairwise_of_forall fun _ _ _ _ same => ?_)
    cases same
  gone w ended := by cases ended
  ended freed := by cases freed

/-! ## Steps -/

theorem called_nextWorker (i w : Fin numWorkers) :
    Called w (nextWorker i) ↔ Called w (.quit i) ∨ w = i := by
  rw [nextWorker]
  split
  · rw [Called, Called, Fin.lt_def, Fin.lt_def, Fin.ext_iff]
    dsimp only
    omega
  · next last =>
    have below := w.isLt
    refine iff_of_true trivial ?_
    rw [Called, Fin.lt_def, Fin.ext_iff]
    omega

theorem Closing.quit (closing : Closing capacity s) {i : Fin numWorkers}
    (position : s.leaving = .quit i) :
    Closing capacity { s with queue := s.queue ++ [.quit i], leaving := nextWorker i } := by
  have fresh : ¬(s.exited i = true ∨ .quit i ∈ s.queue) := by
    rw [← closing.called, position]
    exact Nat.lt_irrefl i
  refine ⟨(view_quit i (nextWorker i)).symm ▸ closing.sound, fun w => ?_, fun w => ?_, fun w member => ?_, ?_, fun w ended => ?_,
    fun freed => ?_⟩
  · rw [List.count_append]
    rcases eq_or_ne w i with rfl | other
    · rw [List.count_eq_zero.mpr fun member => fresh (.inr member)]
      simp
    · have unsent : [Letter.quit i].count (.quit w) = 0 := by
        simpa [List.count_eq_zero] using other
      rw [unsent]
      exact closing.once w
  · have called := closing.called w
    rw [position] at called
    dsimp only
    rw [called_nextWorker, called, List.mem_append, List.mem_singleton, Letter.quit.injEq, or_assoc]
  · rcases List.mem_append.mp member with member | last
    · exact closing.running w member
    · obtain rfl : w = i := by simpa using last
      simpa using fun ended => fresh (.inl ended)
  · refine List.pairwise_append.mpr ⟨closing.behind, List.pairwise_singleton _ _, ?_⟩
    intro letter _ later last v parcel _ other
    rw [List.mem_singleton] at last
    cases last.symm.trans other
  · obtain ⟨idle, unsent⟩ := closing.gone w ended
    refine ⟨idle, fun parcel member => unsent parcel ?_⟩
    simpa using member
  · dsimp only [nextWorker] at freed
    split at freed <;> cases freed

theorem Closing.exit (closing : Closing capacity s) {before after : List Letter}
    (position : s.system.workers w = .receive) (cut : s.queue = before ++ .quit w :: after)
    (earlier : ∀ other ∈ before, other.mtype ≠ workerId w) :
    Closing capacity { s with queue := before ++ after, exited := Function.update s.exited w true } := by
  have fewer : (before ++ after).Sublist s.queue := by
    rw [cut]
    exact (List.Sublist.refl before).append (List.sublist_cons_self _ after)
  have single : Letter.quit w ∉ before ++ after := by
    have once := closing.once w
    rw [cut, List.count_append, List.count_cons_self] at once
    rw [← List.count_pos_iff, List.count_append]
    omega
  refine ⟨(view_exit cut _).symm ▸ closing.sound, fun v => (fewer.count_le _).trans (closing.once v), fun v => ?_,
    fun v member => ?_, closing.behind.sublist fewer, fun v ended => ?_, fun freed v => ?_⟩
  · rw [closing.called v, cut]
    rcases eq_or_ne v w with rfl | other
    · simp
    · simp [other]
  · have other : v ≠ w := by
      rintro rfl
      exact single member
    simpa [other] using closing.running v (fewer.subset member)
  · rcases eq_or_ne v w with rfl | other
    · refine ⟨position, fun parcel member => ?_⟩
      rcases List.mem_append.mp member with front | back
      · exact earlier _ front
      · have behind := closing.behind
        rw [cut] at behind
        have reply := List.rel_of_pairwise_cons (List.pairwise_append.mp behind).2.1 back
        rw [reply v parcel rfl rfl]
        exact (workerId_ne v).symm
    · simp only [Function.update_of_ne other] at ended
      obtain ⟨idle, unsent⟩ := closing.gone v ended
      exact ⟨idle, fun parcel member => unsent parcel (fewer.subset member)⟩
  · rcases eq_or_ne v w with rfl | other
    · exact Function.update_self ..
    · exact (Function.update_of_ne other ..).trans (closing.ended freed v)

/-- A step of a worker that has not ended. -/
theorem Closing.work (closing : Closing capacity s) {a : Model.P5.Action} (mine : a.worker = some w)
    (stepped : s.view.step capacity a = some t.view) (exited : t.exited = s.exited)
    (leaving : t.leaving = s.leaving) (exchanged : Exchanges s t w) : Closing capacity t := by
  have runs : s.exited w = false := by
    by_contra ended
    have idle := (closing.gone w (by simpa using ended)).1
    rcases exchanged with ⟨-, busy⟩ | ⟨parcel, replies, -⟩ | ⟨_, _, _, runs, -⟩
    · exact busy idle
    · cases idle.symm.trans replies
    · exact ended runs
  have typed := closing.sound.typed.workers w
  have letters (letter : Letter) (member : letter ∈ t.queue) : letter ∈ s.queue ∨
      ∃ parcel, letter = .parcel parcel ∧ parcel.message.mtype = serverMsgId := by
    rcases exchanged with ⟨same, -⟩ | ⟨parcel, replies, appended⟩ | ⟨before, parcel, after, -, cut, rest⟩
    · exact .inl (same ▸ member)
    · rw [appended, List.mem_append, List.mem_singleton] at member
      refine member.imp_right fun last => ⟨parcel, last, typed parcel ?_⟩
      rw [show s.view.workers w = _ from replies]
      rfl
    · rw [rest] at member
      rw [cut]
      refine .inl ?_
      rcases List.mem_append.mp member with front | back
      · exact List.mem_append_left _ front
      · exact List.mem_append_right _ (List.mem_cons_of_mem _ back)
  have quits (v : Fin numWorkers) : t.queue.count (.quit v) = s.queue.count (.quit v) := by
    rcases exchanged with ⟨same, -⟩ | ⟨parcel, -, appended⟩ | ⟨before, parcel, after, -, cut, rest⟩
    · rw [same]
    · simp [appended]
    · simp [cut, rest]
  have quit_mem (v : Fin numWorkers) : .quit v ∈ t.queue ↔ .quit v ∈ s.queue := by
    rw [← List.count_pos_iff, ← List.count_pos_iff, quits v]
  refine ⟨sound_step stepped closing.sound, fun v => quits v ▸ closing.once v, fun v => ?_, fun v => ?_,
    ?_, fun v ended => ?_, ?_⟩
  · rw [leaving, exited, quit_mem]
    exact closing.called v
  · rw [exited, quit_mem]
    exact closing.running v
  · rcases exchanged with ⟨same, -⟩ | ⟨parcel, replies, appended⟩ | ⟨before, parcel, after, -, cut, rest⟩
    · exact same ▸ closing.behind
    · rw [appended]
      refine List.pairwise_append.mpr ⟨closing.behind, List.pairwise_singleton _ _, ?_⟩
      intro letter _ later last v other _ same
      rw [List.mem_singleton] at last
      cases last.symm.trans same
      apply typed
      rw [show s.view.workers w = _ from replies]
      rfl
    · rw [rest]
      refine closing.behind.sublist ?_
      rw [cut]
      exact (List.Sublist.refl before).append (List.sublist_cons_self _ after)
  · rw [exited] at ended
    obtain ⟨idle, unsent⟩ := closing.gone v ended
    have other : v ≠ w := by
      rintro rfl
      cases runs.symm.trans ended
    obtain ⟨worker, works⟩ := System.works_of_worker stepped mine
    refine ⟨(works.other other).trans idle, fun parcel member => ?_⟩
    rcases letters _ member with before | ⟨parcel', same, reply⟩
    · exact unsent parcel before
    · cases same
      rw [reply]
      exact (workerId_ne v).symm
  · rw [leaving, exited]
    exact closing.ended

theorem closing_step {a : Shutdown.Action} (stepped : s.step capacity a = some t)
    (closing : Closing capacity s) : Closing capacity t := by
  cases steps_of_step stepped with
  | quit i position room next => exact next ▸ closing.quit position
  | wait position ended next =>
    subst next
    obtain ⟨sound, once, called, running, behind, gone, -⟩ := closing
    rw [position] at called
    exact ⟨sound, once, called, running, behind, gone, fun _ => ended⟩
  | exit v before after runs position cut earlier next =>
    exact next ▸ closing.exit position cut earlier
  | work v b mine stepped exited leaving exchanged =>
    exact closing.work mine stepped exited leaving exchanged

/-! ## Counting -/

/-- What the server still has to do, and what comes of it. -/
def stepsToSend : Leaving → ℕ
  | .quit i => 2 * (numWorkers - i) + 1
  | .wait => 1
  | .freed => 0

def quits (s : Shutdown) : ℕ := s.queue.countP fun letter => letter.parcel?.isNone

/-- The steps that are left. -/
def remaining (s : Shutdown) : ℕ := work s.view + quits s + stepsToSend s.leaving

theorem stepsToSend_nextWorker (i : Fin numWorkers) :
    stepsToSend (nextWorker i) + 2 = stepsToSend (.quit i) := by
  have below := i.isLt
  rw [nextWorker]
  split <;> simp only [stepsToSend] <;> omega

theorem remaining_lowered {a : Shutdown.Action} (stepped : s.step capacity a = some t)
    (closing : Closing capacity s) : remaining t < remaining s := by
  cases steps_of_step stepped with
  | quit i position room next =>
    subst next
    have fewer := stepsToSend_nextWorker i
    have one : quits { s with queue := s.queue ++ [.quit i], leaving := nextWorker i } =
        quits s + 1 := by
      simp [quits]
    rw [remaining, remaining, view_quit, one, position]
    dsimp only
    omega
  | wait position ended next =>
    subst next
    rw [remaining, remaining, position]
    exact Nat.lt_succ_self _
  | exit v before after runs position cut earlier next =>
    subst next
    have one : quits s = quits { s with queue := before ++ after } + 1 := by
      simp [quits, cut, List.countP_cons]
      omega
    rw [remaining, remaining, view_exit cut, one]
    change work s.view + quits { s with queue := before ++ after } + stepsToSend s.leaving < _
    omega
  | work v b mine stepped exited leaving exchanged =>
    have lowered := work_lowered stepped ⟨v, mine⟩ closing.sound.typed
    have same : quits t = quits s := by
      rcases exchanged with ⟨same, -⟩ | ⟨parcel, -, appended⟩ | ⟨before, parcel, after, -, cut, rest⟩
      · rw [quits, same, quits]
      · simp [quits, appended]
      · simp [quits, cut, rest]
    rw [remaining, remaining, same, leaving]
    omega

/-! ## Nobody can go on -/

/-- The workers go on as in the running system, unless they wait for the queue. -/
theorem view_stuck (closing : Closing capacity s) (stuck : ∀ a, s.step capacity a = none)
    (a : Model.P5.Action) (mine : ByWorker a) : s.view.step s.view.queue.length a = none := by
  by_contra enabled
  obtain ⟨next, stepped⟩ := Option.ne_none_iff_exists'.mp enabled
  obtain ⟨w, owner⟩ := mine
  cases a with
  | receive v =>
    obtain ⟨parcel, rest, position, taken, -⟩ := System.receive_eq_some.mp stepped
    obtain ⟨before, after, cut, named, -, -⟩ := System.msgrcv_eq_some taken
    have member : Letter.parcel parcel ∈ s.queue := by
      have listed : parcel ∈ s.view.queue := by rw [cut]; simp
      obtain ⟨letter, listed, same⟩ := List.mem_filterMap.mp listed
      cases letter <;> cases same
      exact listed
    have runs : s.exited v = false := by
      by_contra ended
      exact (closing.gone v (by simpa using ended)).2 parcel member named
    rcases received : s.msgrcv (workerId v) with _ | ⟨letter, rest⟩
    · exact msgrcv_eq_none.mp received _ member named
    · have none := stuck (.receive v)
      rw [Shutdown.step, Shutdown.receive, runs, show s.system.workers v = _ from position] at none
      dsimp only at none
      rw [received] at none
      cases letter <;> cases none
  | down v =>
    obtain ⟨parcel, next, position, passed, -⟩ := System.down_eq_some.mp stepped
    rw [view, System.semDown_queue] at passed
    obtain ⟨system, passed, -⟩ := Option.map_eq_some_iff.mp passed
    have enabled := (System.down_eq_some (s := s.system)).mpr ⟨parcel, system, position, passed, rfl⟩
    have none := stuck (.down v)
    rw [Shutdown.step, enabled] at none
    cases none
  | call v =>
    obtain ⟨parcel, reply, table, position, answered, -⟩ := System.call_eq_some.mp stepped
    have enabled := (System.call_eq_some (s := s.system)).mpr ⟨parcel, reply, table, position, answered, rfl⟩
    have none := stuck (.call v)
    rw [Shutdown.step, enabled] at none
    cases none
  | up v =>
    obtain ⟨parcel, position, -⟩ := System.up_eq_some.mp stepped
    have enabled := (System.up_eq_some (s := s.system)).mpr ⟨parcel, position, rfl⟩
    have none := stuck (.up v)
    rw [Shutdown.step, enabled] at none
    cases none
  | reply v =>
    obtain ⟨parcel, -, room, -⟩ := System.reply_eq_some.mp stepped
    exact Nat.lt_irrefl _ room
  | _ => cases owner

/-- A worker that cannot go on has ended, or waits for room, or finds nothing. -/
theorem waits_of_closing_stuck (closing : Closing capacity s) (stuck : ∀ a, s.step capacity a = none)
    (w : Fin numWorkers) :
    s.exited w = true ∨ (∃ parcel, s.system.workers w = .reply parcel ∧ capacity ≤ s.queue.length) ∨
      ∀ letter ∈ s.queue, letter.mtype ≠ workerId w := by
  obtain ⟨⟨queue, workers, server, -⟩, accounted, represented⟩ := closing.sound
  rcases waits_of_stuck ⟨⟨queue, workers, server, le_rfl⟩, accounted, represented⟩
    (view_stuck closing stuck) w with ⟨parcel, position, -⟩ | ⟨position, -⟩
  · refine .inr (.inl ⟨parcel, position, ?_⟩)
    by_contra room
    have none := stuck (.reply w)
    rw [Shutdown.step, Shutdown.reply, show s.system.workers w = _ from position] at none
    dsimp only at none
    rw [Shutdown.msgsnd, if_pos (by omega)] at none
    cases none
  · rcases runs : s.exited w
    · refine .inr (.inr ?_)
      rcases received : s.msgrcv (workerId w) with _ | ⟨letter, rest⟩
      · exact msgrcv_eq_none.mp received
      · have none := stuck (.receive w)
        rw [Shutdown.step, Shutdown.receive, runs, show s.system.workers w = _ from position] at none
        dsimp only at none
        rw [received] at none
        cases letter <;> cases none
    · exact .inl rfl

theorem quits_eq_sum (queue : List Letter) :
    queue.countP (fun letter => letter.parcel?.isNone) = ∑ w, queue.count (.quit w) := by
  induction queue with
  | nil => simp
  | cons letter queue ih =>
    cases letter with
    | parcel parcel => simpa [List.countP_cons] using ih
    | quit v => simp [ih, List.count_cons, List.countP_cons, Finset.sum_add_distrib]

/-- There are no more letters than messages under way. -/
theorem length_queue_le_of_stuck (closing : Closing capacity s)
    (stuck : ∀ a, s.step capacity a = none) : s.queue.length ≤ s.view.unanswered := by
  have parts : s.queue.length = s.view.queue.length + quits s := by
    rw [view, quits]
    induction s.queue with
    | nil => rfl
    | cons letter queue ih =>
      cases letter <;> simp [List.countP_cons, List.filterMap_cons] at ih ⊢ <;> omega
  have busy : quits s ≤ ∑ w, (s.system.workers w).tags.card := by
    rw [quits, quits_eq_sum]
    refine Finset.sum_le_sum fun w _ => ?_
    rcases eq_or_ne (s.queue.count (.quit w)) 0 with none | some
    · rw [none]
      exact Nat.zero_le _
    · have member : Letter.quit w ∈ s.queue := List.count_pos_iff.mp (Nat.pos_of_ne_zero some)
      rcases waits_of_closing_stuck closing stuck w with ended | ⟨parcel, position, -⟩ | unsent
      · cases (closing.running w member).symm.trans ended
      · rw [position]
        exact closing.once w
      · exact (unsent _ member rfl).elim
  rw [parts, System.unanswered, System.pending]
  simp only [Multiset.card_add, Multiset.coe_card, List.length_map, Multiset.card_sum]
  exact Nat.add_le_add_left busy _

/-- With room for all messages under way, somebody can go on until the server has ended. -/
theorem exists_step_of_room (closing : Closing capacity s) (room : s.view.unanswered < capacity)
    (unfinished : s.leaving ≠ .freed) : ∃ a t, s.step capacity a = some t := by
  by_contra none
  push Not at none
  have stuck (a : Shutdown.Action) : s.step capacity a = .none :=
    Option.eq_none_iff_forall_ne_some.mpr fun t enabled => none a t enabled
  have bound := length_queue_le_of_stuck closing stuck
  have idle (w : Fin numWorkers) (runs : ¬s.exited w = true) :
      ∀ letter ∈ s.queue, letter.mtype ≠ workerId w := by
    rcases waits_of_closing_stuck closing stuck w with ended | ⟨parcel, -, full⟩ | unsent
    · exact (runs ended).elim
    · omega
    · exact unsent
  cases position : s.leaving with
  | quit i =>
    have none := stuck .quit
    rw [Shutdown.step, Shutdown.quit, position] at none
    dsimp only at none
    rw [Shutdown.msgsnd, if_pos (by omega)] at none
    cases none
  | wait =>
    have ended (w : Fin numWorkers) : s.exited w = true := by
      by_contra runs
      have called := (closing.called w).mp (by rw [position]; trivial)
      exact idle w runs _ (called.resolve_left runs) rfl
    have none := stuck .wait
    rw [Shutdown.step, Shutdown.wait, position] at none
    dsimp only at none
    rw [if_pos ended] at none
    cases none
  | freed => exact unfinished position

/-! ## Calls that are kept apart -/

/-- A worker let into its call clashes with no call of another worker, as in the running system. -/
def KeepsApart (s : Shutdown) : Shutdown.Action → Prop
  | .down w => Apart s.system (.down w)
  | _ => True

/-- When nobody is in a call, whatever a process does keeps the calls apart. -/
theorem keepsApart_of_idle (idle : ∀ v, (s.system.workers v).calling = false) (a : Shutdown.Action) :
    KeepsApart s a := by
  cases a with
  | down w => exact apart_of_serial fun _ _ => idle
  | _ => trivial

theorem call_of_calling {s : System} {v : Fin numWorkers} (busy : ¬(s.workers v).calling = false) :
    ∃ parcel, s.workers v = .call parcel := by
  cases position : s.workers v with
  | call parcel => exact ⟨parcel, rfl⟩
  | _ =>
    rw [position] at busy
    exact absurd rfl busy

/-- Somebody can go on so that the calls stay apart: a worker that is in a call, if there is one. -/
theorem exists_step_apart (closing : Closing capacity s) (room : s.view.unanswered < capacity)
    (unfinished : s.leaving ≠ .freed) : ∃ a t, KeepsApart s a ∧ s.step capacity a = some t := by
  by_cases idle : ∀ v, (s.system.workers v).calling = false
  · obtain ⟨a, t, stepped⟩ := exists_step_of_room closing room unfinished
    exact ⟨a, t, keepsApart_of_idle idle a, stepped⟩
  · obtain ⟨v, busy⟩ := not_forall.mp idle
    obtain ⟨parcel, position⟩ := call_of_calling busy
    obtain ⟨next, stepped⟩ :=
      @call_enabled capacity _ closing.sound.represented v _ position
    obtain ⟨_, reply, table, position', answered, -⟩ := System.call_eq_some.mp stepped
    have enabled := (System.call_eq_some (s := s.system)).mpr ⟨_, reply, table, position', answered, rfl⟩
    exact ⟨.call v, _, trivial, by rw [Shutdown.step, enabled]; rfl⟩

/-- Workers that can only go on into a call beside another one are in such calls, and go on. -/
theorem stuck_of_serial {s : System} (represented : Represented s)
    (stuck : ∀ a, ByWorker a ∧ Serial s a → s.step capacity a = none) (a : Model.P5.Action)
    (mine : ByWorker a) : s.step capacity a = none := by
  by_cases idle : ∀ v, (s.workers v).calling = false
  · exact stuck a ⟨mine, fun _ _ => idle⟩
  · obtain ⟨v, busy⟩ := not_forall.mp idle
    obtain ⟨parcel, position⟩ := call_of_calling busy
    obtain ⟨next, stepped⟩ := @call_enabled capacity _ represented v _ position
    have serial : Serial s (.call v) := fun w entered => by cases entered
    cases (stuck (.call v) ⟨⟨v, rfl⟩, serial⟩).symm.trans stepped

/-! ## The workers before the first `QUIT` -/

theorem start_msgrcv (s : System) (mtype : ℕ) :
    (start s).msgrcv mtype =
      (s.msgrcv mtype).map fun (parcel, t) => (.parcel parcel, start { s with queue := t.queue }) := by
  rw [Shutdown.msgrcv, System.msgrcv, start, List.find?_map, Option.map_map, Option.map_map,
    List.eraseP_map]
  rfl

/-- The workers take their steps as if the server were still running. -/
theorem start_step {s t : System} {a : Model.P5.Action} (mine : a.worker = some w) (serial : Serial s a)
    (stepped : s.step capacity a = some t) :
    ∃ b, KeepsApart (start s) b ∧ (start s).step capacity b = some (start t) := by
  cases a with
  | receive v =>
    obtain ⟨parcel, rest, position, taken, rfl⟩ := System.receive_eq_some.mp stepped
    obtain ⟨before, after, -, -, -, rfl⟩ := System.msgrcv_eq_some taken
    refine ⟨.receive v, trivial, ?_⟩
    rw [Shutdown.step, Shutdown.receive, start_msgrcv, taken,
      show (start s).system.workers v = _ from position]
    rfl
  | down v =>
    obtain ⟨parcel, next, position, passed, rfl⟩ := System.down_eq_some.mp stepped
    have down := (System.down_eq_some (s := (start s).system)).mpr
      ⟨parcel, { next with queue := [] }, position, by rw [start, System.semDown_queue, passed]; rfl, rfl⟩
    refine ⟨.down v, apart_of_serial fun _ _ => serial v rfl, ?_⟩
    rw [Shutdown.step, down, System.semDown_eq passed]
    rfl
  | call v =>
    obtain ⟨parcel, reply, table, position, answered, rfl⟩ := System.call_eq_some.mp stepped
    have call := (System.call_eq_some (s := (start s).system)).mpr
      ⟨parcel, reply, table, position, answered, rfl⟩
    exact ⟨.call v, trivial, by rw [Shutdown.step, call]; rfl⟩
  | up v =>
    obtain ⟨parcel, position, rfl⟩ := System.up_eq_some.mp stepped
    have up := (System.up_eq_some (s := (start s).system)).mpr ⟨parcel, position, rfl⟩
    refine ⟨.up v, trivial, ?_⟩
    rw [Shutdown.step, up, start, System.semUp_queue, System.semUp_eq]
    rfl
  | reply v =>
    obtain ⟨parcel, position, room, rfl⟩ := System.reply_eq_some.mp stepped
    refine ⟨.reply v, trivial, ?_⟩
    have fits : (start s).queue.length < capacity := by simpa [start] using room
    rw [Shutdown.step, Shutdown.reply, show (start s).system.workers v = _ from position]
    dsimp only
    rw [Shutdown.msgsnd, if_pos fits]
    simp [start, Shutdown.setWorker, System.setWorker]
  | _ => cases mine

theorem start_run {s t : System} {actions : List Model.P5.Action}
    (guarded : Guarded (System.step capacity) (fun s a => ByWorker a ∧ Serial s a) s actions)
    (success : run (System.step capacity) s actions = some t) :
    ∃ schedule, Guarded (Shutdown.step capacity) KeepsApart (start s) schedule ∧
      run (Shutdown.step capacity) (start s) schedule = some (start t) := by
  induction actions generalizing s with
  | nil =>
    cases success
    exact ⟨[], trivial, rfl⟩
  | cons a rest ih =>
    obtain ⟨next, stepped, suffix⟩ := run_cons_eq_some.mp success
    obtain ⟨⟨⟨w, owner⟩, serial⟩, tail⟩ := guarded
    obtain ⟨b, apart, first⟩ := start_step owner serial stepped
    obtain ⟨schedule, others, ran⟩ := ih (tail next stepped) suffix
    refine ⟨b :: schedule, ⟨apart, fun other stepped' => ?_⟩, run_cons_eq_some.mpr ⟨_, first, ran⟩⟩
    obtain rfl := Option.some.inj (first.symm.trans stepped')
    exact others

/-- Workers that all wait, with as many messages under way as the queue can hold, have filled it. -/
theorem full_of_stuck {s : System} (sound : Sound capacity s)
    (stuck : ∀ a, ByWorker a → s.step capacity a = none) (many : capacity ≤ s.unanswered) :
    capacity ≤ s.queue.length := by
  by_contra room
  have idle (w : Fin numWorkers) : (s.workers w).tags = 0 := by
    rcases waits_of_stuck sound stuck w with ⟨parcel, -, full⟩ | ⟨position, -⟩
    · exact (room full).elim
    · rw [position]
      rfl
  have all : s.unanswered = s.queue.length := by
    simp [System.unanswered, System.pending, idle]
  omega

/-- Then the server does not come to send the first `QUIT`. -/
theorem start_stuck {s : System} (stuck : ∀ a, ByWorker a → s.step capacity a = none)
    (full : capacity ≤ s.queue.length) (a : Shutdown.Action) : (start s).step capacity a = none := by
  refine Option.eq_none_iff_forall_ne_some.mpr fun t stepped => ?_
  cases steps_of_step stepped with
  | quit i position room next =>
    rw [start, List.length_map] at room
    omega
  | wait position ended next => cases position
  | exit v before after runs position cut earlier next =>
    refine quit_notMem_map v s.queue ?_
    rw [show s.queue.map Letter.parcel = _ from cut]
    simp
  | work v b mine stepped exited leaving exchanged =>
    rw [view_start, stuck b ⟨v, mine⟩] at stepped
    cases stepped

/-! ## The whole shutdown -/

theorem pending_step {a : Shutdown.Action} (stepped : s.step capacity a = some t) :
    t.view.pending = s.view.pending := by
  cases steps_of_step stepped with
  | quit i position room next => rw [next, view_quit]
  | wait position ended next => exact next ▸ rfl
  | exit v before after runs position cut earlier next =>
    rw [next, view_exit cut]
  | work v b mine stepped exited leaving exchanged => exact System.pending_of_worker stepped mine

/-- What holds until the server has ended, for the messages that were under way when it began. -/
structure Accounts (capacity : ℕ) (s : System) (u : Shutdown) : Prop where
  closing : Closing capacity u
  pending : u.view.pending = s.pending

theorem accounts_step {s : System} (t : Shutdown) (a : Shutdown.Action) (u : Shutdown)
    (stepped : t.step capacity a = some u) (accounts : Accounts capacity s t) : Accounts capacity s u :=
  ⟨closing_step stepped accounts.closing, (pending_step stepped).trans accounts.pending⟩

theorem accounts_run {s : System} (sound : Sound capacity s) {schedule : List Shutdown.Action}
    (success : run (Shutdown.step capacity) (start s) schedule = some t) : Accounts capacity s t :=
  run_preserves accounts_step success ⟨closing_start sound, by rw [view_start]⟩

/-- Called off in any state that it can be in, the server comes to its end in every order of the steps
exactly if there is room in the queue for more than the messages under way. Only runs and orders of steps are
considered in which no clashing calls are let in together. -/
theorem shutdown_completes_iff (memory : Model.P5.HashTable) {actions : List Model.P5.Action} {s : System}
    (success : run (System.step capacity) (System.init memory) actions = some s)
    (_ : Guarded (System.step capacity) Apart (System.init memory) actions) :
    (∀ schedule t, run (Shutdown.step capacity) (start s) schedule = some t →
        Guarded (Shutdown.step capacity) KeepsApart (start s) schedule →
        ∃ rest u, Guarded (Shutdown.step capacity) KeepsApart t rest ∧
          run (Shutdown.step capacity) t rest = some u ∧ u.leaving = .freed) ↔
      s.unanswered < capacity := by
  have sound : Sound capacity s := run_preserves (fun _ _ _ => sound_step) success (sound_init capacity memory)
  constructor
  · intro completes
    by_contra many
    -- the workers go on one after the other until the queue is full
    obtain ⟨actions, t, guarded, success, sound', serial⟩ :=
      @exists_stuck _ _ (System.step capacity) (fun s a => ByWorker a ∧ Serial s a) (Sound capacity) work
        (fun _ _ _ _ stepped sound => sound_step stepped sound)
        (fun _ _ _ both stepped sound => work_lowered stepped both.1 sound.typed) s sound
    have stuck := stuck_of_serial sound'.represented serial
    have workers := forall_mem_of_guarded success
      (guarded.imp (I := fun _ => True) (fun _ _ _ both => both.1) (fun _ _ _ _ _ _ => trivial) trivial)
    obtain ⟨-, same⟩ := run_workers workers success
    obtain ⟨schedule, apart, reached⟩ := start_run guarded success
    obtain ⟨rest, u, -, finishes, freed⟩ := completes schedule _ reached apart
    have none := start_stuck stuck (full_of_stuck sound' stuck (by omega))
    cases rest with
    | nil =>
      cases finishes
      cases freed
    | cons a rest =>
      obtain ⟨next, stepped, -⟩ := run_cons_eq_some.mp finishes
      cases (none a).symm.trans stepped
  · intro room schedule t reached _
    have lowered (t : Shutdown) (a : Shutdown.Action) (u : Shutdown)
        (stepped : t.step capacity a = some u) (accounts : Accounts capacity s t) :
        remaining u < remaining t := remaining_lowered stepped accounts.closing
    have progress (t : Shutdown) (accounts : Accounts capacity s t) (unfinished : ¬t.leaving = .freed) :
        ∃ a u, KeepsApart t a ∧ t.step capacity a = some u := by
      refine exists_step_apart accounts.closing ?_ unfinished
      rwa [System.unanswered, accounts.pending]
    obtain ⟨rest, u, apart, finishes, -, freed⟩ :=
      exists_final accounts_step lowered progress (accounts_run sound reached)
    exact ⟨rest, u, apart, finishes, freed⟩

theorem shutdown_completes_iff_twoGets :
    ∃ s, run (System.step 1) (System.init zeroed) twoGets = some s ∧
      ((∀ schedule t, run (Shutdown.step 1) (start s) schedule = some t →
        Guarded (Shutdown.step 1) KeepsApart (start s) schedule →
        ∃ rest u, Guarded (Shutdown.step 1) KeepsApart t rest ∧
          run (Shutdown.step 1) t rest = some u ∧ u.leaving = .freed) ↔ s.unanswered < 1) := by
  obtain ⟨s, success⟩ : ∃ s, run (System.step 1) (System.init zeroed) twoGets = some s := ⟨_, rfl⟩
  have apart : Guarded (System.step 1) Apart (System.init zeroed) twoGets :=
    guarded_apart_of_serial (by decide +kernel)
  exact ⟨s, success, shutdown_completes_iff zeroed success apart⟩

/-- When the server has ended, all workers have, every request that was under way has been executed and
its reply is in the queue, nothing else is, and all permits are given back. -/
theorem shutdown_executes (memory : Model.P5.HashTable) {actions : List Model.P5.Action} {s : System}
    (success : run (System.step capacity) (System.init memory) actions = some s)
    {schedule : List Shutdown.Action} {u : Shutdown}
    (ended : run (Shutdown.step capacity) (start s) schedule = some u) (freed : u.leaving = .freed) :
    (∀ w, u.exited w = true) ∧
      (∃ replies : List Parcel, u.queue = replies.map .parcel ∧
        (∀ parcel ∈ replies, parcel.message.mtype = serverMsgId) ∧
        ((replies.map Parcel.tag : List Tag) : Multiset Tag) = s.pending) ∧
      ∀ i, u.system.sems i = numWorkers := by
  have sound : Sound capacity s := run_preserves (fun _ _ _ => sound_step) success (sound_init capacity memory)
  obtain ⟨closing, pending⟩ := accounts_run sound ended
  have exited := closing.ended freed
  have idle (w : Fin numWorkers) : u.view.workers w = .receive := (closing.gone w (exited w)).1
  refine ⟨exited, ⟨u.view.queue, ?_, fun parcel member => ?_, ?_⟩, fun i => ?_⟩
  · have replies : ∀ letter ∈ u.queue, letter.parcel?.map Letter.parcel = some letter := by
      intro letter member
      cases letter with
      | parcel parcel => rfl
      | quit w => cases (closing.running w member).symm.trans (exited w)
    rw [view, List.map_filterMap, List.filterMap_congr replies, List.filterMap_some]
  · have typed := closing.sound.typed.queue parcel member
    refine typed.resolve_right ?_
    rintro ⟨w, named⟩
    obtain ⟨letter, listed, same⟩ := List.mem_filterMap.mp member
    cases letter <;> cases same
    exact (closing.gone w (exited w)).2 parcel listed named
  · rw [← pending, System.pending]
    simp [idle, Worker.tags, Worker.parcel]
  · have unheld (w : Fin numWorkers) : count (u.view.held w) i = 0 := by
      rw [System.held_eq (idle w)]
      rfl
    exact_mod_cast closing.sound.accounted.value_of_unheld unheld

/-- The server is called off when it has sent one request. -/
def oneGet : List Model.P5.Action :=
  [.poll 1, .master, .accept, .acceptDone, .drain,
    .poll 1, .client 5 (.bytes ['g', 'e', 't', ' ', '1']) false 0, .send]

/-- The first worker has the request when `QUIT` is sent to all. -/
def allQuit : List Shutdown.Action :=
  [.receive 0, .quit, .quit, .quit, .quit, .receive 3, .down 0, .call 0, .receive 1, .up 0, .reply 0,
    .receive 0, .receive 2, .wait]

theorem shutdown_executes_oneGet : ∃ s u,
    run (System.step 4) (System.init zeroed) oneGet = some s ∧
      run (Shutdown.step 4) (start s) allQuit = some u ∧
      ∃ replies : List Parcel, u.queue = replies.map .parcel ∧
        (∀ parcel ∈ replies, parcel.message.mtype = serverMsgId) ∧
        ((replies.map Parcel.tag : List Tag) : Multiset Tag) = s.pending := by
  obtain ⟨s, u, success, ended, freed⟩ : ∃ s u,
      run (System.step 4) (System.init zeroed) oneGet = some s ∧
        run (Shutdown.step 4) (start s) allQuit = some u ∧ u.leaving = .freed :=
    ⟨_, _, rfl, rfl, rfl⟩
  exact ⟨s, u, success, ended, (shutdown_executes zeroed success ended freed).2.1⟩

end SphereMultithreading.Soundness.P5
