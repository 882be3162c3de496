import SphereMultithreading.Machine.Progress
import SphereMultithreading.Model.P10.Ranks
import SphereMultithreading.Soundness.P10.Series

/-! # The ranks come to an end

A rank waits for the one before it, and the first rank for nobody. So there is always a rank that can go
on, whichever messages the library keeps, and every order of the steps leads to the same value.
-/

namespace SphereMultithreading.Soundness.P10

open Machine Model.P10 Model.P10.Ranks Finset

variable {size nMax : ℕ} {x : ℚ} {keeps : ℕ → Bool}

/-! ## Stages -/

/-- The rank has sent its last term, or does not have to. -/
def Sent : Stage → Prop
  | .compute | .send _ _ => False
  | _ => True

/-- The rank has the term it needs, or needs none. -/
def Received : Stage → Prop
  | .reduce _ | .finalize => True
  | _ => False

/-- How many steps a rank has to take. -/
def stepsLeft : Stage → ℕ
  | .compute => 4
  | .send _ _ => 3
  | .recv _ => 2
  | .reduce _ => 1
  | .finalize => 0

/-- What a rank still has to add. -/
def owed (size nMax : ℕ) (x : ℚ) (rank : ℕ) : Stage → ℚ
  | .finalize => 0
  | _ => contribution size nMax x rank

/-- The numbers a rank has at a stage. -/
def Computed (size nMax : ℕ) (x : ℚ) (rank : ℕ) : Stage → Prop
  | .compute | .finalize => True
  | .send f sum => rank + 1 < size ∧ (f, sum) = loop size nMax x rank
  | .recv sum => rank ≠ 0 ∧ sum = (loop size nMax x rank).2
  | .reduce sum => sum = contribution size nMax x rank

/-- A message is kept from when it is sent until it is received. -/
structure Linked (size nMax : ℕ) (x : ℚ) (rank : ℕ) (stage next : Stage) (kept : Option ℚ) : Prop where
  order : Received next → Sent stage
  unsent : ¬Sent stage → kept = none
  underWay : Sent stage → ¬Received next → kept = some (sent size nMax x rank)
  received : Received next → kept = none

structure Consistent (size nMax : ℕ) (x : ℚ) (s : Ranks) : Prop where
  computed : ∀ rank, rank < size → Computed size nMax x rank (s.stages rank)
  linked : ∀ rank, rank + 1 < size →
    Linked size nMax x rank (s.stages rank) (s.stages (rank + 1)) (s.kept rank)
  total : s.reduced + ∑ rank ∈ range size, owed size nMax x rank (s.stages rank) = res size nMax x

theorem consistent_init : Consistent size nMax x init where
  computed _ _ := trivial
  linked _ _ := ⟨False.elim, fun _ => rfl, False.elim, fun _ => rfl⟩
  total := zero_add _

/-- The sum over the ranks when one of them has changed. -/
theorem sum_update {M : Type} [AddCommMonoid M] (g : ℕ → Stage → M) (stages : ℕ → Stage) {rank : ℕ}
    (listed : rank < size) (stage : Stage) :
    ∑ k ∈ range size, g k (Function.update stages rank stage k) + g rank (stages rank) =
      ∑ k ∈ range size, g k (stages k) + g rank stage := by
  have member := mem_range.mpr listed
  have others : ∑ k ∈ (range size).erase rank, g k (Function.update stages rank stage k) =
      ∑ k ∈ (range size).erase rank, g k (stages k) :=
    sum_congr rfl fun k other => by rw [Function.update_of_ne (ne_of_mem_erase other)]
  rw [← add_sum_erase _ _ member, ← add_sum_erase _ (fun k => g k (stages k)) member, others,
    Function.update_self]
  abel

/-! ## Steps -/

section Steps

variable {s t : Ranks} {rank : ℕ}

/-- One rank moves on, and the messages of it and of the rank before it may change. -/
theorem Consistent.update (consistent : Consistent size nMax x s) (listed : rank < size)
    {stage : Stage} {kept : ℕ → Option ℚ} {reduced : ℚ}
    (computed : Computed size nMax x rank stage)
    (here : rank + 1 < size → Linked size nMax x rank stage (s.stages (rank + 1)) (kept rank))
    (before : ∀ k, k + 1 = rank → Linked size nMax x k (s.stages k) stage (kept k))
    (others : ∀ k, k ≠ rank → k + 1 ≠ rank → kept k = s.kept k)
    (added : reduced + owed size nMax x rank stage =
      s.reduced + owed size nMax x rank (s.stages rank)) :
    Consistent size nMax x ⟨Function.update s.stages rank stage, kept, reduced⟩ := by
  refine ⟨fun k below => ?_, fun k below => ?_, ?_⟩
  · rcases eq_or_ne k rank with rfl | other
    · simpa using computed
    · simpa [other] using consistent.computed k below
  · rcases eq_or_ne k rank with rfl | other
    · simpa using here below
    · rcases eq_or_ne (k + 1) rank with rfl | elsewhere
      · simpa [other] using before k rfl
      · simpa [other, elsewhere, others k other elsewhere] using consistent.linked k below
  · have updated := sum_update (owed size nMax x) s.stages listed stage
    have total := consistent.total
    dsimp only
    linarith

theorem stages_setStage (stage : Stage) :
    (s.setStage rank stage).stages = Function.update s.stages rank stage := rfl

theorem kept_setKept (message : Option ℚ) :
    (s.setKept rank message).kept = Function.update s.kept rank message := rfl

theorem contribution_of_ne_zero (later : rank ≠ 0) :
    contribution size nMax x rank = (loop size nMax x rank).2 * received size nMax x rank := by
  simp [contribution, later]

theorem linked_congr {k : ℕ} {stage next stage' next' : Stage} {kept : Option ℚ}
    (linked : Linked size nMax x k stage next kept) (sent : Sent stage' ↔ Sent stage)
    (received : Received next' ↔ Received next) : Linked size nMax x k stage' next' kept := by
  obtain ⟨order, unsent, underWay, done⟩ := linked
  rw [← sent, ← received] at *
  exact ⟨order, unsent, underWay, done⟩

theorem computed_sentStage (size : ℕ) (rank : ℕ) :
    Computed size nMax x rank (sentStage rank (loop size nMax x rank).2) := by
  rw [sentStage]
  split
  · next later => exact ⟨later, rfl⟩
  · next first =>
    rw [not_not.mp first]
    rfl

theorem sent_sentStage (rank : ℕ) (sum : ℚ) : Sent (sentStage rank sum) := by
  rw [sentStage]
  split <;> trivial

theorem received_sentStage (later : rank ≠ 0) (sum : ℚ) : ¬Received (sentStage rank sum) := by
  rw [sentStage, if_pos later]
  exact id

theorem owed_sentStage (sum : ℚ) :
    owed size nMax x rank (sentStage rank sum) = contribution size nMax x rank := by
  rw [sentStage]
  split <;> rfl

theorem compute_consistent (consistent : Consistent size nMax x s) (listed : rank < size)
    (stepped : s.compute size nMax x rank = some t) : Consistent size nMax x t := by
  rw [Ranks.compute] at stepped
  split at stepped
  · next fresh =>
    cases stepped
    split
    · next inner =>
      refine consistent.update listed ⟨by omega, rfl⟩ ?_ ?_ (fun _ _ _ => rfl) ?_
      · intro below
        have linked := consistent.linked rank below
        rw [fresh] at linked
        exact linked_congr linked Iff.rfl Iff.rfl
      · rintro k rfl
        have linked := consistent.linked k listed
        rw [fresh] at linked
        exact linked_congr linked Iff.rfl Iff.rfl
      · rw [fresh]
        rfl
    · next last =>
      refine consistent.update listed (computed_sentStage size rank) (fun below => by omega) ?_
        (fun _ _ _ => rfl) ?_
      · rintro k rfl
        have linked := consistent.linked k listed
        rw [fresh] at linked
        exact linked_congr linked Iff.rfl
          (iff_of_false (received_sentStage (Nat.succ_ne_zero k) _) id)
      · rw [fresh, owed_sentStage]
        rfl
  · cases stepped

/-- The message of the rank is kept. -/
theorem Consistent.kept (consistent : Consistent size nMax x s) (listed : rank < size) {f sum : ℚ}
    (waiting : s.stages rank = .send f sum) :
    Consistent size nMax x ((s.setKept rank (some f)).setStage rank (sentStage rank sum)) := by
  have computed := consistent.computed rank listed
  rw [waiting] at computed
  obtain ⟨inner, numbers⟩ := computed
  refine consistent.update listed ?_ ?_ ?_ ?_ ?_
  · rw [show sum = (loop size nMax x rank).2 from congrArg Prod.snd numbers]
    exact computed_sentStage size rank
  · intro below
    obtain ⟨order, -, -, -⟩ := consistent.linked rank below
    rw [waiting] at order
    refine ⟨fun _ => sent_sentStage rank sum, fun other => (other (sent_sentStage rank sum)).elim,
      fun _ _ => ?_, fun received => (order received).elim⟩
    rw [kept_setKept, Function.update_self]
    exact congrArg some (congrArg Prod.fst numbers)
  · rintro k rfl
    have linked := consistent.linked k listed
    rw [waiting] at linked
    rw [kept_setKept, Function.update_of_ne (Nat.succ_ne_self k).symm]
    exact linked_congr linked Iff.rfl (iff_of_false (received_sentStage (Nat.succ_ne_zero k) _) id)
  · intro k other _
    exact Function.update_of_ne other ..
  · rw [waiting, owed_sentStage]
    rfl

/-- A message that was kept is received. -/
theorem Consistent.taken (consistent : Consistent size nMax x s) (listed : rank < size) {f sum : ℚ}
    (waiting : s.stages rank = .recv sum) (kept : s.kept (rank - 1) = some f) :
    Consistent size nMax x
      ((s.setKept (rank - 1) none).setStage rank (.reduce (sum * f))) := by
  have computed := consistent.computed rank listed
  rw [waiting] at computed
  obtain ⟨later, numbers⟩ := computed
  obtain ⟨k, rfl⟩ := Nat.exists_eq_succ_of_ne_zero later
  rw [Nat.succ_sub_one] at kept ⊢
  obtain ⟨order, unsent, underWay, done⟩ := consistent.linked k listed
  rw [show s.stages (k + 1) = _ from waiting] at order underWay done
  have sender : Sent (s.stages k) := by
    by_contra before
    cases (unsent before).symm.trans kept
  have value := (underWay sender id).symm.trans kept
  refine consistent.update listed ?_ ?_ ?_ ?_ ?_
  · rw [Computed, contribution_of_ne_zero later, numbers, ← Option.some.inj value]
    rfl
  · intro below
    have linked := consistent.linked (k + 1) below
    rw [show s.stages (k + 1) = _ from waiting] at linked
    rw [kept_setKept, Function.update_of_ne (Nat.succ_ne_self k)]
    exact linked_congr linked Iff.rfl Iff.rfl
  · intro j before
    obtain rfl := Nat.succ.inj before
    rw [kept_setKept, Function.update_self]
    exact ⟨fun _ => sender, fun _ => rfl, fun _ other => (other trivial).elim, fun _ => rfl⟩
  · intro j _ elsewhere
    exact Function.update_of_ne (fun same => elsewhere (congrArg Nat.succ same)) ..
  · rw [waiting]
    rfl

theorem reduce_consistent (consistent : Consistent size nMax x s) (listed : rank < size)
    (stepped : s.reduce rank = some t) : Consistent size nMax x t := by
  rw [Ranks.reduce] at stepped
  split at stepped
  · next sum waiting =>
    cases stepped
    have computed := consistent.computed rank listed
    rw [waiting] at computed
    refine consistent.update listed trivial ?_ ?_ (fun _ _ _ => rfl) ?_
    · intro below
      have linked := consistent.linked rank below
      rw [waiting] at linked
      exact linked_congr linked Iff.rfl Iff.rfl
    · rintro k rfl
      have linked := consistent.linked k listed
      rw [waiting] at linked
      exact linked_congr linked Iff.rfl Iff.rfl
    · rw [waiting, show sum = contribution size nMax x rank from computed]
      exact add_zero _
  · cases stepped

/-- A send that waits for its receive does what keeping the message and receiving it do. -/
theorem meet_consistent (consistent : Consistent size nMax x s) (listed : rank + 1 < size)
    (stepped : s.meet rank = some t) : Consistent size nMax x t := by
  rw [Ranks.meet] at stepped
  split at stepped
  · next f sum sum' sending receiving =>
    cases stepped
    have kept := consistent.kept (Nat.lt_of_succ_lt listed) sending
    have unsent := (consistent.linked rank listed).unsent
    rw [sending] at unsent
    have waiting : ((s.setKept rank (some f)).setStage rank (sentStage rank sum)).stages (rank + 1) =
        .recv sum' := by simpa [Ranks.setStage, Ranks.setKept] using receiving
    have taken := kept.taken listed waiting (f := f) (by simp [Ranks.setStage, Ranks.setKept])
    have same : Function.update s.kept rank none = s.kept := by
      rw [← unsent id, Function.update_eq_self]
    simpa [Ranks.setStage, Ranks.setKept, same] using taken
  · cases stepped

theorem step_consistent {action : Action} (stepped : step size nMax x keeps s action = some t)
    (consistent : Consistent size nMax x s) : Consistent size nMax x t := by
  cases action with
  | compute rank =>
    obtain ⟨listed, stepped⟩ := Option.ite_none_right_eq_some.mp stepped
    exact compute_consistent consistent listed stepped
  | keep rank =>
    obtain ⟨listed, stepped⟩ := Option.ite_none_right_eq_some.mp stepped
    rw [Ranks.keep] at stepped
    split at stepped
    · next f sum sending =>
      obtain ⟨-, stepped⟩ := Option.ite_none_right_eq_some.mp stepped
      cases stepped
      exact consistent.kept listed sending
    · cases stepped
  | meet rank =>
    obtain ⟨listed, stepped⟩ := Option.ite_none_right_eq_some.mp stepped
    exact meet_consistent consistent listed stepped
  | recv rank =>
    obtain ⟨listed, stepped⟩ := Option.ite_none_right_eq_some.mp stepped
    rw [Ranks.recv] at stepped
    split at stepped
    · next sum f receiving kept =>
      cases stepped
      exact consistent.taken listed receiving kept
    · cases stepped
  | reduce rank =>
    obtain ⟨listed, stepped⟩ := Option.ite_none_right_eq_some.mp stepped
    exact reduce_consistent consistent listed stepped

/-! ## The end -/

def workLeft (size : ℕ) (stages : ℕ → Stage) : ℕ := ∑ rank ∈ range size, stepsLeft (stages rank)

theorem workLeft_update {stages : ℕ → Stage} (listed : rank < size) {stage : Stage}
    (less : stepsLeft stage < stepsLeft (stages rank)) :
    workLeft size (Function.update stages rank stage) < workLeft size stages := by
  have updated := sum_update (fun _ => stepsLeft) stages listed stage
  rw [workLeft, workLeft]
  omega

theorem stepsLeft_sentStage (rank : ℕ) (sum : ℚ) : stepsLeft (sentStage rank sum) ≤ 2 := by
  rw [sentStage]
  split
  · exact le_rfl
  · exact Nat.le_succ 1

/-- Every step is one of the few that a rank has to take. -/
theorem step_lowers {action : Action} (stepped : step size nMax x keeps s action = some t) :
    workLeft size t.stages < workLeft size s.stages := by
  cases action with
  | compute rank =>
    obtain ⟨listed, stepped⟩ := Option.ite_none_right_eq_some.mp stepped
    rw [Ranks.compute] at stepped
    split at stepped <;> cases stepped
    next fresh =>
      refine workLeft_update listed ?_
      rw [fresh]
      split
      · exact Nat.lt_succ_self 3
      · exact (stepsLeft_sentStage rank _).trans_lt (by decide)
  | keep rank =>
    obtain ⟨listed, stepped⟩ := Option.ite_none_right_eq_some.mp stepped
    rw [Ranks.keep] at stepped
    split at stepped
    · next f sum sending =>
      obtain ⟨-, stepped⟩ := Option.ite_none_right_eq_some.mp stepped
      cases stepped
      refine workLeft_update listed ?_
      rw [show (s.setKept rank (some f)).stages rank = _ from sending]
      exact (stepsLeft_sentStage rank _).trans_lt (Nat.lt_succ_self 2)
    · cases stepped
  | meet rank =>
    obtain ⟨listed, stepped⟩ := Option.ite_none_right_eq_some.mp stepped
    rw [Ranks.meet] at stepped
    split at stepped <;> cases stepped
    next f sum sum' sending receiving =>
      refine (workLeft_update listed ?_).trans (workLeft_update (Nat.lt_of_succ_lt listed) ?_)
      · rw [stages_setStage, Function.update_of_ne (Nat.succ_ne_self rank), receiving]
        exact Nat.lt_succ_self 1
      · rw [sending]
        exact (stepsLeft_sentStage rank _).trans_lt (Nat.lt_succ_self 2)
  | recv rank =>
    obtain ⟨listed, stepped⟩ := Option.ite_none_right_eq_some.mp stepped
    rw [Ranks.recv] at stepped
    split at stepped <;> cases stepped
    next sum f receiving kept =>
      refine workLeft_update listed ?_
      rw [show (s.setKept (rank - 1) none).stages rank = _ from receiving]
      exact Nat.lt_succ_self 1
  | reduce rank =>
    obtain ⟨listed, stepped⟩ := Option.ite_none_right_eq_some.mp stepped
    rw [Ranks.reduce] at stepped
    split at stepped <;> cases stepped
    next sum waiting =>
      refine workLeft_update listed ?_
      rw [show ({ s with reduced := s.reduced + sum } : Ranks).stages rank = _ from waiting]
      exact Nat.one_pos

theorem exists_compute (listed : rank < size) (fresh : s.stages rank = .compute) :
    ∃ action t, step size nMax x keeps s action = some t := by
  refine ⟨.compute rank, ?_⟩
  rw [step, if_pos listed, Ranks.compute, fresh]
  exact ⟨_, rfl⟩

/-- A rank that waits for the one before it, which may wait itself. -/
theorem exists_step_of_recv (consistent : Consistent size nMax x s) (listed : rank < size) {sum : ℚ}
    (waiting : s.stages rank = .recv sum) :
    ∃ action t, step size nMax x keeps s action = some t := by
  induction rank generalizing sum with
  | zero =>
    have computed := consistent.computed 0 listed
    rw [waiting] at computed
    exact (computed.1 rfl).elim
  | succ k ih =>
    have below : k < size := Nat.lt_of_succ_lt listed
    have linked := consistent.linked k listed
    rw [waiting] at linked
    have past (sent : Sent (s.stages k)) : ∃ action t, step size nMax x keeps s action = some t := by
      refine ⟨.recv (k + 1), ?_⟩
      rw [step, if_pos listed, Ranks.recv, waiting, Nat.add_sub_cancel, linked.underWay sent id]
      exact ⟨_, rfl⟩
    cases before : s.stages k with
    | compute => exact exists_compute below before
    | send f sum' =>
      refine ⟨.meet k, ?_⟩
      rw [step, if_pos listed, Ranks.meet, before, waiting]
      exact ⟨_, rfl⟩
    | recv sum' => exact ih below before
    | reduce sum' => exact past (before ▸ trivial)
    | finalize => exact past (before ▸ trivial)

/-- A rank that sends to the next one, which may have to send itself. -/
theorem exists_step_of_send (consistent : Consistent size nMax x s) (listed : rank < size) {f sum : ℚ}
    (waiting : s.stages rank = .send f sum) :
    ∃ action t, step size nMax x keeps s action = some t := by
  induction gap : size - rank generalizing rank f sum with
  | zero => omega
  | succ n ih =>
    have computed := consistent.computed rank listed
    rw [waiting] at computed
    have order := (consistent.linked rank computed.1).order
    rw [waiting] at order
    cases next : s.stages (rank + 1) with
    | compute => exact exists_compute computed.1 next
    | send f' sum' => exact ih computed.1 next (by omega)
    | recv sum' => exact exists_step_of_recv consistent computed.1 next
    | reduce sum' => exact (order (next ▸ trivial)).elim
    | finalize => exact (order (next ▸ trivial)).elim

theorem exists_step (consistent : Consistent size nMax x s) (unfinished : ¬Finished size s) :
    ∃ action t, step size nMax x keeps s action = some t := by
  rw [Finished] at unfinished
  push Not at unfinished
  obtain ⟨rank, listed, other⟩ := unfinished
  cases stage : s.stages rank with
  | compute => exact exists_compute listed stage
  | send f sum => exact exists_step_of_send consistent listed stage
  | recv sum => exact exists_step_of_recv consistent listed stage
  | reduce sum =>
    refine ⟨.reduce rank, ?_⟩
    rw [step, if_pos listed, Ranks.reduce, stage]
    exact ⟨_, rfl⟩
  | finalize => exact (other stage).elim

theorem Consistent.reduced_eq (consistent : Consistent size nMax x s) (finished : Finished size s) :
    s.reduced = res size nMax x := by
  rw [← consistent.total, sum_eq_zero, add_zero]
  intro rank member
  rw [finished rank (mem_range.mp member)]
  rfl

end Steps

/-- What rank 0 prints: the terms up to the block size, and behind them, when there are more ranks than
one, a last term divided by the block size and not by its number. With a single term, all ranks have it. -/
def printed (size nMax : ℕ) (x : ℚ) : ℚ :=
  let n := blockSize size nMax
  if n = 0 then size
  else series n x + if size = 1 then 0 else x ^ (n + 1) / (n * n.factorial)

theorem res_eq_printed (ranks : 0 < size) : res size nMax x = printed size nMax x := by
  rw [printed]
  split
  · next empty => exact res_of_blockSize empty
  · next terms =>
    split
    · next alone =>
      subst alone
      have whole : blockSize 1 nMax = nMax + 1 := by simp [blockSize, Nat.mod_one]
      rw [res_one, whole, add_zero, series, series, sum_range_succ _ (nMax + 1)]
    · exact res_of_two_le (by omega) (by omega)

/-- In any order of the steps, and whichever messages the library keeps: no more than four steps of each
rank are taken, the ranks that have not finished can always do so, and then rank 0 has the value. -/
theorem ranks_finish (ranks : 0 < size) {schedule : List Action} {s : Ranks}
    (success : run (step size nMax x keeps) init schedule = some s) :
    schedule.length ≤ 4 * size ∧ (Finished size s → s.reduced = printed size nMax x) ∧
      ∃ rest t, run (step size nMax x keeps) s rest = some t ∧ Finished size t := by
  have kept (s : Ranks) (action : Action) (t : Ranks)
      (stepped : step size nMax x keeps s action = some t) (consistent : Consistent size nMax x s) :
      Consistent size nMax x t := step_consistent stepped consistent
  have lowered (s : Ranks) (action : Action) (t : Ranks)
      (stepped : step size nMax x keeps s action = some t) (_ : Consistent size nMax x s) :
      workLeft size t.stages < workLeft size s.stages := step_lowers stepped
  have consistent := run_preserves kept success consistent_init
  have bound := length_run_le kept lowered success consistent_init
  have work : workLeft size init.stages = 4 * size := by
    simp [workLeft, init, stepsLeft, mul_comm]
  refine ⟨by omega, fun finished => ?_, ?_⟩
  · rw [consistent.reduced_eq finished, res_eq_printed ranks]
  · have progress (s : Ranks) (consistent : Consistent size nMax x s) (unfinished : ¬Finished size s) :
        ∃ action t, True ∧ step size nMax x keeps s action = some t := by
      obtain ⟨action, t, stepped⟩ := exists_step consistent unfinished
      exact ⟨action, t, trivial, stepped⟩
    obtain ⟨rest, t, -, finishes, -, finished⟩ := exists_final kept lowered progress consistent
    exact ⟨rest, t, finishes, finished⟩

/-- Three ranks, of which the library keeps no message; the last one has computed its block. -/
theorem ranks_finish_three : ∃ s rest t,
    run (step 3 4 2 fun _ => false) init [.compute 2] = some s ∧
      run (step 3 4 2 fun _ => false) s rest = some t ∧ Finished 3 t := by
  have success : run (step 3 4 2 fun _ => false) init [.compute 2] =
      some (init.setStage 2 (.recv (loop 3 4 2 2).2)) := rfl
  obtain ⟨-, -, rest, t, finishes, finished⟩ := ranks_finish (by decide) success
  exact ⟨_, rest, t, success, finishes, finished⟩

end SphereMultithreading.Soundness.P10
