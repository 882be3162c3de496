import SphereMultithreading.Machine.Permits
import SphereMultithreading.Machine.Run
import SphereMultithreading.Model.P6.Acceptor

/-! # Where a connection of p6 can be

A connection is in the accept queue, in the channel of one worker or with one worker, and it stays
where it is until the acceptor or that worker takes it on. Only those are nowhere that the acceptor could not
send into a channel that was full. Whatever the acceptor draws, a worker gets its connections in the order they
came.
-/

namespace SphereMultithreading.Soundness.P6

open Machine Machine.Permits Model.P6 Model.P6.Passing

/-- The connections that are not with a worker yet, or with one of them, or that the acceptor has lost. -/
def everywhere (s : Passing) : Multiset ℕ :=
  s.listener.pending + ∑ w, ((s.channels w).pending : Multiset ℕ) + ∑ w, (s.slaveSockets w : Multiset ℕ) +
    s.lost

/-- What a worker has got and may still get, the oldest first. -/
def lineOf (s : Passing) (w : Fin numWorkers) : List ℕ :=
  (s.slaveSockets w).reverse ++ (s.channels w).pending ++ s.listener.pending

/-- Every connection that arrived is in one place, and every worker has its own in order. -/
structure Kept (s : Passing) : Prop where
  everywhere : everywhere s = Multiset.range s.arrived
  ordered : ∀ w, (lineOf s w).Pairwise (· < ·)

theorem kept_init : Kept init where
  everywhere := by simp [Soundness.P6.everywhere, init, Edge.empty]
  ordered w := by simp [lineOf, init, Edge.empty]

variable {s t : Passing} {a : Passing.Action}

/-- What arrives in one channel is added to what is in all of them. -/
private theorem sum_arrive (channels : Fin numWorkers → Edge ℕ) (w : Fin numWorkers) (connection : ℕ) :
    ∑ v, ((Function.update channels w ((channels w).arrive [connection]) v).pending : Multiset ℕ) =
      ∑ v, ((channels v).pending : Multiset ℕ) + {connection} := by
  apply add_right_cancel (b := ((channels w).pending : Multiset ℕ))
  rw [sum_update (fun channel : Edge ℕ => (channel.pending : Multiset ℕ)), Edge.arrive,
    ← Multiset.coe_add, Multiset.coe_singleton]
  abel

/-- What is taken from one channel was in one of them. -/
private theorem sum_drop (channels : Fin numWorkers → Edge ℕ) {w : Fin numWorkers} {connection : ℕ}
    {rest : List ℕ} (pending : (channels w).pending = connection :: rest) :
    ∑ v, ((Function.update channels w ((channels w).drop 1) v).pending : Multiset ℕ) + {connection} =
      ∑ v, ((channels v).pending : Multiset ℕ) := by
  apply add_right_cancel (b := (rest : Multiset ℕ))
  have total := sum_update (fun channel : Edge ℕ => (channel.pending : Multiset ℕ)) channels w
    ((channels w).drop 1)
  have left : ((channels w).drop 1).pending = rest := by simp [Edge.drop, pending]
  rw [pending, left, ← Multiset.cons_coe, ← Multiset.singleton_add, ← add_assoc] at total
  exact total

private theorem sum_slaves (slaves : Fin numWorkers → List ℕ) (w : Fin numWorkers) (connection : ℕ) :
    ∑ v, (Function.update slaves w (connection :: slaves w) v : Multiset ℕ) =
      ∑ v, (slaves v : Multiset ℕ) + {connection} := by
  apply add_right_cancel (b := (slaves w : Multiset ℕ))
  rw [sum_update (fun mine : List ℕ => (mine : Multiset ℕ)), ← Multiset.cons_coe,
    ← Multiset.singleton_add, add_assoc]

/-- The announcement of a channel is no part of what is in it. -/
private theorem pending_deliver (channels : Fin numWorkers → Edge ℕ) (w v : Fin numWorkers) :
    (Function.update channels w (channels w).deliver v).pending = (channels v).pending := by
  rcases eq_or_ne v w with rfl | differ
  · rw [Function.update_self]
    rfl
  · rw [Function.update_of_ne differ]

/-- Whatever a worker has or may get has arrived. -/
private theorem Kept.arrived (kept : Kept s) {w : Fin numWorkers} {connection : ℕ}
    (member : connection ∈ lineOf s w) : connection < s.arrived := by
  rw [← Multiset.mem_range, ← kept.everywhere, Soundness.P6.everywhere]
  simp only [lineOf, List.mem_append, List.mem_reverse] at member
  simp only [Multiset.mem_add, Multiset.mem_sum, Multiset.mem_coe, Finset.mem_univ, true_and]
  rcases member with (here | coming) | waiting
  · exact .inl (.inr ⟨w, here⟩)
  · exact .inl (.inl (.inr ⟨w, coming⟩))
  · exact .inl (.inl (.inl waiting))

/-- An accepted connection goes to the end of one channel; the other workers do without it. -/
private theorem kept_accept (kept : Kept s) {connection : ℕ} {rest : List ℕ}
    (pending : s.listener.pending = connection :: rest) (rand : Fin numWorkers) :
    Kept ({ s with
      listener := s.listener.drop 1
      acceptor := .epollWait }.sockFdWrite rand true connection) := by
  constructor
  · have whole := kept.everywhere
    simp only [everywhere, sockFdWrite, if_true, Edge.drop, pending, List.drop_one, List.tail_cons,
      sum_arrive, ← Multiset.cons_coe, ← Multiset.singleton_add] at whole ⊢
    rw [← whole]
    abel
  · intro w
    have before := kept.ordered w
    rcases eq_or_ne w rand with rfl | differ
    · simpa [lineOf, sockFdWrite, Edge.drop, Edge.arrive, pending] using before
    · refine List.Pairwise.sublist ?_ before
      simp [lineOf, sockFdWrite, Edge.drop, pending, differ]

/-- Without room in the channel all workers do without it. -/
private theorem kept_lost (kept : Kept s) {connection : ℕ} {rest : List ℕ}
    (pending : s.listener.pending = connection :: rest) (rand : Fin numWorkers) :
    Kept ({ s with
      listener := s.listener.drop 1
      acceptor := .epollWait }.sockFdWrite rand false connection) := by
  constructor
  · have whole := kept.everywhere
    simp only [everywhere, sockFdWrite, Bool.false_eq_true, if_false, Edge.drop, pending, List.drop_one,
      List.tail_cons, ← Multiset.coe_add, ← Multiset.cons_coe, ← Multiset.singleton_add] at whole ⊢
    rw [← whole]
    abel
  · intro w
    refine List.Pairwise.sublist ?_ (kept.ordered w)
    simp [lineOf, sockFdWrite, Edge.drop, pending]

theorem kept_step (stepped : s.step a = some t) (kept : Kept s) : Kept t := by
  cases a with
  | connect =>
    cases stepped
    constructor
    · have whole := kept.everywhere
      simp only [everywhere, connect, Edge.arrive, ← Multiset.coe_add] at whole ⊢
      rw [Multiset.range_succ, ← whole, ← Multiset.singleton_add, Multiset.coe_singleton]
      abel
    · intro w
      have line : lineOf s.connect w = lineOf s w ++ [s.arrived] := by
        simp [lineOf, connect, Edge.arrive]
      rw [line, List.pairwise_append]
      refine ⟨kept.ordered w, List.pairwise_singleton .., ?_⟩
      intro old member new same
      rw [List.mem_singleton.mp same]
      exact kept.arrived member
  | acceptorWait =>
    obtain ⟨-, same⟩ := Option.ite_none_right_eq_some.mp stepped
    cases same
    exact ⟨kept.everywhere, kept.ordered⟩
  | accept rand room =>
    simp only [Passing.step, Passing.accept] at stepped
    split at stepped
    · cases stepped
    · split at stepped
      · cases stepped
        exact ⟨kept.everywhere, kept.ordered⟩
      · next pending =>
        cases stepped
        cases room with
        | true => exact kept_accept kept pending rand
        | false => exact kept_lost kept pending rand
  | workerWait w =>
    obtain ⟨-, same⟩ := Option.ite_none_right_eq_some.mp stepped
    cases same
    constructor
    · simpa only [everywhere, pending_deliver] using kept.everywhere
    · intro v
      simpa only [lineOf, pending_deliver] using kept.ordered v
  | read w =>
    simp only [Passing.step, Passing.read] at stepped
    split at stepped
    · next connection rest _ pending =>
      cases stepped
      constructor
      · have whole := kept.everywhere
        simp only [everywhere, sum_slaves, ← sum_drop s.channels pending] at whole ⊢
        rw [← whole]
        abel
      · intro v
        have before := kept.ordered v
        rcases eq_or_ne v w with rfl | differ
        · simpa [lineOf, Edge.drop, pending] using before
        · simpa [lineOf, differ] using before
    · cases stepped

/-- In every run of clients, acceptor and workers, in every state: no connection is in two places, none but
those that could not be sent is lost, and every worker has got and will get its connections in the order in
which they came. -/
theorem connections_kept {actions : List Passing.Action}
    (success : run Passing.step init actions = some s) : Kept s :=
  run_preserves (fun _ _ _ => kept_step) success kept_init

/-- Five clients connect; the first is with a worker and the third in its channel, which had no room for the
second. -/
theorem connections_kept_four : ∃ s, run Passing.step init
    [.connect, .connect, .connect, .acceptorWait, .accept 2 true, .connect, .acceptorWait, .workerWait 2,
      .accept 2 false, .read 2, .connect, .acceptorWait, .accept 2 true] = some s ∧ Kept s ∧
      lineOf s 2 = [0, 2, 3, 4] ∧ s.lost = [1] := by
  have success : run Passing.step init [.connect, .connect, .connect, .acceptorWait, .accept 2 true, .connect,
    .acceptorWait, .workerWait 2, .accept 2 false, .read 2, .connect, .acceptorWait, .accept 2 true] =
      some _ := rfl
  exact ⟨_, success, connections_kept success, by decide, by decide⟩

end SphereMultithreading.Soundness.P6
