import Mathlib.Data.Option.Basic
import Mathlib.Logic.Basic

/-! # Finite runs of a partial step function

A machine is a partial step function on states and actions; `none` means that the action is not
enabled. `run` replays a list of actions. `Throughout` states a property of every state that a
run visits, and `Guarded` a condition on every step it takes, evaluated in the state before the
step. The two meet in `throughout_iff_guarded`: when a step keeps the property exactly if it was
guarded, a run keeps it exactly if all its steps were.

A deterministic machine with replies is compared with an abstract one by `replay_simulates`.
-/

namespace SphereMultithreading.Machine

variable {σ τ α β : Type*}

/-- Replays the actions in order, stopping at the first one that is not enabled. -/
def run (step : σ → α → Option σ) : σ → List α → Option σ
  | s, [] => some s
  | s, a :: rest => (step s a).bind fun next => run step next rest

/-- Some finite run leads from the first state to the second. -/
def Reachable (step : σ → α → Option σ) (source target : σ) : Prop :=
  ∃ actions, run step source actions = some target

/-- The property holds in every state the run visits, the first one included. -/
def Throughout (step : σ → α → Option σ) (P : σ → Prop) : σ → List α → Prop
  | s, [] => P s
  | s, a :: rest => P s ∧ ∀ next, step s a = some next → Throughout step P next rest

/-- Every action of the run meets the condition in the state in which it is taken. -/
def Guarded (step : σ → α → Option σ) (guard : σ → α → Prop) : σ → List α → Prop
  | _, [] => True
  | s, a :: rest => guard s a ∧ ∀ next, step s a = some next → Guarded step guard next rest

instance (step : σ → α → Option σ) (guard : σ → α → Prop) [∀ s a, Decidable (guard s a)] :
    ∀ s actions, Decidable (Guarded step guard s actions)
  | _, [] => isTrue trivial
  | s, a :: rest =>
      have (next : σ) : Decidable (Guarded step guard next rest) :=
        instDecidableGuarded step guard next rest
      inferInstanceAs (Decidable (guard s a ∧ ∀ next ∈ step s a, Guarded step guard next rest))

section Runs

variable {step : σ → α → Option σ} {P I : σ → Prop} {guard : σ → α → Prop}

@[simp] theorem run_nil (s : σ) : run step s [] = some s := rfl

theorem run_cons (s : σ) (a : α) (rest : List α) :
    run step s (a :: rest) = (step s a).bind fun next => run step next rest := rfl

theorem run_cons_eq_some {s t : σ} {a : α} {rest : List α} :
    run step s (a :: rest) = some t ↔ ∃ next, step s a = some next ∧ run step next rest = some t := by
  rw [run_cons, Option.bind_eq_some_iff]

theorem run_append (s : σ) (first second : List α) :
    run step s (first ++ second) = (run step s first).bind fun next => run step next second := by
  induction first generalizing s with
  | nil => rfl
  | cons a rest ih =>
    rw [List.cons_append, run_cons, run_cons, Option.bind_assoc]
    exact congrArg _ (funext ih)

theorem Reachable.run {s t u : σ} (reachable : Reachable step s t) {actions : List α}
    (success : run step t actions = some u) : Reachable step s u := by
  obtain ⟨earlier, before⟩ := reachable
  refine ⟨earlier ++ actions, ?_⟩
  rw [run_append, before]
  exact success

/-- A property preserved by every step survives a whole run. -/
theorem run_preserves (preserved : ∀ s a t, step s a = some t → I s → I t) {s t : σ}
    {actions : List α} (success : run step s actions = some t) (initial : I s) : I t := by
  induction actions generalizing s with
  | nil => cases success; exact initial
  | cons a rest ih =>
    obtain ⟨next, stepped, suffix⟩ := run_cons_eq_some.mp success
    exact ih suffix (preserved s a next stepped initial)

theorem Reachable.preserves (preserved : ∀ s a t, step s a = some t → I s → I t) {s t : σ}
    (reachable : Reachable step s t) (initial : I s) : I t := by
  obtain ⟨actions, success⟩ := reachable
  exact run_preserves preserved success initial

/-- A guarded action is enabled and keeps the invariant, so a guarded run reaches its end and
every state it visits satisfies the invariant. -/
theorem run_of_guarded (progress : ∀ s a, I s → guard s a → ∃ t, step s a = some t ∧ I t) {s : σ}
    {actions : List α} (guarded : Guarded step guard s actions) (initial : I s) :
    (∃ t, run step s actions = some t) ∧ Throughout step I s actions := by
  induction actions generalizing s with
  | nil => exact ⟨⟨s, rfl⟩, initial⟩
  | cons a rest ih =>
    obtain ⟨allowed, tail⟩ := guarded
    obtain ⟨next, stepped, kept⟩ := progress s a initial allowed
    obtain ⟨⟨last, suffix⟩, visited⟩ := ih (tail next stepped) kept
    refine ⟨⟨last, run_cons_eq_some.mpr ⟨next, stepped, suffix⟩⟩, initial, ?_⟩
    intro other stepped'
    obtain rfl := Option.some.inj (stepped.symm.trans stepped')
    exact visited

/-- When every action is enabled wherever the invariant holds, every run goes through. -/
theorem run_total (progress : ∀ s a, I s → ∃ t, step s a = some t ∧ I t) {s : σ} (initial : I s)
    (actions : List α) : ∃ t, run step s actions = some t ∧ I t := by
  induction actions generalizing s with
  | nil => exact ⟨s, rfl, initial⟩
  | cons a rest ih =>
    obtain ⟨next, stepped, kept⟩ := progress s a initial
    obtain ⟨last, suffix, keptLast⟩ := ih kept
    exact ⟨last, run_cons_eq_some.mpr ⟨next, stepped, suffix⟩, keptLast⟩

theorem Throughout.head {s : σ} {actions : List α} (throughout : Throughout step P s actions) :
    P s := by
  cases actions with
  | nil => exact throughout
  | cons a rest => exact throughout.1

theorem Throughout.imp {Q : σ → Prop} (weaken : ∀ s, P s → Q s) {s : σ} {actions : List α}
    (throughout : Throughout step P s actions) : Throughout step Q s actions := by
  induction actions generalizing s with
  | nil => exact weaken s throughout
  | cons a rest ih => exact ⟨weaken s throughout.1, fun next stepped => ih (throughout.2 next stepped)⟩

/-- Conditions that agree on the steps of a run guard it alike. -/
theorem guarded_congr {guard' : σ → α → Prop}
    (same : ∀ s a t, step s a = some t → I s → (guard s a ↔ guard' s a))
    (kept : ∀ s a t, step s a = some t → I s → I t) {s t : σ} {actions : List α}
    (success : run step s actions = some t) (initial : I s) :
    Guarded step guard s actions ↔ Guarded step guard' s actions := by
  induction actions generalizing s with
  | nil => exact Iff.rfl
  | cons a rest ih =>
    obtain ⟨next, stepped, suffix⟩ := run_cons_eq_some.mp success
    refine and_congr (same s a next stepped initial) (forall₂_congr fun other stepped' => ?_)
    obtain rfl := Option.some.inj (stepped.symm.trans stepped')
    exact ih suffix (kept s a next stepped initial)

/-- A run whose steps are all guarded visits only states with the property. -/
theorem throughout_of_guarded (holds : ∀ s, I s → P s)
    (kept : ∀ s a t, step s a = some t → I s → guard s a → I t) {s : σ} {actions : List α}
    (guarded : Guarded step guard s actions) (initial : I s) : Throughout step P s actions := by
  induction actions generalizing s with
  | nil => exact holds s initial
  | cons a rest ih =>
    refine ⟨holds s initial, fun next stepped => ?_⟩
    exact ih (guarded.2 next stepped) (kept s a next stepped initial guarded.1)

/-- Steps that are guarded keep the invariant, and with it meet a further condition. -/
theorem Guarded.imp {guard' : σ → α → Prop} (implies : ∀ s a, I s → guard s a → guard' s a)
    (kept : ∀ s a t, step s a = some t → I s → guard s a → I t) {s : σ} {actions : List α}
    (guarded : Guarded step guard s actions) (initial : I s) : Guarded step guard' s actions := by
  induction actions generalizing s with
  | nil => trivial
  | cons a rest ih =>
    refine ⟨implies s a initial guarded.1, fun next stepped => ?_⟩
    exact ih (guarded.2 next stepped) (kept s a next stepped initial guarded.1)

/-- A condition on the actions alone holds of all those that are taken. -/
theorem forall_mem_of_guarded {allowed : α → Prop} {s t : σ} {actions : List α}
    (success : run step s actions = some t) (guarded : Guarded step (fun _ a => allowed a) s actions) :
    ∀ a ∈ actions, allowed a := by
  induction actions generalizing s with
  | nil => exact fun a member => absurd member List.not_mem_nil
  | cons a rest ih =>
    obtain ⟨next, stepped, suffix⟩ := run_cons_eq_some.mp success
    exact List.forall_mem_cons.mpr ⟨guarded.1, ih suffix (guarded.2 next stepped)⟩

/-- The same of steps that are taken. -/
theorem Guarded.imp_of_run {guard' : σ → α → Prop}
    (kept : ∀ s a t, step s a = some t → I s → guard s a → guard' s a ∧ I t) {s t : σ}
    {actions : List α} (success : run step s actions = some t) (guarded : Guarded step guard s actions)
    (initial : I s) : Guarded step guard' s actions := by
  induction actions generalizing s with
  | nil => trivial
  | cons a rest ih =>
    obtain ⟨next, stepped, suffix⟩ := run_cons_eq_some.mp success
    obtain ⟨allowed, keptNext⟩ := kept s a next stepped initial guarded.1
    refine ⟨allowed, fun other stepped' => ?_⟩
    obtain rfl := Option.some.inj (stepped.symm.trans stepped')
    exact ih suffix (guarded.2 next stepped) keptNext

theorem guarded_true (s : σ) (actions : List α) : Guarded step (fun _ _ => True) s actions := by
  induction actions generalizing s with
  | nil => trivial
  | cons a rest ih => exact ⟨trivial, fun next _ => ih next⟩

/-- Steps that keep an invariant are guarded by what it says of them. -/
theorem guarded_of_run (kept : ∀ s a t, step s a = some t → I s → guard s a ∧ I t) {s t : σ}
    {actions : List α} (success : run step s actions = some t) (initial : I s) :
    Guarded step guard s actions :=
  (guarded_true s actions).imp_of_run (fun s a t stepped holds _ => kept s a t stepped holds) success
    initial

/-- When a step out of an invariant state keeps the property exactly if it is guarded, a run
visits only states with the property exactly if all its steps are guarded. -/
theorem throughout_iff_guarded (holds : ∀ s, I s → P s)
    (kept : ∀ s a t, step s a = some t → I s → guard s a → I t)
    (necessary : ∀ s a t, step s a = some t → I s → P t → guard s a) {s t : σ}
    {actions : List α} (success : run step s actions = some t) (initial : I s) :
    Throughout step P s actions ↔ Guarded step guard s actions := by
  induction actions generalizing s with
  | nil => exact iff_of_true (holds s initial) trivial
  | cons a rest ih =>
    obtain ⟨next, stepped, suffix⟩ := run_cons_eq_some.mp success
    constructor
    · rintro ⟨-, tail⟩
      have allowed := necessary s a next stepped initial (tail next stepped).head
      refine ⟨allowed, fun other stepped' => ?_⟩
      obtain rfl := Option.some.inj (stepped.symm.trans stepped')
      exact (ih suffix (kept s a next stepped initial allowed)).mp (tail next stepped)
    · rintro ⟨allowed, tail⟩
      refine ⟨holds s initial, fun other stepped' => ?_⟩
      obtain rfl := Option.some.inj (stepped.symm.trans stepped')
      exact (ih suffix (kept s a next stepped initial allowed)).mpr (tail next stepped)

end Runs

/-! ## Machines with replies -/

/-- Replays the actions of a machine that answers each of them. -/
def replay (step : σ → α → Option (β × σ)) : σ → List α → Option (List β × σ)
  | s, [] => some ([], s)
  | s, a :: rest => (step s a).bind fun (reply, next) =>
      (replay step next rest).map fun (replies, last) => (reply :: replies, last)

/-- The same for a total machine. -/
def replies (step : σ → α → β × σ) : σ → List α → List β × σ
  | s, [] => ([], s)
  | s, a :: rest =>
      let (reply, next) := step s a
      let (others, last) := replies step next rest
      (reply :: others, last)

theorem replies_append (step : σ → α → β × σ) (s : σ) (first second : List α) :
    replies step s (first ++ second) =
      ((replies step s first).1 ++ (replies step (replies step s first).2 second).1,
        (replies step (replies step s first).2 second).2) := by
  induction first generalizing s with
  | nil => rfl
  | cons a rest ih =>
    simp only [List.cons_append, replies]
    rw [ih]

/-- A concrete machine that answers every action as the abstract one does, and stays related to
it, answers every list of actions as the abstract one does. -/
theorem replay_simulates {concrete : σ → α → Option (β × σ)} {abstract : τ → α → β × τ}
    {R : σ → τ → Prop}
    (simulates : ∀ s t a, R s t →
      ∃ next, concrete s a = some ((abstract t a).1, next) ∧ R next (abstract t a).2)
    {s : σ} {t : τ} (related : R s t) (actions : List α) :
    ∃ last, replay concrete s actions = some ((replies abstract t actions).1, last) ∧
      R last (replies abstract t actions).2 := by
  induction actions generalizing s t with
  | nil => exact ⟨s, rfl, related⟩
  | cons a rest ih =>
    obtain ⟨next, answered, relatedNext⟩ := simulates s t a related
    obtain ⟨last, replayed, relatedLast⟩ := ih relatedNext
    refine ⟨last, ?_, relatedLast⟩
    simp only [replay, replies, answered, Option.bind_some, replayed, Option.map_some]

/-- The machine takes the actions one after the other, and each reply is one that a specification may
give, which may choose where it goes on as long as it looks like the machine. -/
def Explained (step : σ → α → Option (β × σ)) (serves : τ → α → β → τ → Prop)
    (Looks : σ → τ → Prop) : σ → τ → List α → Prop
  | _, _, [] => True
  | s, t, a :: rest => ∃ reply s' t', step s a = some (reply, s') ∧ serves t a reply t' ∧
      Looks s' t' ∧ Explained step serves Looks s' t' rest

/-- A relation that every guarded step carries on, with a reply of the specification, explains guarded
runs. -/
theorem explained_of_guarded {step : σ → α → Option (β × σ)} {serves : τ → α → β → τ → Prop}
    {R Looks : σ → τ → Prop} {guard : σ → α → Prop} (looks : ∀ s t, R s t → Looks s t)
    (simulates : ∀ s t a, R s t → guard s a → ∃ reply s' t', step s a = some (reply, s') ∧
      serves t a reply t' ∧ R s' t') {s : σ} {t : τ} {actions : List α} (related : R s t)
    (guarded : Guarded (fun s a => (step s a).map Prod.snd) guard s actions) :
    Explained step serves Looks s t actions := by
  induction actions generalizing s t with
  | nil => trivial
  | cons a rest ih =>
    obtain ⟨allowed, tail⟩ := guarded
    obtain ⟨reply, s', t', stepped, served, related'⟩ := simulates s t a related allowed
    refine ⟨reply, s', t', stepped, served, looks s' t' related', ih related' (tail s' ?_)⟩
    change (step s a).map Prod.snd = some s'
    rw [stepped, Option.map_some]

end SphereMultithreading.Machine
