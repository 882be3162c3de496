import SphereMultithreading.Machine.Run
import Mathlib.Data.List.Basic
import Mathlib.Data.List.Infix
import Mathlib.Data.List.Nodup

/-! # Machines that record what happens

`recorded` runs a machine and writes down, with each step, the events it consists of. A law that
holds of the whole record after every step holds of every part of it up to some moment, provided a
step writes at most one event.
-/

namespace SphereMultithreading.Machine

variable {σ α ε : Type*}

/-- The machine, with the events of its steps recorded behind its state. -/
def recorded (step : σ → α → Option σ) (events : σ → α → σ → List ε) :
    σ × List ε → α → Option (σ × List ε) :=
  fun (s, log) a => (step s a).map fun t => (t, log ++ events s a t)

/-- Every `late` event comes after some `early` event. -/
def Precedes (early late : ε → Prop) (log : List ε) : Prop :=
  ∀ before event after, log = before ++ event :: after → late event → ∃ e ∈ before, early e

section Recorded

variable {step : σ → α → Option σ} {events : σ → α → σ → List ε}

theorem recorded_eq_some {s : σ} {log : List ε} {a : α} {next : σ × List ε} :
    recorded step events (s, log) a = some next ↔
      ∃ t, step s a = some t ∧ next = (t, log ++ events s a t) := by
  rw [recorded, Option.map_eq_some_iff]
  simp only [eq_comm]

/-- What an invariant says of the whole record is true of the record at every earlier moment. -/
theorem run_recorded {I : σ × List ε → Prop} {P : List ε → Prop}
    (single : ∀ s a t, (events s a t).length ≤ 1)
    (kept : ∀ s log a t, step s a = some t → I (s, log) → I (t, log ++ events s a t))
    (law : ∀ s log, I (s, log) → P log) {s t : σ} {log : List ε} {actions : List α}
    (initial : I (s, [])) (success : run (recorded step events) (s, []) actions = some (t, log)) :
    ∀ earlier, earlier <+: log → P earlier := by
  have whole : I (t, log) ∧ ∀ earlier, earlier <+: log → P earlier := by
    refine run_preserves (I := fun now : σ × List ε => I now ∧ ∀ earlier, earlier <+: now.2 →
      P earlier) ?_ success ⟨initial, ?_⟩
    · rintro ⟨s, log⟩ a next wrote ⟨invariant, earlierOnes⟩
      obtain ⟨t, stepped, rfl⟩ := recorded_eq_some.mp wrote
      have now := kept s log a t stepped invariant
      refine ⟨now, fun earlier part => ?_⟩
      -- a part of the longer record is the whole of it or a part of the shorter one
      rcases Nat.lt_or_ge log.length earlier.length with longer | shorter
      · have short := single s a t
        have bound := part.length_le
        simp only [List.length_append] at bound
        have all : earlier = log ++ events s a t := by
          apply part.eq_of_length
          simp only [List.length_append]
          omega
        rw [all]
        exact law t _ now
      · exact earlierOnes earlier (List.prefix_of_prefix_length_le part
          (List.prefix_append ..) shorter)
    · intro earlier part
      rw [List.prefix_nil.mp part]
      exact law s [] initial
  exact whole.2

end Recorded

/-- Two entries with the same key are the same entry, when no key occurs twice. -/
theorem cut_unique {κ : Type*} {key : ε → Option κ} {k : κ} {log : List ε} {a b : ε}
    {before after before' after' : List ε} (distinct : (log.filterMap key).Nodup)
    (ofA : key a = some k) (ofB : key b = some k) (left : log = before ++ a :: after)
    (right : log = before' ++ b :: after') : before = before' ∧ a = b ∧ after = after' := by
  -- otherwise the key would occur before and behind the later one of the two cuts
  have once {x y : ε} {front behind : List ε} (ofX : key x = some k) (ofY : key y = some k)
      (cut : log = front ++ y :: behind) : x ∉ front := by
    intro member
    rw [cut, List.filterMap_append, List.filterMap_cons_some ofY] at distinct
    have absent := (List.nodup_cons.mp (List.nodup_middle.mp distinct)).1
    exact absent (List.mem_append_left _ (List.mem_filterMap.mpr ⟨x, member, ofX⟩))
  rcases List.append_eq_append_iff.mp (left.symm.trans right) with
    ⟨between, rfl, rest⟩ | ⟨between, rfl, rest⟩
  · cases between with
    | nil =>
      obtain ⟨same, behind⟩ := List.cons.inj rest
      exact ⟨(List.append_nil _).symm, same, behind⟩
    | cons x between =>
      obtain rfl := (List.cons.inj rest).1
      exact absurd (List.mem_append_right _ (List.mem_cons_self ..)) (once ofA ofB right)
  · cases between with
    | nil =>
      obtain ⟨same, behind⟩ := List.cons.inj rest
      exact ⟨List.append_nil _, same.symm, behind.symm⟩
    | cons x between =>
      obtain rfl := (List.cons.inj rest).1
      exact absurd (List.mem_append_right _ (List.mem_cons_self ..)) (once ofB ofA left)

/-- Of things done in the order they were given, whatever was given before the next one to be done
is done already. -/
theorem mem_of_next {given done : List ε} {first next : ε} {before between after : List ε}
    (distinct : given.Nodup) (inOrder : done ++ [next] <+: given)
    (cut : given = before ++ first :: between ++ next :: after) : first ∈ done := by
  obtain ⟨rest, whole⟩ := inOrder
  rw [List.append_assoc, List.singleton_append] at whole
  obtain ⟨rfl, -⟩ := @cut_unique ε ε some next _ _ _ _ _ _ _ (by simpa using distinct) rfl rfl
    whole.symm cut
  exact List.mem_append_right _ (List.mem_cons_self ..)

end SphereMultithreading.Machine
