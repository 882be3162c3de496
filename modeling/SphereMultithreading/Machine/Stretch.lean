import Mathlib.Data.List.Basic

/-! # Maximal stretches of a list

A stretch is a part of a list whose elements all have a property, with an element without it, or an end
of the list, on either side. Cutting the list at an element without the property cuts no stretch.
-/

namespace SphereMultithreading.Machine

variable {α : Type*} {P : α → Prop} {stretch l first rest : List α} {b : α}

/-- All elements have the property, and those next to them have not. -/
def IsStretch (P : α → Prop) (stretch l : List α) : Prop :=
  ∃ before after, l = before ++ (stretch ++ after) ∧ (∀ a ∈ stretch, P a) ∧
    (∀ a ∈ before.getLast?, ¬ P a) ∧ ∀ a ∈ after.head?, ¬ P a

/-- Only one stretch begins where the list does. -/
private theorem eq_of_append_cons {after : List α} (all : ∀ a ∈ stretch, P a)
    (ended : ∀ a ∈ after.head?, ¬ P a) (all' : ∀ a ∈ first, P a) (stop : ¬ P b)
    (same : stretch ++ after = first ++ b :: rest) : stretch = first ∧ after = b :: rest := by
  rcases List.append_eq_append_iff.mp same with ⟨more, rfl, behind⟩ | ⟨more, rfl, behind⟩
  · cases more with
    | nil => exact ⟨by simp, by simpa using behind⟩
    | cons c more =>
      rw [behind, List.cons_append, List.head?_cons] at ended
      exact absurd (all' c (by simp)) (ended c rfl)
  · cases more with
    | nil => exact ⟨by simp, by simpa using behind.symm⟩
    | cons c more =>
      obtain ⟨rfl, -⟩ := List.cons_eq_cons.mp behind
      exact absurd (all b (by simp)) stop

theorem isStretch_append_cons (all : ∀ a ∈ first, P a) (stop : ¬ P b) :
    IsStretch P stretch (first ++ b :: rest) ↔ stretch = first ∨ IsStretch P stretch rest := by
  constructor
  · rintro ⟨before, after, cut, all', began, ended⟩
    rcases List.eq_nil_or_concat before with rfl | ⟨before, c, rfl⟩
    · exact .inl (eq_of_append_cons all' ended all stop cut.symm).1
    have last : ¬ P c := began c (by simp)
    rw [List.concat_eq_append, List.append_assoc, List.singleton_append] at cut
    refine .inr ?_
    rcases List.append_eq_append_iff.mp cut with ⟨more, rfl, behind⟩ | ⟨more, rfl, behind⟩
    · cases more with
      | nil =>
        obtain ⟨rfl, rfl⟩ := List.cons_eq_cons.mp behind
        exact ⟨[], after, rfl, all', by simp, ended⟩
      | cons d more =>
        obtain ⟨rfl, rfl⟩ := List.cons_eq_cons.mp behind
        exact ⟨more ++ [c], after, by simp, all', by simpa using last, ended⟩
    · cases more with
      | nil =>
        obtain ⟨rfl, rfl⟩ := List.cons_eq_cons.mp behind
        exact ⟨[], after, rfl, all', by simp, ended⟩
      | cons d more =>
        obtain ⟨rfl, -⟩ := List.cons_eq_cons.mp behind
        exact absurd (all c (by simp)) last
  · rintro (rfl | ⟨before, after, rfl, all', began, ended⟩)
    · exact ⟨[], b :: rest, rfl, all, by simp, by simpa using stop⟩
    · refine ⟨first ++ b :: before, after, by simp, all', ?_, ended⟩
      rw [List.getLast?_append_of_ne_nil _ (List.cons_ne_nil b before)]
      cases before with
      | nil => simpa using stop
      | cons c before => simpa using began

theorem isStretch_of_all (all : ∀ a ∈ l, P a) : IsStretch P stretch l ↔ stretch = l := by
  constructor
  · rintro ⟨before, after, rfl, -, began, ended⟩
    have front : before = [] := by
      rcases List.eq_nil_or_concat before with rfl | ⟨before, c, rfl⟩
      · rfl
      · exact absurd (all c (by simp)) (began c (by simp))
    have behind : after = [] := by
      cases after with
      | nil => rfl
      | cons c after => exact absurd (all c (by simp)) (ended c rfl)
    rw [front, behind, List.nil_append, List.append_nil]
  · rintro rfl
    exact ⟨[], [], by simp, all, by simp, by simp⟩

end SphereMultithreading.Machine
