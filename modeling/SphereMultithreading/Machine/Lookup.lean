import Mathlib.Data.List.Nodup

/-! # Looking an entry up by its value

Entries with distinct keys are searched for a value, and the first one with it is taken. An entry whose
value an earlier one has is not found. It stays found when other entries go, and when an entry with
another value comes.
-/

namespace SphereMultithreading.Machine

variable {α β : Type*} [DecidableEq β] {front rest entries kept : List (α × β)} {key : α} {value : β}
  {entry : α × β}

/-- The search for the value of the entry finds the entry. -/
def Leads (entries : List (α × β)) (key : α) : Prop :=
  ∃ value, entries.find? (·.2 = value) = some (key, value)

namespace Leads

theorem mem (leads : Leads entries key) : key ∈ entries.map Prod.fst := by
  obtain ⟨value, found⟩ := leads
  exact List.mem_map_of_mem (List.mem_of_find?_eq_some found)

private theorem find?_sublist (nodup : (entries.map Prod.fst).Nodup) (sub : kept.Sublist entries)
    (found : entries.find? (·.2 = value) = some (key, value)) (stays : key ∈ kept.map Prod.fst) :
    kept.find? (·.2 = value) = some (key, value) := by
  induction sub with
  | slnil => exact found
  | cons entry sub ih =>
    rw [List.map_cons, List.nodup_cons] at nodup
    rw [List.find?_cons] at found
    split at found
    · obtain rfl := Option.some.inj found
      exact absurd ((sub.map Prod.fst).subset stays) nodup.1
    · exact ih nodup.2 found stays
  | cons_cons entry sub ih =>
    rw [List.map_cons, List.nodup_cons] at nodup
    rw [List.find?_cons] at found ⊢
    split at found
    · exact found
    · rcases List.mem_cons.mp stays with rfl | stays
      · exact absurd (List.mem_map_of_mem (List.mem_of_find?_eq_some found)) nodup.1
      · exact ih nodup.2 found stays

theorem sublist (leads : Leads entries key) (nodup : (entries.map Prod.fst).Nodup)
    (sub : kept.Sublist entries) (stays : key ∈ kept.map Prod.fst) : Leads kept key := by
  obtain ⟨value, found⟩ := leads
  exact ⟨value, find?_sublist nodup sub found stays⟩

theorem insert (leads : Leads (front ++ rest) key)
    (apart : ∀ value, (key, value) ∈ rest → entry.2 ≠ value) : Leads (front ++ entry :: rest) key := by
  obtain ⟨value, found⟩ := leads
  refine ⟨value, ?_⟩
  rw [List.find?_append] at found ⊢
  cases before : front.find? (·.2 = value) with
  | some other =>
    rw [before] at found
    exact found
  | none =>
    rw [before, Option.none_or] at found
    rw [Option.none_or, List.find?_cons_of_neg, found]
    simpa using apart value (List.mem_of_find?_eq_some found)

/-- No entry in front of one that is found has its value. -/
theorem ne_of_mem (leads : Leads kept key)
    (nodup : ((front ++ (key, value) :: rest).map Prod.fst).Nodup)
    (sub : kept.Sublist (front ++ (key, value) :: rest)) (before : entry ∈ front)
    (stays : entry ∈ kept) : entry.2 ≠ value := by
  rintro rfl
  obtain ⟨value, found⟩ := leads
  have here : (key, entry.2) ∈ front ++ (key, entry.2) :: rest := by simp
  have same : (key, value) = (key, entry.2) :=
    List.inj_on_of_nodup_map nodup (sub.subset (List.mem_of_find?_eq_some found)) here rfl
  obtain rfl : value = entry.2 := (Prod.mk.inj same).2
  have distinct := (List.nodup_append.mp (List.map_append ▸ nodup)).2.2
  have behind {other : α × β} (inRest : other ∈ (key, entry.2) :: rest) : other ∉ front :=
    fun inFront => distinct _ (List.mem_map_of_mem inFront) _ (List.mem_map_of_mem inRest) rfl
  obtain ⟨keptFront, keptRest, rfl, subFront, subRest⟩ := List.sublist_append_iff.mp sub
  have inFront : entry ∈ keptFront := by
    rcases List.mem_append.mp stays with inFront | inRest
    · exact inFront
    · exact absurd before (behind (subRest.subset inRest))
  have hit : (keptFront.find? (·.2 = entry.2)).isSome := List.find?_isSome.mpr ⟨entry, inFront, by simp⟩
  obtain ⟨first, hit⟩ := Option.isSome_iff_exists.mp hit
  rw [List.find?_append, hit, Option.some_or, Option.some_inj] at found
  subst found
  exact behind List.mem_cons_self (subFront.subset (List.mem_of_find?_eq_some hit))

end Leads

theorem leads_append_cons (nodup : ((front ++ (key, value) :: rest).map Prod.fst).Nodup) :
    Leads (front ++ (key, value) :: rest) key ↔ ∀ entry ∈ front, entry.2 ≠ value := by
  constructor
  · intro leads entry before
    exact leads.ne_of_mem nodup (.refl _) before (List.mem_append_left _ before)
  · intro front
    refine ⟨value, ?_⟩
    rw [List.find?_append, List.find?_eq_none.mpr (by simpa using front), Option.none_or]
    simp

end SphereMultithreading.Machine
