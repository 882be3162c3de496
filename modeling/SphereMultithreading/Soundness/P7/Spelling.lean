import SphereMultithreading.Soundness.P7.Search

/-! # How the suggestions are spelt

A suggestion begins with the letters of the query as they were typed, all but the last one; the others
are those of the words that created the nodes.
-/

namespace SphereMultithreading.Soundness.P7

open Machine Model.P7 Model.P7.Trie LabelledTree Proofs.P7

/-- For two spellings of a prefix the same is answered, byte for byte, exactly when no word begins with
it or they differ in their last letter at most. -/
theorem getWords_eq_iff {words : List (List Char)} {start start' : List Char}
    (wordLetters : ∀ w ∈ words, ∀ c ∈ w, IsLetter c) (startLetters : ∀ c ∈ start, IsLetter c)
    (startLetters' : ∀ c ∈ start', IsLetter c) (nonempty : start ≠ [])
    (same : letters start = letters start') :
    ∃ t, run addStep .new words = some t ∧ (t.getWords start = t.getWords start' ↔
      (∀ w ∈ words, ¬ letters start <+: letters w) ∨ start.dropLast = start'.dropLast) := by
  obtain ⟨t, added, holds⟩ := holds_of_run holds_new wordLetters
  rw [List.nil_append] at holds
  refine ⟨t, added, ?_⟩
  by_cases absent : ∀ w ∈ words, ¬ letters start <+: letters w
  · have unknown : follow (child t) pHead (letters start) = none := by
      refine Option.eq_none_iff_forall_not_mem.mpr fun p reached => ?_
      rcases (holds.known _).mp ⟨p, reached⟩ with empty | ⟨w, member, before⟩
      · exact nonempty (List.map_eq_nil_iff.mp empty)
      · exact absent w member before
    refine iff_of_true ?_ (.inl absent)
    rw [getWords_of_unknown startLetters unknown, getWords_of_unknown startLetters' (same ▸ unknown)]
  · rw [or_iff_right absent]
    push Not at absent
    obtain ⟨w, member, begins⟩ := absent
    obtain ⟨p, reached⟩ := (holds.known _).mpr (.inr ⟨w, member, begins⟩)
    rw [getWords_of_reached holds.wellFormed startLetters reached,
      getWords_of_reached holds.wellFormed startLetters' (same ▸ reached)]
    constructor
    · intro answers
      have listed : letters w ∈ extensions words start := by
        rw [extensions, Finset.mem_sort, Finset.mem_filter, List.mem_toFinset]
        exact ⟨List.mem_map_of_mem member, begins⟩
      rw [← collected holds nonempty reached] at listed
      -- both answers go on alike behind the letters of the query
      cases found : collect t t.size p with
      | nil =>
        rw [found] at listed
        cases listed
      | cons first others =>
        rw [found] at answers
        have heads := (List.cons.inj (Except.ok.inj (Option.some.inj answers))).1
        exact List.append_cancel_right heads
    · intro typed
      rw [typed]

theorem getWords_eq_iff_last : ∃ t, run addStep .new [['t', 'h', 'e'], ['T', 'o']] = some t ∧
    (t.getWords ['t', 'H'] = t.getWords ['t', 'h'] ↔
      (∀ w ∈ [['t', 'h', 'e'], ['T', 'o']], ¬ letters ['t', 'H'] <+: letters w) ∨
        ['t', 'H'].dropLast = ['t', 'h'].dropLast) :=
  getWords_eq_iff (by simp [IsLetter]) (by simp [IsLetter]) (by simp [IsLetter]) (by decide) (by decide)

/-- The word `the` is found twice, with two spellings. -/
theorem getWords_fails : ∃ t, run addStep .new [['t', 'h', 'e']] = some t ∧
    t.getWords ['t', 'h'] = some (.ok [['t', 'h', 'e']]) ∧
    t.getWords ['T', 'H'] = some (.ok [['T', 'h', 'e']]) :=
  ⟨_, rfl, rfl, rfl⟩

end SphereMultithreading.Soundness.P7
