import SphereMultithreading.Proofs.P7.Dictionary

/-! # What a dictionary file is stored as

The file consists of lines of letters, each with a newline, and of the letters behind the last newline,
a line as well if there are any.
-/

namespace SphereMultithreading.Soundness.P7

open Model.P7 Model.P7.Trie Model.Scanf Model.Stdio Proofs.P7

/-- The final paths are those of the lines that are not empty. -/
def Stores (t : Trie) (lines : List Text) : Prop :=
  ∀ π, Stored t π ↔ ∃ line ∈ lines, line ≠ [] ∧ π = letters line

/-- No line is empty or too long for the array; and a last line without a newline is there with one as
well, and so is what is left of it without its last letter. -/
structure Storable (lines : List Text) (last : Text) : Prop where
  filled : [] ∉ lines
  short : ∀ line ∈ last :: lines, line.length < lineSize - 1
  whole : last ≠ [] → letters last ∈ lines.map letters ∧ letters last.dropLast ∈ lines.map letters

theorem length_letters (word : Text) : (letters word).length = word.length := List.length_map _

theorem letters_eq_nil {word : Text} : letters word = [] ↔ word = [] := List.map_eq_nil_iff

/-- What is stored of short lines. -/
private theorem stored_short {t : Trie} {lines : List Text} {last : Text}
    (holds : Holds t (words (unlines lines ++ last))) (newlines : ∀ line ∈ last :: lines, '\n' ∉ line)
    (short : ∀ line ∈ last :: lines, line.length < lineSize - 1) (π : List (Fin numLatinLetters)) :
    Stored t π ↔ (∃ line ∈ lines, π = letters line) ∨ last ≠ [] ∧ π = letters last.dropLast := by
  rw [List.forall_mem_cons] at newlines short
  rw [holds.stored, words_unlines newlines.2 short.2, words_last newlines.1 (by omega)]
  by_cases empty : last = []
  · simp [empty]
  · simp [empty, or_and_right, exists_or]

/-- A line without its last letter is another one. -/
private theorem letters_ne_dropLast {line : Text} (nonempty : line ≠ []) :
    letters line ≠ letters line.dropLast := by
  intro same
  have cut := congrArg List.length same
  have some := List.length_pos_iff.mpr nonempty
  rw [length_letters, length_letters, List.length_dropLast] at cut
  omega

private theorem storable_of_stores {t : Trie} {lines : List Text} {last : Text}
    (holds : Holds t (words (unlines lines ++ last))) (newlines : ∀ line ∈ last :: lines, '\n' ∉ line)
    (stores : Stores t (last :: lines)) : Storable lines last := by
  have short : ∀ line ∈ last :: lines, line.length < lineSize - 1 := by
    intro line member
    by_cases empty : line = []
    · rw [empty]
      decide
    · obtain ⟨w, added, same⟩ := (holds.stored _).mp ((stores _).mpr ⟨line, member, empty, rfl⟩)
      rw [← length_letters, same, length_letters]
      exact length_words w added
  have stored := stored_short holds newlines short
  refine ⟨fun member => ?_, short, fun some => ⟨?_, ?_⟩⟩
  · -- an empty line is stored as the empty path
    obtain ⟨line, -, nonempty, same⟩ :=
      (stores []).mp ((stored []).mpr (.inl ⟨[], member, rfl⟩))
    exact nonempty (letters_eq_nil.mp same.symm)
  · have whole := (stores _).mpr ⟨last, List.mem_cons_self .., some, rfl⟩
    rcases (stored _).mp whole with ⟨line, member, same⟩ | ⟨-, same⟩
    · exact List.mem_map.mpr ⟨line, member, same.symm⟩
    · exact absurd same (letters_ne_dropLast some)
  · obtain ⟨line, member, nonempty, same⟩ :=
      (stores _).mp ((stored (letters last.dropLast)).mpr (.inr ⟨some, rfl⟩))
    rcases List.mem_cons.mp member with rfl | member
    · exact absurd same.symm (letters_ne_dropLast some)
    · exact List.mem_map.mpr ⟨line, member, same.symm⟩

private theorem stores_of_storable {t : Trie} {lines : List Text} {last : Text}
    (holds : Holds t (words (unlines lines ++ last))) (newlines : ∀ line ∈ last :: lines, '\n' ∉ line)
    (storable : Storable lines last) : Stores t (last :: lines) := by
  have filled : ∀ line ∈ lines, line ≠ [] := by
    rintro line member rfl
    exact storable.filled member
  intro π
  rw [stored_short holds newlines storable.short]
  constructor
  · rintro (⟨line, member, rfl⟩ | ⟨some, rfl⟩)
    · exact ⟨line, List.mem_cons_of_mem _ member, filled line member, rfl⟩
    · obtain ⟨line, member, same⟩ := List.mem_map.mp (storable.whole some).2
      exact ⟨line, List.mem_cons_of_mem _ member, filled line member, same.symm⟩
  · rintro ⟨line, member, nonempty, rfl⟩
    rcases List.mem_cons.mp member with rfl | member
    · obtain ⟨line', member, same⟩ := List.mem_map.mp (storable.whole nonempty).1
      exact .inl ⟨line', member, same.symm⟩
    · exact .inl ⟨line, member, rfl⟩

/-- A file of lines of letters can be loaded, and is stored faithfully exactly when its lines are
storable. -/
theorem stores_iff {lines : List Text} {last : Text}
    (allLetters : ∀ line ∈ last :: lines, ∀ c ∈ line, IsLetter c) :
    ∃ t, load (unlines lines ++ last) = some (.ok (), t) ∧
      (Stores t (last :: lines) ↔ Storable lines last) := by
  have newlines : ∀ line ∈ last :: lines, '\n' ∉ line := fun line member newline =>
    absurd (allLetters line member _ newline) (by decide)
  have file : ∀ c ∈ unlines lines ++ last, IsLetter c ∨ c = '\n' := by
    rw [List.forall_mem_cons] at allLetters
    intro c member
    rcases List.mem_append.mp member with inLines | inLast
    · obtain ⟨line, listed, inLine⟩ := List.mem_flatMap.mp inLines
      rcases List.mem_append.mp inLine with letter | newline
      · exact .inl (allLetters.2 line listed c letter)
      · exact .inr (List.mem_singleton.mp newline)
    · exact .inl (allLetters.1 c inLast)
  obtain ⟨t, loaded, holds⟩ := loadLoop_letters holds_new file
  rw [List.nil_append] at holds
  exact ⟨t, loaded, storable_of_stores holds newlines, stores_of_storable holds newlines⟩

theorem stores_iff_mixed_case : ∃ t,
    load (unlines [['A', 'n'], ['a', 'n', 'd']] ++ ['A', 'N', 'D']) = some (.ok (), t) ∧
      (Stores t [['A', 'N', 'D'], ['A', 'n'], ['a', 'n', 'd']] ↔
        Storable [['A', 'n'], ['a', 'n', 'd']] ['A', 'N', 'D']) :=
  stores_iff (by simp [IsLetter])

/-- The last line has no newline and loses its last letter. -/
theorem stores_fails : ∃ t, load ['c', 'a', 't'] = some (.ok (), t) ∧ ¬ Stores t [['c', 'a', 't']] := by
  have file : ∀ c ∈ ['c', 'a', 't'], IsLetter c ∨ c = '\n' := by simp [IsLetter]
  obtain ⟨t, loaded, holds⟩ := loadLoop_letters holds_new file
  refine ⟨t, loaded, fun stores => ?_⟩
  obtain ⟨line, member, -, same⟩ := (stores (letters ['c', 'a'])).mp ((holds.stored _).mpr
    ⟨['c', 'a'], by rw [words_last (by decide) (by decide)]; decide, rfl⟩)
  rw [List.mem_singleton.mp member] at same
  exact absurd same (by decide)

end SphereMultithreading.Soundness.P7
