import SphereMultithreading.Machine.Run
import SphereMultithreading.Proofs.P7.Search

/-! # The search of p7 is exact

Up to letter case, `get_words` returns the added words that extend the prefix, without repetition
and in alphabetical order, as far as the first ten of them; without such a word it throws.
-/

namespace SphereMultithreading.Soundness.P7

open Machine Model.P7 Model.P7.Trie LabelledTree Proofs.P7

/-- Adding one more word, when that does not throw. -/
def addStep (t : Trie) (word : List Char) : Option Trie :=
  match t.addNewWord word with
  | (.ok (), t) => some t
  | (.error _, _) => none

/-- The added words that extend the prefix, each once, up to case and in alphabetical order. -/
def extensions (words : List (List Char)) (start : List Char) :
    List (List (Fin numLatinLetters)) :=
  ((words.map letters).toFinset.filter (letters start <+: ·)).sort (· ≤ ·)

/-- What the trie holds after words are added. -/
structure Holds (t : Trie) (words : List (List Char)) : Prop where
  wellFormed : WellFormed t
  stored : ∀ π, Stored t π ↔ ∃ w ∈ words, π = letters w
  known : ∀ π, Known t π ↔ π = [] ∨ ∃ w ∈ words, π <+: letters w

theorem holds_new : Holds .new [] where
  wellFormed := wellFormed_new
  stored := fun π => by simp [not_stored_new]
  known := fun π => by simp [Known, follow_new]

theorem Holds.add {t : Trie} {words : List (List Char)} (holds : Holds t words)
    {word : List Char} (allLetters : ∀ c ∈ word, IsLetter c) :
    ∃ t', addStep t word = some t' ∧ Holds t' (words ++ [word]) := by
  obtain ⟨t', added, wellFormed, stored, known⟩ := addNewWord_spec holds.wellFormed allLetters
  refine ⟨t', by rw [addStep, added], wellFormed, fun π => ?_, fun π => ?_⟩
  · rw [stored, holds.stored]
    simp [or_and_right, exists_or]
  · rw [known, holds.known]
    simp [or_and_right, exists_or, or_assoc]

theorem holds_of_run {t : Trie} {done words : List (List Char)} (holds : Holds t done)
    (allLetters : ∀ w ∈ words, ∀ c ∈ w, IsLetter c) :
    ∃ t', run addStep t words = some t' ∧ Holds t' (done ++ words) := by
  induction words generalizing t done with
  | nil => exact ⟨t, rfl, by simpa using holds⟩
  | cons word rest ih =>
    obtain ⟨t', added, holds'⟩ := holds.add (allLetters word List.mem_cons_self)
    obtain ⟨last, ran, holdsLast⟩ := ih holds' fun w member =>
      allLetters w (List.mem_cons_of_mem word member)
    exact ⟨last, run_cons_eq_some.mpr ⟨t', added, ran⟩, by simpa using holdsLast⟩

private theorem letters_concat {start : List Char} (nonempty : start ≠ []) :
    letters start = letters start.dropLast ++ [letter (start.getLast nonempty)] := by
  rw [letters, letters, ← List.map_singleton, ← List.map_append, List.dropLast_concat_getLast]

/-- The node of a prefix is below another one. -/
private theorem exists_edge {t : Trie} {start : List Char} {p : ℕ} (nonempty : start ≠ [])
    (reached : follow (child t) pHead (letters start) = some p) :
    ∃ r, child t r (letter (start.getLast nonempty)) = some p := by
  rw [letters_concat nonempty] at reached
  obtain ⟨r, -, edge⟩ := follow_concat_eq_some.mp reached
  exact ⟨r, edge⟩

/-- It carries the prefix's last letter. -/
private theorem letters_dropLast {t : Trie} (wellFormed : WellFormed t) {start : List Char} {p : ℕ}
    (nonempty : start ≠ []) (reached : follow (child t) pHead (letters start) = some p) :
    letters start.dropLast ++ [letter (t.heap p).c] = letters start := by
  obtain ⟨r, edge⟩ := exists_edge nonempty reached
  rw [letters_concat nonempty, wellFormed.labelled edge]

/-- The words found at the node of a prefix. -/
theorem collected {t : Trie} {words : List (List Char)} (holds : Holds t words)
    {start : List Char} (nonempty : start ≠ []) {p : ℕ}
    (reached : follow (child t) pHead (letters start) = some p) :
    ((collect t t.size p).map (start.dropLast ++ ·)).map letters = extensions words start := by
  have inside : p < t.size := holds.wellFormed.tree.lt_of_follow holds.wellFormed.root reached
  have paths : ((collect t t.size p).map (start.dropLast ++ ·)).map letters =
      ((below (child t) labels t.size p).filter fun entry => (t.heap entry.2).isFinal).map
        fun entry => letters start ++ entry.1 := by
    have same (w : List Char) : letters (start.dropLast ++ w) = letters start.dropLast ++ letters w :=
      List.map_append
    rw [← letters_dropLast holds.wellFormed nonempty reached, List.map_map,
      show letters ∘ (start.dropLast ++ ·) = (letters start.dropLast ++ ·) ∘ letters from funext same,
      ← List.map_map, letters_collect holds.wellFormed, List.map_map]
    refine List.map_congr_left fun entry _ => ?_
    simp
  have sorted : (((below (child t) labels t.size p).filter
      fun entry => (t.heap entry.2).isFinal).map fun entry => letters start ++ entry.1).Pairwise
        (· < ·) := by
    rw [List.pairwise_map]
    refine ((pairwise_below ?_ t.size p).sublist List.filter_sublist).imp List.append_left_lt
    exact List.pairwise_lt_finRange _
  rw [paths]
  refine sorted.eq_of_mem_iff (Finset.sortedLT_sort _).pairwise fun π => ?_
  rw [extensions, Finset.mem_sort, Finset.mem_filter, List.mem_toFinset, List.mem_map, List.mem_map]
  have listed {σ : List (Fin numLatinLetters)} {q : ℕ} :
      (σ, q) ∈ below (child t) labels t.size p ↔ follow (child t) p σ = some q :=
    holds.wellFormed.tree.mem_below List.mem_finRange inside (Nat.le_add_left _ _)
  constructor
  · rintro ⟨⟨σ, q⟩, member, rfl⟩
    obtain ⟨member, final⟩ := List.mem_filter.mp member
    have walked : follow (child t) pHead (letters start ++ σ) = some q := by
      rw [follow_append, reached]
      exact listed.mp member
    obtain ⟨w, known, same⟩ := (holds.stored _).mp ⟨q, walked, final⟩
    exact ⟨⟨w, known, same.symm⟩, List.prefix_append _ _⟩
  · rintro ⟨⟨w, known, rfl⟩, σ, cut⟩
    obtain ⟨q, walked, final⟩ := (holds.stored _).mpr ⟨w, known, rfl⟩
    rw [← cut, follow_append, reached] at walked
    exact ⟨(σ, q), List.mem_filter.mpr ⟨listed.mpr walked, final⟩, cut⟩

/-- At an existing prefix the loop ends with the first ten words found there. -/
theorem getWords_of_reached {t : Trie} (wellFormed : WellFormed t) {start : List Char}
    (startLetters : ∀ c ∈ start, IsLetter c) {p : ℕ}
    (reached : follow (child t) pHead (letters start) = some p) :
    t.getWords start =
      some (.ok (((collect t t.size p).map (start.dropLast ++ ·)).take numWords)) := by
  have inside : p < t.size := wellFormed.tree.lt_of_follow wellFormed.root reached
  have deep : t.size ≤ p + t.size := Nat.le_add_left _ _
  obtain ⟨rounds, bound, visited⟩ := visit_eq wellFormed inside deep [] [] start.dropLast
    (show ([] : List (List Char)).length < numWords by decide)
  have sorted : labels.Pairwise (· < ·) := List.pairwise_lt_finRange _
  have few := wellFormed.tree.length_below_le sorted List.mem_finRange inside deep
  obtain ⟨spare, enough⟩ : ∃ spare, 2 * t.size + 1 = rounds + (spare + 1) :=
    ⟨2 * t.size - rounds, by omega⟩
  have found : t.getNodePrefix start = .ok p := by
    rw [getNodePrefix, prefixLoop_eq t pHead startLetters, reached]
  rw [getWords, found]
  dsimp only
  rw [enough, visited, conclude, List.nil_append]
  split
  · rfl
  · next fewer => rw [wordsLoop, List.take_of_length_le (Nat.le_of_not_le fewer)]; rfl

/-- At a prefix of no word it throws. -/
theorem getWords_of_unknown {t : Trie} {start : List Char} (startLetters : ∀ c ∈ start, IsLetter c)
    (unknown : follow (child t) pHead (letters start) = none) :
    t.getWords start = some (.error noPrefix) := by
  have missing : t.getNodePrefix start = .error noPrefix := by
    rw [getNodePrefix, prefixLoop_eq t pHead startLetters, unknown]
  rw [getWords, missing]

/-- `get_words` returns or throws, whatever it is asked for; of the empty prefix this says what the model
does. -/
theorem getWords_total {t : Trie} (wellFormed : WellFormed t) (start : List Char) :
    ∃ result, t.getWords start = some result := by
  cases found : t.getNodePrefix start with
  | error e => exact ⟨.error e, by rw [getWords, found]⟩
  | ok p =>
    obtain ⟨startLetters, reached⟩ := follow_of_getNodePrefix found
    exact ⟨_, getWords_of_reached wellFormed startLetters reached⟩

end SphereMultithreading.Soundness.P7
