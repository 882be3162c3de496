import SphereMultithreading.Model.P7.Dictionary
import SphereMultithreading.Proofs.Stdio
import SphereMultithreading.Soundness.P7.Search

/-! # The words of a dictionary

`fgets` takes a line of at most 62 characters with its newline, which is overwritten. Of a longer line,
and of a last line without a newline, a character of the line is overwritten.
-/

namespace SphereMultithreading.Proofs.P7

open Model.P7 Model.P7.Trie Model.Scanf Model.Stdio Soundness.P7

/-- The words that the constructor adds. -/
def words (file : Text) : List Text :=
  match _ : fgets lineSize file with
  | none => []
  | some (piece, rest) => piece.dropLast :: words rest
termination_by file.length
decreasing_by
  refine length_fgets_lt ?_ ‹_›
  decide

variable {file line piece rest : Text}

theorem words_nil : words [] = [] := by rw [words]; rfl

theorem words_cons (taken : fgets lineSize file = some (piece, rest)) :
    words file = piece.dropLast :: words rest := by
  rw [words]
  split
  · next missing => cases taken.symm.trans missing
  · next found =>
    cases taken.symm.trans found
    rfl

/-- A line that fits is a word. -/
theorem words_line (newline : '\n' ∉ line) (short : line.length < lineSize - 1) (rest : Text) :
    words (line ++ '\n' :: rest) = line :: words rest := by
  have taken : fgets lineSize (line ++ '\n' :: rest) = some (line ++ ['\n'], rest) := by
    rw [fgets, if_neg (by simp), takeLine_newline newline short]
  rw [words_cons taken, List.dropLast_concat]

/-- A last line without a newline loses its last letter. -/
theorem words_last (newline : '\n' ∉ line) (short : line.length < lineSize) :
    words line = if line = [] then [] else [line.dropLast] := by
  split
  · next empty => rw [empty, words_nil]
  · next nonempty =>
    have fits : line.length ≤ lineSize - 1 := Nat.le_sub_one_of_lt short
    have taken : fgets lineSize line = some (line, []) := by
      rw [fgets, if_neg nonempty, takeLine_end newline, List.take_of_length_le fits,
        List.drop_eq_nil_of_le fits]
    rw [words_cons taken, words_nil]

theorem words_unlines {lines : List Text} (newlines : ∀ line ∈ lines, '\n' ∉ line)
    (short : ∀ line ∈ lines, line.length < lineSize - 1) (rest : Text) :
    words (unlines lines ++ rest) = lines ++ words rest := by
  induction lines with
  | nil => rfl
  | cons line lines ih =>
    rw [List.forall_mem_cons] at newlines short
    rw [unlines_cons, List.append_assoc, List.cons_append, words_line newlines.1 short.1,
      ih newlines.2 short.2]
    rfl

/-- The array bounds the words. -/
theorem length_words : ∀ w ∈ words file, w.length < lineSize - 1 := by
  induction size : file.length using Nat.strong_induction_on generalizing file with
  | _ n ih =>
    cases taken : fgets lineSize file with
    | none =>
      rw [fgets_eq_none taken, words_nil]
      rintro w ⟨⟩
    | some pair =>
      obtain ⟨piece, rest⟩ := pair
      have shorter := length_fgets_lt (by decide) taken
      have fits := length_takeLine_le (lineSize - 1) file
      rw [(fgets_eq_some taken).2] at fits
      rw [words_cons taken]
      refine List.forall_mem_cons.mpr ⟨?_, ih rest.length (size ▸ shorter) rfl⟩
      rw [List.length_dropLast]
      simp only [lineSize] at fits ⊢
      omega

/-! ## Loading -/

theorem loadLoop_nil (t : Trie) : t.loadLoop [] = some (.ok (), t) := by rw [loadLoop]; rfl

/-- A turn of the loop. -/
theorem loadLoop_cons {t : Trie} (taken : fgets lineSize file = some (piece, rest)) :
    t.loadLoop file =
      if cString piece = [] then none
      else
        match t.addNewWord (cString piece).dropLast with
        | (.error e, t) => some (.error e, t)
        | (.ok (), t) => t.loadLoop rest := by
  rw [loadLoop]
  split
  · next missing => cases taken.symm.trans missing
  · next found =>
    cases taken.symm.trans found
    rfl

/-- A file of letters and newlines can be loaded. -/
theorem loadLoop_letters {t : Trie} {done : List Text} (holds : Holds t done)
    (allLetters : ∀ c ∈ file, IsLetter c ∨ c = '\n') :
    ∃ t', t.loadLoop file = some (.ok (), t') ∧ Holds t' (done ++ words file) := by
  induction size : file.length using Nat.strong_induction_on generalizing file t done with
  | _ n ih =>
    cases taken : fgets lineSize file with
    | none =>
      rw [fgets_eq_none taken, loadLoop_nil, words_nil, List.append_nil]
      exact ⟨t, rfl, holds⟩
    | some pair =>
      obtain ⟨piece, rest⟩ := pair
      obtain ⟨more, cut⟩ := fgets_eq_some taken
      have whole := takeLine_append (lineSize - 1) file
      have shorter := length_fgets_lt (by decide) taken
      have inside := newline_notMem_takeLine (lineSize - 1) file
      rw [cut] at whole inside
      dsimp only at whole inside
      rw [← whole] at allLetters
      have clean : '\x00' ∉ piece := fun member => by
        rcases allLetters _ (List.mem_append_left _ member) with isLetter | newline
        · exact absurd isLetter (by decide)
        · cases newline
      have filled : piece ≠ [] := by
        rintro rfl
        have same := congrArg List.length whole
        rw [List.nil_append] at same
        omega
      have wordLetters : ∀ c ∈ piece.dropLast, IsLetter c := by
        intro c member
        refine (allLetters c ?_).resolve_right fun newline => inside (newline ▸ member)
        exact List.mem_append_left _ (List.mem_of_mem_dropLast member)
      obtain ⟨t', added, holds'⟩ := holds.add wordLetters
      obtain ⟨last, loaded, holdsLast⟩ := ih rest.length (size ▸ shorter) holds'
        (fun c member => allLetters c (List.mem_append_right _ member)) rfl
      refine ⟨last, ?_, ?_⟩
      · rw [loadLoop_cons taken, cString_eq_self clean, if_neg filled]
        unfold addStep at added
        split at added
        · next stored =>
          cases added
          rw [stored]
          exact loaded
        · cases added
      · rw [words_cons taken]
        simpa using holdsLast

/-- Only letters are added without an exception. -/
theorem isLetter_of_addLoop {t t' : Trie} {p : ℕ} {word : Text}
    (added : t.addLoop p word = (.ok (), t')) : ∀ c ∈ word, IsLetter c := by
  induction word generalizing t p with
  | nil => rintro c ⟨⟩
  | cons ch rest ih =>
    rw [addLoop] at added
    split at added
    · cases added
    · next index =>
      have tail : ∀ c ∈ rest, IsLetter c := by
        split at added
        · exact ih added
        · exact ih added
      exact List.forall_mem_cons.mpr ⟨isLetter_of_getCharIndex index, tail⟩

/-- Whatever a trie is loaded from, its words are short. -/
theorem holds_of_loadLoop {t t' : Trie} {done : List Text} (holds : Holds t done)
    (loaded : t.loadLoop file = some (.ok (), t')) :
    ∃ added, Holds t' (done ++ added) ∧ ∀ w ∈ added, w.length < lineSize - 1 := by
  induction size : file.length using Nat.strong_induction_on generalizing file t done with
  | _ n ih =>
    cases taken : fgets lineSize file with
    | none =>
      rw [fgets_eq_none taken, loadLoop_nil] at loaded
      cases loaded
      exact ⟨[], by simpa using holds, by rintro w ⟨⟩⟩
    | some pair =>
      obtain ⟨piece, rest⟩ := pair
      have shorter := length_fgets_lt (by decide) taken
      rw [loadLoop_cons taken] at loaded
      split at loaded
      · cases loaded
      · next filled =>
        split at loaded
        · cases loaded
        · next next' stored =>
          obtain ⟨t₁, added, holds₁⟩ := holds.add (isLetter_of_addLoop stored)
          rw [addStep, stored] at added
          cases added
          obtain ⟨others, holdsLast, bounded⟩ := ih rest.length (size ▸ shorter) holds₁ loaded rfl
          refine ⟨(cString piece).dropLast :: others, by simpa using holdsLast, ?_⟩
          refine List.forall_mem_cons.mpr ⟨?_, bounded⟩
          have fits := length_takeLine_le (lineSize - 1) file
          rw [(fgets_eq_some taken).2] at fits
          have string : (cString piece).length ≤ piece.length :=
            (List.takeWhile_prefix _).length_le
          have some : 0 < (cString piece).length := List.length_pos_iff.mpr filled
          rw [List.length_dropLast]
          simp only [lineSize] at fits ⊢
          omega

end SphereMultithreading.Proofs.P7
