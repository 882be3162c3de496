import SphereMultithreading.Machine.LabelledTree
import SphereMultithreading.Model.P7.Trie

/-! # The trie as a labelled tree

A word is identified up to case with the list of its letters' places in the alphabet. In a
`WellFormed` trie the heap is a tree whose edges are labelled with these places, and every node's
character is a letter that belongs to the edge above it. `addNewWord_spec` says which paths and final nodes a word
adds, and `prefixLoop_eq` that `get_node_prefix` follows the path of its argument.
-/

namespace SphereMultithreading.Proofs.P7

open Model.P7 Model.P7.Trie LabelledTree

/-- Latin letters of either case. -/
def IsLetter (c : Char) : Prop := 'a' ≤ c ∧ c ≤ 'z' ∨ 'A' ≤ c ∧ c ≤ 'Z'

instance (c : Char) : Decidable (IsLetter c) := inferInstanceAs (Decidable (_ ∨ _))

/-- The place of a letter in the alphabet, whatever its case. It tells apart nothing but letters. -/
def letter (c : Char) : Fin numLatinLetters :=
  if 'a' ≤ c ∧ c ≤ 'z' then distance c 'a' else distance c 'A'

/-- A word up to letter case. -/
def letters (word : List Char) : List (Fin numLatinLetters) := word.map letter

theorem getCharIndex_eq {c : Char} (isLetter : IsLetter c) : getCharIndex c = .ok (letter c) := by
  rw [getCharIndex, letter]
  split
  · rfl
  · next upper => rw [if_pos (isLetter.resolve_left upper)]

/-- The edges of the heap. -/
def child (t : Trie) (p : ℕ) (k : Fin numLatinLetters) : Option ℕ := (t.heap p).pNext k

structure WellFormed (t : Trie) : Prop where
  tree : Tree (child t) t.size
  root : pHead < t.size
  labelled : ∀ {p k q}, child t p k = some q → letter (t.heap q).c = k
  lettered : ∀ {p k q}, child t p k = some q → IsLetter (t.heap q).c

/-- The path exists. -/
def Known (t : Trie) (path : List (Fin numLatinLetters)) : Prop :=
  ∃ q, follow (child t) pHead path = some q

/-- The path exists and ends in a final node. -/
def Stored (t : Trie) (path : List (Fin numLatinLetters)) : Prop :=
  ∃ q, follow (child t) pHead path = some q ∧ (t.heap q).isFinal = true

theorem Known.of_append {t : Trie} {path rest : List (Fin numLatinLetters)}
    (known : Known t (path ++ rest)) : Known t path := by
  obtain ⟨q, reached⟩ := known
  rw [follow_append] at reached
  obtain ⟨r, walked, -⟩ := Option.bind_eq_some_iff.mp reached
  exact ⟨r, walked⟩

/-! ## Adding words -/

@[simp] theorem child_setFinal (t : Trie) (p : ℕ) : child (t.setFinal p) = child t := by
  funext q k
  by_cases same : q = p
  · simp [child, setFinal, same]
  · simp [child, setFinal, same]

theorem heap_setFinal (t : Trie) (p q : ℕ) :
    ((t.setFinal p).heap q).c = (t.heap q).c ∧
    ((t.setFinal p).heap q).isFinal = (if q = p then true else (t.heap q).isFinal) := by
  by_cases same : q = p
  · simp [setFinal, same]
  · simp [setFinal, same]

private theorem new_heap (p : ℕ) : (Trie.new.heap p) = blank '\x00' := by
  simp [Trie.new, getNewNode]

theorem wellFormed_new : WellFormed Trie.new where
  tree := ⟨fun edge => by simp [child, new_heap, blank] at edge,
    fun edge => by simp [child, new_heap, blank] at edge⟩
  root := by simp [Trie.new, getNewNode]
  labelled := fun edge => by simp [child, new_heap, blank] at edge
  lettered := fun edge => by simp [child, new_heap, blank] at edge

/-- The head is the only node of a new trie, and is not final. -/
theorem follow_new {path : List (Fin numLatinLetters)} {q : ℕ} :
    follow (child Trie.new) pHead path = some q ↔ path = [] ∧ q = pHead := by
  cases path with
  | nil => simp [eq_comm]
  | cons k rest => simp [follow_cons, child, new_heap, blank]

theorem not_stored_new (path : List (Fin numLatinLetters)) : ¬ Stored Trie.new path := by
  rintro ⟨q, -, final⟩
  rw [new_heap] at final
  contradiction

/-- A new node below `p`. -/
def extended (t : Trie) (p : ℕ) (k : Fin numLatinLetters) (c : Char) : Trie :=
  (t.getNewNode c).2.setNext p k t.size

section Extend

variable {t : Trie} {p : ℕ} {k : Fin numLatinLetters}

theorem child_extended (wellFormed : WellFormed t) (inside : p < t.size) (c : Char) :
    child (extended t p k c) = graft (child t) p k t.size := by
  have leaf (k' : Fin numLatinLetters) : child t t.size k' = none := by
    refine Option.eq_none_iff_forall_not_mem.mpr fun q edge => ?_
    have := wellFormed.tree.grows edge
    omega
  have apart : p ≠ t.size := inside.ne
  funext q k'
  by_cases here : q = p
  · subst here
    simp [child, extended, setNext, getNewNode, graft, apart, Function.update_apply]
  · by_cases new : q = t.size
    · subst new
      rw [graft, Function.update_of_ne here, leaf]
      simp [child, extended, setNext, getNewNode, here, blank]
    · simp [child, extended, setNext, getNewNode, graft, here, new]

theorem heap_extended (inside : p < t.size) (c : Char) (q : ℕ) :
    ((extended t p k c).heap q).c = (if q = t.size then c else (t.heap q).c) ∧
    ((extended t p k c).heap q).isFinal = (if q = t.size then false else (t.heap q).isFinal) := by
  have apart : p ≠ t.size := inside.ne
  by_cases here : q = p
  · subst here
    simp [extended, setNext, getNewNode, apart]
  · by_cases new : q = t.size
    · subst new
      simp [extended, setNext, getNewNode, here, blank]
    · simp [extended, setNext, getNewNode, here, new]

theorem WellFormed.extended (wellFormed : WellFormed t) (inside : p < t.size) {c : Char}
    (isLetter : IsLetter c) (own : letter c = k) : WellFormed (extended t p k c) where
  tree := by
    rw [child_extended wellFormed inside]
    exact wellFormed.tree.grafted inside
  root := Nat.lt_succ_of_lt wellFormed.root
  labelled := by
    intro p' k' q edge
    rw [child_extended wellFormed inside] at edge
    rw [(heap_extended inside c q).1]
    rcases graft_eq_some.mp edge with ⟨-, rfl, rfl⟩ | ⟨-, old⟩
    · rw [if_pos rfl, own]
    · rw [if_neg (wellFormed.tree.grows old).2.ne, wellFormed.labelled old]
  lettered := by
    intro p' k' q edge
    rw [child_extended wellFormed inside] at edge
    rw [(heap_extended inside c q).1]
    rcases graft_eq_some.mp edge with ⟨-, rfl, rfl⟩ | ⟨-, old⟩
    · rwa [if_pos rfl]
    · rw [if_neg (wellFormed.tree.grows old).2.ne]
      exact wellFormed.lettered old

variable {path : List (Fin numLatinLetters)}

/-- The new node is at the end of one more path. -/
theorem follow_extended (wellFormed : WellFormed t) (here : follow (child t) pHead path = some p)
    (free : child t p k = none) (c : Char) (π : List (Fin numLatinLetters)) (q : ℕ) :
    follow (child (extended t p k c)) pHead π = some q ↔
      follow (child t) pHead π = some q ∨ π = path ++ [k] ∧ q = t.size := by
  rw [child_extended wellFormed (wellFormed.tree.lt_of_follow wellFormed.root here)]
  exact wellFormed.tree.follow_graft wellFormed.root here free

/-- It is not final. -/
theorem stored_extended (wellFormed : WellFormed t) (here : follow (child t) pHead path = some p)
    (free : child t p k = none) (c : Char) (π : List (Fin numLatinLetters)) :
    Stored (extended t p k c) π ↔ Stored t π := by
  have inside : p < t.size := wellFormed.tree.lt_of_follow wellFormed.root here
  constructor
  · rintro ⟨q, reached, final⟩
    rw [(heap_extended inside c q).2] at final
    split at final
    · contradiction
    · next old =>
      have reached := (follow_extended wellFormed here free c π q).mp reached
      exact ⟨q, reached.resolve_right fun new => old new.2, final⟩
  · rintro ⟨q, reached, final⟩
    have old := wellFormed.tree.lt_of_follow wellFormed.root reached
    refine ⟨q, (follow_extended wellFormed here free c π q).mpr (.inl reached), ?_⟩
    rw [(heap_extended inside c q).2, if_neg old.ne]
    exact final

theorem known_extended (wellFormed : WellFormed t) (here : follow (child t) pHead path = some p)
    (free : child t p k = none) (c : Char) (π : List (Fin numLatinLetters)) :
    Known (extended t p k c) π ↔ Known t π ∨ π = path ++ [k] := by
  simp only [Known, follow_extended wellFormed here free]
  constructor
  · rintro ⟨q, reached | ⟨same, -⟩⟩
    · exact .inl ⟨q, reached⟩
    · exact .inr same
  · rintro (⟨q, reached⟩ | same)
    · exact ⟨q, .inl reached⟩
    · exact ⟨t.size, .inr ⟨same, rfl⟩⟩

end Extend

section Final

variable {t : Trie} {p : ℕ} {path : List (Fin numLatinLetters)}

theorem WellFormed.setFinal (wellFormed : WellFormed t) (p : ℕ) : WellFormed (t.setFinal p) where
  tree := by
    rw [child_setFinal]
    exact wellFormed.tree
  root := wellFormed.root
  labelled := by
    intro p' k q edge
    rw [child_setFinal] at edge
    rw [(heap_setFinal t p q).1, wellFormed.labelled edge]
  lettered := by
    intro p' k q edge
    rw [child_setFinal] at edge
    rw [(heap_setFinal t p q).1]
    exact wellFormed.lettered edge

theorem stored_setFinal (wellFormed : WellFormed t) (here : follow (child t) pHead path = some p)
    (π : List (Fin numLatinLetters)) : Stored (t.setFinal p) π ↔ Stored t π ∨ π = path := by
  simp only [Stored, child_setFinal, (heap_setFinal t p _).2]
  constructor
  · rintro ⟨q, reached, final⟩
    split at final
    · next same =>
      subst same
      exact .inr (wellFormed.tree.follow_injective reached here)
    · exact .inl ⟨q, reached, final⟩
  · rintro (⟨q, reached, final⟩ | rfl)
    · refine ⟨q, reached, ?_⟩
      split
      · rfl
      · exact final
    · exact ⟨p, here, if_pos rfl⟩

theorem known_setFinal (t : Trie) (p : ℕ) (π : List (Fin numLatinLetters)) :
    Known (t.setFinal p) π ↔ Known t π := by
  simp only [Known, child_setFinal]

end Final

/-- The loop of `add_new_word` from a node on stores the rest of the word below it. -/
theorem addLoop_spec {t : Trie} (wellFormed : WellFormed t) {p : ℕ}
    {path : List (Fin numLatinLetters)} (here : follow (child t) pHead path = some p)
    {word : List Char} (allLetters : ∀ c ∈ word, IsLetter c) :
    ∃ t', t.addLoop p word = (.ok (), t') ∧ WellFormed t' ∧
      (∀ π, Stored t' π ↔ Stored t π ∨ π = path ++ letters word) ∧
      (∀ π, Known t' π ↔ Known t π ∨ π <+: path ++ letters word) := by
  induction word generalizing t p path with
  | nil =>
    rw [show path ++ letters [] = path from List.append_nil path]
    refine ⟨t.setFinal p, rfl, wellFormed.setFinal p, stored_setFinal wellFormed here, fun π => ?_⟩
    rw [known_setFinal]
    refine (or_iff_left_of_imp ?_).symm
    rintro ⟨rest, rfl⟩
    exact Known.of_append ⟨p, here⟩
  | cons ch rest ih =>
    have isLetter : IsLetter ch := allLetters ch List.mem_cons_self
    have restLetters : ∀ c ∈ rest, IsLetter c := fun c member =>
      allLetters c (List.mem_cons_of_mem ch member)
    have longer : path ++ letters (ch :: rest) = (path ++ [letter ch]) ++ letters rest := by
      simp [letters]
    rw [addLoop, getCharIndex_eq isLetter, longer]
    dsimp only
    cases edge : (t.heap p).pNext (letter ch) with
    | some q => exact ih wellFormed (follow_concat_eq_some.mpr ⟨p, here, edge⟩) restLetters
    | none =>
      -- the new node is hung below `p` before the rest of the word is read
      have inside : p < t.size := wellFormed.tree.lt_of_follow wellFormed.root here
      have reached := (follow_extended wellFormed here edge ch _ _).mpr (.inr ⟨rfl, rfl⟩)
      obtain ⟨t', added, wellFormed', stored, known⟩ :=
        ih (wellFormed.extended inside isLetter rfl) reached restLetters
      refine ⟨t', added, wellFormed', fun π => ?_, fun π => ?_⟩
      · rw [stored, stored_extended wellFormed here edge]
      · rw [known, known_extended wellFormed here edge, or_assoc]
        refine or_congr_right (or_iff_right_of_imp ?_)
        rintro rfl
        exact List.prefix_append _ _

/-- A word adds its own path and makes its end final. -/
theorem addNewWord_spec {t : Trie} (wellFormed : WellFormed t) {word : List Char}
    (allLetters : ∀ c ∈ word, IsLetter c) :
    ∃ t', t.addNewWord word = (.ok (), t') ∧ WellFormed t' ∧
      (∀ π, Stored t' π ↔ Stored t π ∨ π = letters word) ∧
      (∀ π, Known t' π ↔ Known t π ∨ π <+: letters word) := by
  have root : follow (child t) pHead [] = some pHead := rfl
  exact addLoop_spec wellFormed root allLetters

/-! ## Following a path -/

theorem isLetter_of_getCharIndex {c : Char} {i : Fin numLatinLetters}
    (found : getCharIndex c = .ok i) : IsLetter c := by
  unfold getCharIndex at found
  split at found
  · next lower => exact .inl lower
  · split at found
    · next upper => exact .inr upper
    · cases found

/-- Only letters lead to a node. -/
theorem isLetter_of_prefixLoop {t : Trie} {p q : ℕ} {start : List Char}
    (found : t.prefixLoop p start = .ok q) : ∀ c ∈ start, IsLetter c := by
  induction start generalizing p with
  | nil => rintro c ⟨⟩
  | cons ch rest ih =>
    rw [prefixLoop] at found
    split at found
    · cases found
    · next index =>
      split at found
      · intro c member
        rcases List.mem_cons.mp member with rfl | member
        · exact isLetter_of_getCharIndex index
        · exact ih found c member
      · cases found

theorem prefixLoop_eq (t : Trie) (p : ℕ) {start : List Char}
    (allLetters : ∀ c ∈ start, IsLetter c) :
    t.prefixLoop p start =
      match follow (child t) p (letters start) with
      | some q => .ok q
      | none => .error noPrefix := by
  induction start generalizing p with
  | nil => rfl
  | cons ch rest ih =>
    rw [prefixLoop, getCharIndex_eq (allLetters ch List.mem_cons_self), letters, List.map_cons,
      follow_cons]
    change (match child t p (letter ch) with
      | some q => t.prefixLoop q rest
      | none => .error noPrefix) = _
    cases edge : child t p (letter ch) with
    | none => rfl
    | some q => exact ih q fun c member => allLetters c (List.mem_cons_of_mem ch member)

/-- The node of a prefix is at the end of its path. -/
theorem follow_of_getNodePrefix {t : Trie} {p : ℕ} {start : List Char}
    (found : t.getNodePrefix start = .ok p) :
    (∀ c ∈ start, IsLetter c) ∧ follow (child t) pHead (letters start) = some p := by
  have startLetters := isLetter_of_prefixLoop found
  refine ⟨startLetters, ?_⟩
  rw [getNodePrefix, prefixLoop_eq t pHead startLetters] at found
  split at found
  · next q reached => rw [reached, Except.ok.inj found]
  · cases found

end SphereMultithreading.Proofs.P7
