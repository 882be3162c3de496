import SphereMultithreading.Proofs.P7.Trie

/-! # The two-stack walk of `get_words`

`collect` gathers the words under a node by recursion. `visit_eq` shows that the loop, started
with an unvisited node on top of its stacks, either stops with ten words or gets back to what was
under the node, the word restored and the words of `collect` added; it needs at most two rounds a
node. Up to case, `collect` lists the final paths of the tree in lexicographic order.
-/

namespace SphereMultithreading.Proofs.P7

open Model.P7 Model.P7.Trie LabelledTree

/-- The edge labels in order. -/
abbrev labels : List (Fin numLatinLetters) := List.finRange numLatinLetters

/-- The children of a node in alphabetical order. -/
def children (t : Trie) (p : ℕ) (ks : List (Fin numLatinLetters)) : List ℕ :=
  ks.filterMap (child t p)

/-- The words spelt under a node, its own character first. The first argument bounds the depth. -/
def collect (t : Trie) : ℕ → ℕ → List (List Char)
  | 0, _ => []
  | n + 1, p =>
      (if (t.heap p).isFinal then [[(t.heap p).c]] else []) ++
        ((children t p labels).flatMap (collect t n)).map ((t.heap p).c :: ·)

/-- The loop either has its ten words or goes on. -/
def conclude (t : Trie) (fuel : ℕ) (nodes : List ℕ) (isVisited : List Bool) (word : List Char)
    (words : List (List Char)) : Option (List (List Char)) :=
  if numWords ≤ words.length then some (words.take numWords)
  else t.wordsLoop fuel nodes isVisited word words

theorem children_eq (t : Trie) (p : ℕ) (ks : List (Fin numLatinLetters)) :
    children t p ks = (edges (child t) ks p).map (·.2) := by
  rw [children, edges, List.map_filterMap]
  refine congrArg (List.filterMap · ks) (funext fun k => ?_)
  cases child t p k <;> rfl

private theorem children_concat (t : Trie) (p : ℕ) (ks : List (Fin numLatinLetters))
    (k : Fin numLatinLetters) :
    children t p (ks ++ [k]) = children t p ks ++ (child t p k).toList := by
  rw [children, List.filterMap_append]
  cases edge : child t p k <;> simp [children, edge]

/-- The loop over the children puts them on the stacks, the first one on top. -/
theorem foldl_pushChild (t : Trie) (p : ℕ) (nodes : List ℕ) (isVisited : List Bool) :
    labels.foldl (pushChild (t.heap p)) (nodes, isVisited) =
      (children t p labels ++ nodes, (children t p labels).map (fun _ => false) ++ isVisited) := by
  have pushes (ks : List (Fin numLatinLetters)) (nodes : List ℕ) (isVisited : List Bool) :
      ks.foldl (pushChild (t.heap p)) (nodes, isVisited) =
        (children t p (ks.map Fin.rev).reverse ++ nodes,
          (children t p (ks.map Fin.rev).reverse).map (fun _ => false) ++ isVisited) := by
    induction ks generalizing nodes isVisited with
    | nil => rfl
    | cons k ks ih =>
      rw [List.foldl_cons, List.map_cons, List.reverse_cons, children_concat, pushChild, child]
      cases edge : (t.heap p).pNext k.rev with
      | none => simpa using ih nodes isVisited
      | some q => simpa using ih (q :: nodes) (false :: isVisited)
  rw [pushes, labels, ← List.finRange_reverse, List.reverse_reverse]

section Visit

variable {t : Trie} {n : ℕ}

/-- What `visit_eq` says of one node, the bound on the rounds included. -/
private def Visits (t : Trie) (n p : ℕ) : Prop :=
  ∀ (nodes : List ℕ) (isVisited : List Bool) (word : List Char) (words : List (List Char)),
    words.length < numWords → ∃ rounds ≤ 2 * (below (child t) labels n p).length, ∀ fuel,
      t.wordsLoop (rounds + fuel) (p :: nodes) (false :: isVisited) word words =
        conclude t fuel nodes isVisited word (words ++ (collect t n p).map (word ++ ·))

/-- Visiting siblings one after the other. -/
private theorem visit_siblings {p : ℕ} (ks : List (Fin numLatinLetters))
    (each : ∀ q ∈ children t p ks, Visits t n q) (nodes : List ℕ) (isVisited : List Bool)
    (word : List Char) {words : List (List Char)} (few : words.length < numWords) :
    ∃ rounds ≤ 2 * ((children t p ks).map fun q => (below (child t) labels n q).length).sum, ∀ fuel,
      t.wordsLoop (rounds + fuel) (children t p ks ++ nodes)
          ((children t p ks).map (fun _ => false) ++ isVisited) word words =
        conclude t fuel nodes isVisited word
          (words ++ ((children t p ks).flatMap (collect t n)).map (word ++ ·)) := by
  generalize children t p ks = qs at each ⊢
  induction qs generalizing words with
  | nil =>
    refine ⟨0, Nat.zero_le _, fun fuel => ?_⟩
    have notYet : ¬ numWords ≤ words.length := Nat.not_le.mpr few
    simp [conclude, notYet]
  | cons q qs ih =>
    obtain ⟨rounds, bound, visited⟩ := each q List.mem_cons_self (qs ++ nodes)
      (qs.map (fun _ => false) ++ isVisited) word words few
    have others : ∀ q ∈ qs, Visits t n q := fun r member => each r (List.mem_cons_of_mem q member)
    rw [List.map_cons, List.sum_cons, List.flatMap_cons, List.map_append, ← List.append_assoc]
    by_cases full : numWords ≤ (words ++ (collect t n q).map (word ++ ·)).length
    · refine ⟨rounds, by omega, fun fuel => ?_⟩
      rw [List.map_cons, List.cons_append, List.cons_append, visited, conclude, if_pos full, conclude,
        if_pos (full.trans (by simp)), List.take_append_of_le_length full]
    · obtain ⟨rounds', bound', visited'⟩ := ih (Nat.not_le.mp full) others
      refine ⟨rounds + rounds', by omega, fun fuel => ?_⟩
      rw [List.map_cons, List.cons_append, List.cons_append, Nat.add_assoc, visited, conclude,
        if_neg full, visited']

/-- The words found once a node's own word is taken. -/
def found (t : Trie) (p : ℕ) (word : List Char) (words : List (List Char)) : List (List Char) :=
  if (t.heap p).isFinal then words ++ [word ++ [(t.heap p).c]] else words

variable (wellFormed : WellFormed t)
include wellFormed

theorem grows_of_mem {p : ℕ} {ks : List (Fin numLatinLetters)} :
    ∀ q ∈ children t p ks, p < q ∧ q < t.size := by
  intro q member
  obtain ⟨k, -, edge⟩ := List.mem_filterMap.mp member
  exact wellFormed.tree.grows edge

/-- A round at an unvisited node. -/
private theorem wordsLoop_unvisited (fuel p : ℕ) (nodes : List ℕ) (isVisited : List Bool)
    (word : List Char) (words : List (List Char)) :
    t.wordsLoop (fuel + 1) (p :: nodes) (false :: isVisited) word words =
      if (t.heap p).isFinal = true ∧ (found t p word words).length = numWords then
        some (found t p word words)
      else if children t p labels = [] then
        t.wordsLoop fuel nodes isVisited word (found t p word words)
      else
        t.wordsLoop fuel (children t p labels ++ p :: nodes)
          ((children t p labels).map (fun _ => false) ++ true :: isVisited)
          (word ++ [(t.heap p).c]) (found t p word words) := by
  rw [wordsLoop]
  simp only [foldl_pushChild, ← found.eq_1]
  split
  · rfl
  · cases listed : children t p labels with
    | nil => simp
    | cons q qs =>
      have member : q ∈ children t p labels := by rw [listed]; exact List.mem_cons_self
      have other : q ≠ p := (grows_of_mem wellFormed q member).1.ne'
      simp [other]

/-- The walk under a node. -/
theorem visit_eq {p : ℕ} (inside : p < t.size) (enough : t.size ≤ p + n) (nodes : List ℕ)
    (isVisited : List Bool) (word : List Char) {words : List (List Char)}
    (few : words.length < numWords) :
    ∃ rounds ≤ 2 * (below (child t) labels n p).length, ∀ fuel,
      t.wordsLoop (rounds + fuel) (p :: nodes) (false :: isVisited) word words =
        conclude t fuel nodes isVisited word (words ++ (collect t n p).map (word ++ ·)) := by
  induction n generalizing p nodes isVisited word words with
  | zero => omega
  | succ n ih =>
    have each : ∀ q ∈ children t p labels, Visits t n q := by
      intro q member nodes isVisited word words few
      have := grows_of_mem wellFormed q member
      exact ih this.2 (by omega) nodes isVisited word few
    have split : words ++ (collect t (n + 1) p).map (word ++ ·) = found t p word words ++
        ((children t p labels).flatMap (collect t n)).map ((word ++ [(t.heap p).c]) ++ ·) := by
      rw [collect, found]
      cases (t.heap p).isFinal <;> simp
    rw [length_below_succ, split]
    by_cases full : (t.heap p).isFinal = true ∧ (found t p word words).length = numWords
    · refine ⟨1, by omega, fun fuel => ?_⟩
      rw [Nat.add_comm, wordsLoop_unvisited wellFormed, if_pos full, conclude, ← full.2]
      simp
    · have notYet : (found t p word words).length < numWords := by
        rw [found] at full ⊢
        split at full
        · next final =>
          have bound : (words ++ [word ++ [(t.heap p).c]]).length ≤ numWords := by simpa using few
          rw [if_pos final]
          exact bound.lt_of_ne fun same => full ⟨final, same⟩
        · next inner => rwa [if_neg inner]
      by_cases leaf : children t p labels = []
      · refine ⟨1, by omega, fun fuel => ?_⟩
        rw [Nat.add_comm, wordsLoop_unvisited wellFormed, if_neg full, if_pos leaf, leaf]
        simp [conclude, Nat.not_le.mpr notYet]
      · obtain ⟨rounds, bound, visited⟩ := visit_siblings labels each (p :: nodes)
          (true :: isVisited) (word ++ [(t.heap p).c]) notYet
        rw [children_eq, List.map_map] at bound
        refine ⟨1 + rounds + 1, by simp only [Function.comp_def] at bound; omega, fun fuel => ?_⟩
        rw [show 1 + rounds + 1 + fuel = rounds + (fuel + 1) + 1 by omega,
          wordsLoop_unvisited wellFormed, if_neg full, if_neg leaf, visited, conclude, conclude,
          wordsLoop, List.dropLast_concat]

/-- Up to case, `collect` lists the final paths under a node. -/
theorem letters_collect (p : ℕ) : (collect t n p).map letters =
    ((below (child t) labels n p).filter fun entry => (t.heap entry.2).isFinal).map
      fun entry => letter (t.heap p).c :: entry.1 := by
  induction n generalizing p with
  | zero => rfl
  | succ n ih =>
    have inner (es : List (Fin numLatinLetters × ℕ)) (down : ∀ e ∈ es, child t p e.1 = some e.2) :
        ((es.map (·.2)).flatMap (collect t n)).map letters =
          ((es.flatMap fun edge => (below (child t) labels n edge.2).map
            fun entry => (edge.1 :: entry.1, entry.2)).filter
              fun entry => (t.heap entry.2).isFinal).map (·.1) := by
      induction es with
      | nil => rfl
      | cons e es rest =>
        have others := rest fun e' member => down e' (List.mem_cons_of_mem e member)
        rw [List.map_cons, List.flatMap_cons, List.flatMap_cons, List.filter_append, List.map_append,
          List.map_append, others, ih, wellFormed.labelled (down e List.mem_cons_self),
          List.filter_map, List.map_map]
        rfl
    have deeper : (((children t p labels).flatMap (collect t n)).map ((t.heap p).c :: ·)).map letters =
        (((children t p labels).flatMap (collect t n)).map letters).map (letter (t.heap p).c :: ·) := by
      rw [List.map_map, List.map_map]
      rfl
    rw [collect, below, List.map_append, deeper, children_eq,
      inner _ fun e member => (mem_edges.mp member).2, List.map_map, List.filter_cons]
    cases (t.heap p).isFinal <;> rfl

end Visit

end SphereMultithreading.Proofs.P7
