import SphereMultithreading.Soundness.P7.Search

/-! # The destructor of the trie

The loop with two stacks walks through the tree depth first: it reads a node when it enters it, and
deletes it when it leaves it. The tree has all nodes, also those of words that were not accepted.
-/

namespace SphereMultithreading.Soundness.P7

open Model.P7 Model.P7.Trie LabelledTree Proofs.P7

/-- What is done with a node on the walk. -/
def access : Visit → Access
  | .enter p => .read p
  | .leave p => .delete p

/-- The accesses under a node. The first argument bounds the depth. -/
def accesses (t : Trie) (n p : ℕ) : List Access := (walk (child t) labels n p).map access

variable {t : Trie} {n : ℕ}

theorem accesses_succ (t : Trie) (n p : ℕ) : accesses t (n + 1) p =
    .read p :: ((children t p labels).flatMap (accesses t n) ++ [.delete p]) := by
  rw [accesses, walk, List.map_cons, List.map_append, List.map_flatMap, children_eq,
    List.flatMap_map]
  rfl

/-- What `delete_eq` says of one node, the bound on the rounds included. -/
private def Deletes (t : Trie) (n p : ℕ) : Prop :=
  ∀ (nodes : List ℕ) (isVisited : List Bool) (before : List Access),
    ∃ rounds ≤ (accesses t n p).length, ∀ fuel,
      t.deleteLoop (rounds + fuel) (p :: nodes) (false :: isVisited) before =
        t.deleteLoop fuel nodes isVisited (before ++ accesses t n p)

/-- Siblings are deleted one after the other. -/
private theorem delete_siblings {qs : List ℕ} (each : ∀ q ∈ qs, Deletes t n q) (nodes : List ℕ)
    (isVisited : List Bool) (before : List Access) :
    ∃ rounds ≤ (qs.flatMap (accesses t n)).length, ∀ fuel,
      t.deleteLoop (rounds + fuel) (qs ++ nodes) (qs.map (fun _ => false) ++ isVisited) before =
        t.deleteLoop fuel nodes isVisited (before ++ qs.flatMap (accesses t n)) := by
  induction qs generalizing before with
  | nil => exact ⟨0, le_rfl, fun fuel => by simp⟩
  | cons q qs ih =>
    rw [List.forall_mem_cons] at each
    obtain ⟨rounds, bound, deleted⟩ := each.1 (qs ++ nodes) (qs.map (fun _ => false) ++ isVisited) before
    obtain ⟨rounds', bound', deleted'⟩ := ih each.2 (before ++ accesses t n q)
    refine ⟨rounds + rounds', ?_, fun fuel => ?_⟩
    · rw [List.flatMap_cons, List.length_append]
      omega
    · rw [List.map_cons, List.cons_append, List.cons_append, Nat.add_assoc, deleted, deleted',
        List.flatMap_cons, List.append_assoc]

/-- A round at an unvisited node. -/
private theorem deleteLoop_unvisited (wellFormed : WellFormed t) (fuel p : ℕ) (nodes : List ℕ)
    (isVisited : List Bool) (before : List Access) :
    t.deleteLoop (fuel + 1) (p :: nodes) (false :: isVisited) before =
      if children t p labels = [] then
        t.deleteLoop fuel nodes isVisited (before ++ [.read p] ++ [.delete p])
      else
        t.deleteLoop fuel (children t p labels ++ p :: nodes)
          ((children t p labels).map (fun _ => false) ++ true :: isVisited) (before ++ [.read p]) := by
  rw [deleteLoop]
  simp only [foldl_pushChild]
  cases listed : children t p labels with
  | nil => simp
  | cons q qs =>
    have member : q ∈ children t p labels := by rw [listed]; exact List.mem_cons_self
    have other : q ≠ p := (grows_of_mem wellFormed q member).1.ne'
    simp [other]

/-- The walk under a node. -/
theorem delete_eq (wellFormed : WellFormed t) {p : ℕ} (inside : p < t.size)
    (enough : t.size ≤ p + n) : Deletes t n p := by
  induction n generalizing p with
  | zero => omega
  | succ n ih =>
    intro nodes isVisited before
    have each : ∀ q ∈ children t p labels, Deletes t n q := by
      intro q member
      have := grows_of_mem wellFormed q member
      exact ih this.2 (by omega)
    rw [accesses_succ]
    by_cases leaf : children t p labels = []
    · refine ⟨1, by simp, fun fuel => ?_⟩
      rw [Nat.add_comm, deleteLoop_unvisited wellFormed, if_pos leaf, leaf]
      simp
    · obtain ⟨rounds, bound, deleted⟩ :=
        delete_siblings each (p :: nodes) (true :: isVisited) (before ++ [.read p])
      refine ⟨1 + rounds + 1, ?_, fun fuel => ?_⟩
      · rw [List.length_cons, List.length_append, List.length_singleton]
        omega
      · rw [show 1 + rounds + 1 + fuel = rounds + (fuel + 1) + 1 by omega,
          deleteLoop_unvisited wellFormed, if_neg leaf, deleted, deleteLoop]
        simp

/-! ## The nodes there are -/

/-- Every node is in the tree. -/
def Whole (t : Trie) : Prop := ∀ q < t.size, ∃ path, follow (child t) pHead path = some q

theorem whole_new : Whole .new := by
  intro q bound
  obtain rfl : q = 0 := Nat.lt_one_iff.mp bound
  exact ⟨[], rfl⟩

/-- A word adds nodes to the tree, whether it is accepted or not. -/
theorem whole_addLoop (wellFormed : WellFormed t) (whole : Whole t) {p : ℕ}
    {path : List (Fin numLatinLetters)} (here : follow (child t) pHead path = some p) (word : List Char) :
    WellFormed (t.addLoop p word).2 ∧ Whole (t.addLoop p word).2 := by
  induction word generalizing t p path with
  | nil =>
    refine ⟨wellFormed.setFinal p, fun q bound => ?_⟩
    change ∃ path, follow (child (t.setFinal p)) pHead path = some q
    rw [child_setFinal]
    exact whole q bound
  | cons ch rest ih =>
    rw [addLoop]
    split
    · exact ⟨wellFormed, whole⟩
    · next k index =>
      have isLetter : IsLetter ch := isLetter_of_getCharIndex index
      have own : letter ch = k := by
        rw [getCharIndex_eq isLetter] at index
        exact Except.ok.inj index
      split
      · next q edge => exact ih wellFormed whole (follow_concat_eq_some.mpr ⟨p, here, edge⟩)
      · next free =>
        have inside : p < t.size := wellFormed.tree.lt_of_follow wellFormed.root here
        have grafted := follow_extended wellFormed here free ch
        refine ih (wellFormed.extended inside isLetter own) ?_ ((grafted _ _).mpr (.inr ⟨rfl, rfl⟩))
        intro q bound
        rcases Nat.lt_succ_iff_lt_or_eq.mp bound with old | rfl
        · obtain ⟨π, reached⟩ := whole q old
          exact ⟨π, (grafted π q).mpr (.inl reached)⟩
        · exact ⟨path ++ [k], (grafted _ _).mpr (.inr ⟨rfl, rfl⟩)⟩

/-- The trie after words were added, of which some may not have been accepted. -/
def added (words : List (List Char)) : Trie := words.foldl (fun t word => (t.addNewWord word).2) .new

theorem whole_added (words : List (List Char)) : WellFormed (added words) ∧ Whole (added words) := by
  have folded (t : Trie) (wellFormed : WellFormed t) (whole : Whole t) :
      WellFormed (words.foldl (fun t word => (t.addNewWord word).2) t) ∧
        Whole (words.foldl (fun t word => (t.addNewWord word).2) t) := by
    induction words generalizing t with
    | nil => exact ⟨wellFormed, whole⟩
    | cons word words ih =>
      have root : follow (child t) pHead [] = some pHead := rfl
      obtain ⟨wellFormed', whole'⟩ := whole_addLoop wellFormed whole root word
      exact ih _ wellFormed' whole'
  exact folded .new wellFormed_new whole_new

/-! ## The destructor -/

/-- The nodes in the order they are deleted. -/
def deleted (accesses : List Access) : List ℕ :=
  accesses.filterMap fun
    | .read _ => none
    | .delete p => some p

/-- Every node is deleted once, no node after one that it is under, and none is read later. -/
structure Destroyed (t : Trie) (accesses : List Access) : Prop where
  once : (deleted accesses).Perm (List.range t.size)
  inner : (deleted accesses).Pairwise fun p q => ∀ path, follow (child t) p path ≠ some q
  unread : accesses.Pairwise fun a b => ∀ p, a = .delete p → b ≠ .read p

theorem deleted_map_access (visits : List Visit) :
    deleted (visits.map access) = visits.filterMap fun
      | .enter _ => none
      | .leave p => some p := by
  rw [deleted, List.filterMap_map]
  refine congrArg (List.filterMap · visits) (funext fun v => ?_)
  cases v <;> rfl

theorem destroyed_accesses (wellFormed : WellFormed t) (whole : Whole t) :
    Destroyed t (accesses t t.size pHead) := by
  have sorted : labels.Pairwise (· < ·) := List.pairwise_lt_finRange _
  have deep : t.size ≤ pHead + t.size := Nat.le_add_left _ _
  have behind := wellFormed.tree.pairwise_walk sorted List.mem_finRange wellFormed.root deep
  have inner : (deleted (accesses t t.size pHead)).Pairwise
      fun p q => ∀ path, follow (child t) p path ≠ some q := by
    rw [accesses, deleted_map_access, List.pairwise_filterMap]
    refine behind.imp fun {v w} behind p left q left' path => ?_
    cases v with
    | enter p' => cases left
    | leave p' =>
      cases w with
      | enter q' => cases left'
      | leave q' =>
        cases left
        cases left'
        exact behind _ rfl path
  refine ⟨?_, inner, ?_⟩
  · rw [List.perm_ext_iff_of_nodup _ List.nodup_range]
    · intro q
      rw [accesses, deleted_map_access, List.mem_filterMap, List.mem_range]
      constructor
      · rintro ⟨v, member, left⟩
        obtain ⟨path, reached⟩ :=
          (wellFormed.tree.mem_walk List.mem_finRange wellFormed.root deep).mp member
        cases v with
        | enter p => cases left
        | leave p =>
          cases left
          exact wellFormed.tree.lt_of_follow wellFormed.root reached
      · intro bound
        refine ⟨.leave q, ?_, rfl⟩
        exact (wellFormed.tree.mem_walk List.mem_finRange wellFormed.root deep).mpr (whole q bound)
    · exact inner.imp fun apart same => apart [] (congrArg some same)
  · rw [accesses, List.pairwise_map]
    refine behind.imp fun {v w} behind p left read => ?_
    cases v with
    | enter p' => cases left
    | leave p' =>
      cases w with
      | enter q' =>
        cases left
        cases read
        exact behind _ rfl [] rfl
      | leave q' => cases read

/-- After any words were added, accepted or not, the loop of the destructor ends, with every node deleted
once behind all that is under it, and none read after it was deleted. -/
theorem destroy_added (words : List (List Char)) :
    ∃ accesses, (added words).destroy = some accesses ∧ Destroyed (added words) accesses := by
  obtain ⟨wellFormed, whole⟩ := whole_added words
  have deep : (added words).size ≤ pHead + (added words).size := Nat.le_add_left _ _
  have sorted : labels.Pairwise (· < ·) := List.pairwise_lt_finRange _
  obtain ⟨rounds, bound, ran⟩ := delete_eq wellFormed wellFormed.root deep [] [] []
  rw [accesses, List.length_map, length_walk] at bound
  have few := wellFormed.tree.length_below_le sorted List.mem_finRange wellFormed.root deep
  obtain ⟨spare, enough⟩ : ∃ spare, 2 * (added words).size + 1 = rounds + (spare + 1) :=
    ⟨2 * (added words).size - rounds, by omega⟩
  refine ⟨accesses (added words) (added words).size pHead, ?_, destroyed_accesses wellFormed whole⟩
  rw [destroy, enough, ran, deleteLoop, List.nil_append]

end SphereMultithreading.Soundness.P7
