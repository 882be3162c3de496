import Mathlib

/-! # Trees whose edges carry ordered labels

A node is a number, and `child p k` its child over the edge labelled `k`. In a `Tree` every child
is greater than its parent and has no other one, so a path is determined by the node it leads to.
`below` lists the nodes under one in preorder with their paths: the paths come in lexicographic
order, and there are no more of them than nodes. `walk` goes through them depth first, and is done
with a node after all that is under it. Hanging a fresh node below another one adds one path
(`Tree.grafted`, `Tree.follow_graft`).
-/

namespace SphereMultithreading.LabelledTree

variable {κ : Type*} {child : ℕ → κ → Option ℕ} {size : ℕ}

/-- Children are greater than their parent and have only one. -/
structure Tree (child : ℕ → κ → Option ℕ) (size : ℕ) : Prop where
  grows : ∀ {p k q}, child p k = some q → p < q ∧ q < size
  unique : ∀ {p k p' k' q}, child p k = some q → child p' k' = some q → p = p' ∧ k = k'

/-- The node a path leads to. -/
def follow (child : ℕ → κ → Option ℕ) : ℕ → List κ → Option ℕ
  | p, [] => some p
  | p, k :: rest => (child p k).bind fun q => follow child q rest

@[simp] theorem follow_nil (p : ℕ) : follow child p [] = some p := rfl

theorem follow_cons (p : ℕ) (k : κ) (rest : List κ) :
    follow child p (k :: rest) = (child p k).bind fun q => follow child q rest := rfl

theorem follow_append (p : ℕ) (first second : List κ) :
    follow child p (first ++ second) =
      (follow child p first).bind fun q => follow child q second := by
  induction first generalizing p with
  | nil => rfl
  | cons k rest ih =>
    rw [List.cons_append, follow_cons, follow_cons, Option.bind_assoc]
    exact Option.bind_congr fun q _ => ih q

theorem follow_concat_eq_some {p q : ℕ} {path : List κ} {k : κ} :
    follow child p (path ++ [k]) = some q ↔
      ∃ r, follow child p path = some r ∧ child r k = some q := by
  rw [follow_append, Option.bind_eq_some_iff]
  simp [follow_cons]

namespace Tree

/-- Paths lead to greater nodes. -/
theorem le_of_follow (tree : Tree child size) {p q : ℕ} {path : List κ}
    (reached : follow child p path = some q) : p + path.length ≤ q := by
  induction path generalizing p with
  | nil => cases reached; exact le_rfl
  | cons k rest ih =>
    obtain ⟨r, edge, tail⟩ := Option.bind_eq_some_iff.mp reached
    have := (tree.grows edge).1
    have := ih tail
    rw [List.length_cons]
    omega

theorem lt_of_follow (tree : Tree child size) {p q : ℕ} (inside : p < size) {path : List κ}
    (reached : follow child p path = some q) : q < size := by
  induction path generalizing p with
  | nil => cases reached; exact inside
  | cons k rest ih =>
    obtain ⟨r, edge, tail⟩ := Option.bind_eq_some_iff.mp reached
    exact ih (tree.grows edge).2 tail

/-- A node determines the path to it. -/
theorem follow_injective (tree : Tree child size) {p q : ℕ} {path path' : List κ}
    (reached : follow child p path = some q) (reached' : follow child p path' = some q) :
    path = path' := by
  induction path using List.reverseRecOn generalizing q path' with
  | nil =>
    have := tree.le_of_follow reached'
    cases reached
    exact (List.length_eq_zero_iff.mp (by omega)).symm
  | append_singleton front k ih =>
    induction path' using List.reverseRecOn with
    | nil =>
      have bound := tree.le_of_follow reached
      cases reached'
      rw [List.length_append, List.length_singleton] at bound
      omega
    | append_singleton front' k' _ =>
      obtain ⟨r, walked, edge⟩ := follow_concat_eq_some.mp reached
      obtain ⟨r', walked', edge'⟩ := follow_concat_eq_some.mp reached'
      obtain ⟨rfl, rfl⟩ := tree.unique edge edge'
      rw [ih walked walked']

end Tree

/-! ## Preorder -/

/-- The edges to the children of a node, in the order of the labels. -/
def edges (child : ℕ → κ → Option ℕ) (labels : List κ) (p : ℕ) : List (κ × ℕ) :=
  labels.filterMap fun k => (child p k).map fun q => (k, q)

/-- The nodes under `p`, itself included, in preorder with the paths to them. The first argument
bounds the depth. -/
def below (child : ℕ → κ → Option ℕ) (labels : List κ) : ℕ → ℕ → List (List κ × ℕ)
  | 0, _ => []
  | n + 1, p => ([], p) :: (edges child labels p).flatMap fun edge =>
      (below child labels n edge.2).map fun entry => (edge.1 :: entry.1, entry.2)

section Preorder

variable {labels : List κ}

theorem mem_edges {p q : ℕ} {k : κ} :
    (k, q) ∈ edges child labels p ↔ k ∈ labels ∧ child p k = some q := by
  simp only [edges, List.mem_filterMap, Option.map_eq_some_iff, Prod.mk.injEq]
  constructor
  · rintro ⟨k, listed, q, edge, rfl, rfl⟩
    exact ⟨listed, edge⟩
  · rintro ⟨listed, edge⟩
    exact ⟨k, listed, q, edge, rfl, rfl⟩

theorem pairwise_edges [LT κ] (sorted : labels.Pairwise (· < ·)) (p : ℕ) :
    (edges child labels p).Pairwise fun a b => a.1 < b.1 := by
  rw [edges, List.pairwise_filterMap]
  refine sorted.imp fun less a here b there => ?_
  obtain ⟨q, -, rfl⟩ := Option.map_eq_some_iff.mp here
  obtain ⟨r, -, rfl⟩ := Option.map_eq_some_iff.mp there
  exact less

/-- A node and what is under its children. -/
theorem length_below_succ (n p : ℕ) : (below child labels (n + 1) p).length =
    ((edges child labels p).map fun edge => (below child labels n edge.2).length).sum + 1 := by
  rw [below, List.length_cons, List.length_flatMap]
  simp

/-- When the depth bound suffices, the listed nodes are those with a path to them. -/
theorem Tree.mem_below (tree : Tree child size) (complete : ∀ k, k ∈ labels) {n p : ℕ}
    (inside : p < size) (enough : size ≤ p + n) {path : List κ} {q : ℕ} :
    (path, q) ∈ below child labels n p ↔ follow child p path = some q := by
  induction n generalizing p path with
  | zero => omega
  | succ n ih =>
    rw [below, List.mem_cons, List.mem_flatMap]
    cases path with
    | nil =>
      constructor
      · rintro (same | ⟨edge, -, listed⟩)
        · cases same; rfl
        · simp at listed
      · intro reached
        cases reached
        exact Or.inl rfl
    | cons k rest =>
      rw [follow_cons, Option.bind_eq_some_iff]
      constructor
      · rintro (same | ⟨⟨k', r⟩, inEdges, listed⟩)
        · simp at same
        · obtain ⟨entry, member, same⟩ := List.mem_map.mp listed
          cases same
          have edge := (mem_edges.mp inEdges).2
          have := tree.grows edge
          exact ⟨r, edge, (ih this.2 (by omega)).mp member⟩
      · rintro ⟨r, edge, reached⟩
        have := tree.grows edge
        refine Or.inr ⟨(k, r), mem_edges.mpr ⟨complete k, edge⟩, ?_⟩
        exact List.mem_map.mpr ⟨(rest, q), (ih this.2 (by omega)).mpr reached, rfl⟩

/-- The paths come in lexicographic order. -/
theorem pairwise_below [LT κ] (sorted : labels.Pairwise (· < ·)) (n p : ℕ) :
    (below child labels n p).Pairwise fun a b => a.1 < b.1 := by
  induction n generalizing p with
  | zero => exact .nil
  | succ n ih =>
    rw [below, List.pairwise_cons]
    constructor
    · rintro ⟨path, q⟩ listed
      obtain ⟨edge, -, listed⟩ := List.mem_flatMap.mp listed
      obtain ⟨entry, -, same⟩ := List.mem_map.mp listed
      cases same
      exact List.nil_lt_cons edge.1 entry.1
    · rw [List.pairwise_flatMap]
      refine ⟨fun edge _ => ?_, (pairwise_edges sorted p).imp fun less a inFirst b inSecond => ?_⟩
      · rw [List.pairwise_map]
        exact (ih edge.2).imp fun less => List.cons_lt_cons_iff.mpr (Or.inr ⟨rfl, less⟩)
      · obtain ⟨a, -, rfl⟩ := List.mem_map.mp inFirst
        obtain ⟨b, -, rfl⟩ := List.mem_map.mp inSecond
        exact List.cons_lt_cons_iff.mpr (Or.inl less)

/-- There are not more nodes under one than nodes. -/
theorem Tree.length_below_le [LinearOrder κ] (tree : Tree child size)
    (sorted : labels.Pairwise (· < ·)) (complete : ∀ k, k ∈ labels) {n p : ℕ} (inside : p < size)
    (enough : size ≤ p + n) : (below child labels n p).length ≤ size := by
  have reached {entry : List κ × ℕ} (listed : entry ∈ below child labels n p) :
      follow child p entry.1 = some entry.2 := (tree.mem_below complete inside enough).mp listed
  have nodup : ((below child labels n p).map (·.2)).Nodup := by
    rw [List.Nodup, List.pairwise_map]
    refine (pairwise_below sorted n p).imp_of_mem fun inFirst inSecond less same => ?_
    have first := reached inFirst
    rw [same] at first
    exact absurd (tree.follow_injective first (reached inSecond)) less.ne
  have bounded : (below child labels n p).map (·.2) ⊆ List.range size := by
    intro q listed
    obtain ⟨entry, member, rfl⟩ := List.mem_map.mp listed
    exact List.mem_range.mpr (tree.lt_of_follow inside (reached member))
  simpa using (nodup.subperm bounded).length_le

end Preorder

/-! ## Depth-first walks -/

/-- A node is entered before the nodes under it are visited, and left behind them. -/
inductive Visit where
  | enter (p : ℕ)
  | leave (p : ℕ)
deriving DecidableEq, Repr

def Visit.node : Visit → ℕ
  | .enter p => p
  | .leave p => p

/-- The walk under a node. The first argument bounds the depth. -/
def walk (child : ℕ → κ → Option ℕ) (labels : List κ) : ℕ → ℕ → List Visit
  | 0, _ => []
  | n + 1, p =>
      .enter p :: ((edges child labels p).flatMap (fun edge => walk child labels n edge.2) ++ [.leave p])

section Walk

variable {labels : List κ}

/-- Every node is visited twice. -/
theorem length_walk (n p : ℕ) :
    (walk child labels n p).length = 2 * (below child labels n p).length := by
  induction n generalizing p with
  | zero => rfl
  | succ n ih =>
    rw [walk, length_below_succ, List.length_cons, List.length_append, List.length_flatMap]
    simp only [ih]
    rw [List.sum_map_mul_left]
    simp only [List.length_singleton]
    omega

/-- The nodes under one are visited, and no others. -/
theorem Tree.mem_walk (tree : Tree child size) (complete : ∀ k, k ∈ labels) {n p : ℕ}
    (inside : p < size) (enough : size ≤ p + n) {v : Visit} :
    v ∈ walk child labels n p ↔ ∃ path, follow child p path = some v.node := by
  induction n generalizing p with
  | zero => omega
  | succ n ih =>
    have under : (∃ edge ∈ edges child labels p, v ∈ walk child labels n edge.2) ↔
        ∃ k path, follow child p (k :: path) = some v.node := by
      constructor
      · rintro ⟨⟨k, q⟩, inEdges, member⟩
        have edge := (mem_edges.mp inEdges).2
        have := tree.grows edge
        obtain ⟨path, reached⟩ := (ih this.2 (by omega)).mp member
        exact ⟨k, path, Option.bind_eq_some_iff.mpr ⟨q, edge, reached⟩⟩
      · rintro ⟨k, path, reached⟩
        obtain ⟨q, edge, reached⟩ := Option.bind_eq_some_iff.mp reached
        have := tree.grows edge
        exact ⟨(k, q), mem_edges.mpr ⟨complete k, edge⟩, (ih this.2 (by omega)).mpr ⟨path, reached⟩⟩
    rw [walk, List.mem_cons, List.mem_append, List.mem_flatMap, List.mem_singleton, under]
    constructor
    · rintro (rfl | ⟨k, path, reached⟩ | rfl)
      · exact ⟨[], rfl⟩
      · exact ⟨k :: path, reached⟩
      · exact ⟨[], rfl⟩
    · rintro ⟨path, reached⟩
      cases path with
      | nil =>
        cases v with
        | enter q => exact .inl (by cases reached; rfl)
        | leave q => exact .inr (.inr (by cases reached; rfl))
      | cons k path => exact .inr (.inl ⟨k, path, reached⟩)

/-- When a node was left, neither it nor a node under it is visited any more. -/
def Behind (child : ℕ → κ → Option ℕ) (v w : Visit) : Prop :=
  ∀ q, v = .leave q → ∀ path, follow child q path ≠ some w.node

theorem Tree.pairwise_walk [LinearOrder κ] (tree : Tree child size)
    (sorted : labels.Pairwise (· < ·)) (complete : ∀ k, k ∈ labels) {n p : ℕ} (inside : p < size)
    (enough : size ≤ p + n) : (walk child labels n p).Pairwise (Behind child) := by
  induction n generalizing p with
  | zero => omega
  | succ n ih =>
    have down {edge : κ × ℕ} (inEdges : edge ∈ edges child labels p) :
        child p edge.1 = some edge.2 ∧ p < edge.2 ∧ edge.2 < size :=
      ⟨(mem_edges.mp inEdges).2, tree.grows (mem_edges.mp inEdges).2⟩
    have reaches {edge : κ × ℕ} (inEdges : edge ∈ edges child labels p) {v : Visit}
        (member : v ∈ walk child labels n edge.2) : ∃ path, follow child edge.2 path = some v.node := by
      obtain ⟨-, above, bound⟩ := down inEdges
      exact (tree.mem_walk complete bound (by omega)).mp member
    rw [walk, List.pairwise_cons, List.pairwise_append, List.pairwise_flatMap]
    refine ⟨by rintro w - q ⟨⟩, ⟨?_, ?_⟩, List.pairwise_singleton _ _, ?_⟩
    · intro edge inEdges
      obtain ⟨-, above, bound⟩ := down inEdges
      exact ih bound (by omega)
    · -- a node under two children would be at the end of two paths
      refine (pairwise_edges sorted p).imp_of_mem fun inFirst inSecond less v inV w inW => ?_
      rintro q rfl path reached
      obtain ⟨first, walked⟩ := reaches inFirst inV
      obtain ⟨second, walked'⟩ := reaches inSecond inW
      have along : follow child p (_ :: (first ++ path)) = some w.node :=
        Option.bind_eq_some_iff.mpr ⟨_, (down inFirst).1, by
          rw [follow_append]
          exact Option.bind_eq_some_iff.mpr ⟨_, walked, reached⟩⟩
      have along' : follow child p (_ :: second) = some w.node :=
        Option.bind_eq_some_iff.mpr ⟨_, (down inSecond).1, walked'⟩
      exact less.ne (List.cons.inj (tree.follow_injective along along')).1
    · -- the node itself comes last
      intro v inChildren w last
      obtain ⟨edge, inEdges, member⟩ := List.mem_flatMap.mp inChildren
      rw [List.mem_singleton.mp last]
      rintro q rfl path reached
      obtain ⟨front, walked⟩ := reaches inEdges member
      have above := (down inEdges).2.1
      have upper := tree.le_of_follow walked
      have lower := tree.le_of_follow reached
      simp only [Visit.node] at upper lower
      omega

end Walk

/-! ## Growing a tree -/

section Graft

variable [DecidableEq κ]

/-- A further edge. -/
def graft (child : ℕ → κ → Option ℕ) (p : ℕ) (k : κ) (q : ℕ) : ℕ → κ → Option ℕ :=
  Function.update child p (Function.update (child p) k (some q))

theorem graft_eq_some {p q p' q' : ℕ} {k k' : κ} :
    graft child p k q p' k' = some q' ↔
      p' = p ∧ k' = k ∧ q' = q ∨ ¬ (p' = p ∧ k' = k) ∧ child p' k' = some q' := by
  by_cases same : p' = p
  · subst same
    by_cases same' : k' = k
    · subst same'
      simp [graft, eq_comm]
    · simp [graft, same']
  · simp [graft, same]

/-- A fresh node can be hung below a node that lacks the edge. -/
theorem Tree.grafted (tree : Tree child size) {p : ℕ} {k : κ} (inside : p < size) :
    Tree (graft child p k size) (size + 1) where
  grows := by
    intro p' k' q' edge
    rcases graft_eq_some.mp edge with ⟨rfl, rfl, rfl⟩ | ⟨-, old⟩
    · exact ⟨inside, Nat.lt_succ_self _⟩
    · have := tree.grows old
      omega
  unique := by
    intro p₁ k₁ p₂ k₂ q first second
    rcases graft_eq_some.mp first with ⟨rfl, rfl, rfl⟩ | ⟨-, old⟩ <;>
      rcases graft_eq_some.mp second with ⟨rfl, rfl, same⟩ | ⟨-, old'⟩
    · exact ⟨rfl, rfl⟩
    · have := tree.grows old'
      omega
    · have := tree.grows old
      omega
    · exact tree.unique old old'

/-- The fresh node adds one path. -/
theorem Tree.follow_graft (tree : Tree child size) {root p : ℕ} {k : κ} (inside : root < size)
    {path : List κ} (here : follow child root path = some p) (free : child p k = none)
    {path' : List κ} {q : ℕ} :
    follow (graft child p k size) root path' = some q ↔
      follow child root path' = some q ∨ path' = path ++ [k] ∧ q = size := by
  induction path' using List.reverseRecOn generalizing q with
  | nil => simp
  | append_singleton front k' ih =>
    rw [follow_concat_eq_some, follow_concat_eq_some, List.append_singleton_inj]
    constructor
    · rintro ⟨r, reached, edge⟩
      rcases ih.mp reached with old | ⟨-, rfl⟩ <;>
        rcases graft_eq_some.mp edge with ⟨rfl, rfl, rfl⟩ | ⟨-, edge⟩
      · exact Or.inr ⟨⟨tree.follow_injective old here, rfl⟩, rfl⟩
      · exact Or.inl ⟨r, old, edge⟩
      · exact absurd (tree.lt_of_follow inside here) (Nat.lt_irrefl _)
      · have := tree.grows edge
        omega
    · rintro (⟨r, reached, edge⟩ | ⟨⟨rfl, rfl⟩, rfl⟩)
      · refine ⟨r, ih.mpr (Or.inl reached), graft_eq_some.mpr (Or.inr ⟨?_, edge⟩)⟩
        rintro ⟨rfl, rfl⟩
        rw [free] at edge
        contradiction
      · exact ⟨p, ih.mpr (Or.inl here), graft_eq_some.mpr (Or.inl ⟨rfl, rfl, rfl⟩)⟩

end Graft

end SphereMultithreading.LabelledTree
