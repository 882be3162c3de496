import Mathlib

/-! # Disjoint doubly linked chains

Nodes carry the index of their successor and of their predecessor, `null` standing for neither.
`Chain` says that the nodes of a list are linked in both directions and that the head is the first
of them. `Family` is a family of such lists without a common node, one for each head. Taking a node
out of one chain (`unlink`) and putting an unlisted node in front of one (`push`) are the two
operations on the links, and `Family.unlink` and `Family.push` their rules.
-/

namespace SphereMultithreading.Chains

variable {ι κ : Type*}

/-- The successors and predecessors of all nodes. -/
@[ext] structure Links (ι : Type*) where
  next : ι → ι
  prev : ι → ι

namespace Links

section Writes

variable [DecidableEq ι]

/-- A write to the successor field; writing through `null` has no effect. -/
def setNext (L : Links ι) (null p n : ι) : Links ι :=
  if p = null then L else { L with next := Function.update L.next p n }

/-- A write to the predecessor field; writing through `null` has no effect. -/
def setPrev (L : Links ι) (null p n : ι) : Links ι :=
  if p = null then L else { L with prev := Function.update L.prev p n }

@[simp] theorem prev_setNext (L : Links ι) (null p n : ι) : (L.setNext null p n).prev = L.prev := by
  rw [setNext]; split <;> rfl

@[simp] theorem next_setPrev (L : Links ι) (null p n : ι) : (L.setPrev null p n).next = L.next := by
  rw [setPrev]; split <;> rfl

theorem next_setNext_of_ne (L : Links ι) {null p n a : ι} (apart : a ≠ p) :
    (L.setNext null p n).next a = L.next a := by
  rw [setNext]; split <;> simp [apart]

theorem prev_setPrev_of_ne (L : Links ι) {null p n a : ι} (apart : a ≠ p) :
    (L.setPrev null p n).prev a = L.prev a := by
  rw [setPrev]; split <;> simp [apart]

@[simp] theorem next_setNext_self (L : Links ι) {null p n : ι} (proper : p ≠ null) :
    (L.setNext null p n).next p = n := by simp [setNext, proper]

@[simp] theorem prev_setPrev_self (L : Links ι) {null p n : ι} (proper : p ≠ null) :
    (L.setPrev null p n).prev p = n := by simp [setPrev, proper]

/-- The neighbours of the node are linked to each other. -/
def unlink (L : Links ι) (null i : ι) : Links ι :=
  (L.setNext null (L.prev i) (L.next i)).setPrev null (L.next i) (L.prev i)

/-- The node is linked in front of the head `h`. -/
def push (L : Links ι) (null i h : ι) : Links ι :=
  ((L.setPrev null h i).setNext null i h).setPrev null i null

/-- The first node of a chain stays without a predecessor when it is unlinked. -/
theorem prev_unlink_self (L : Links ι) {null i : ι} (first : L.prev i = null) :
    (L.unlink null i).prev i = null := by
  rw [unlink, first]
  by_cases same : i = L.next i
  · by_cases isNull : L.next i = null
    · rw [setPrev, if_pos isNull, prev_setNext, first]
    · rw [← same] at isNull ⊢
      rw [prev_setPrev_self _ isNull]
  · rw [prev_setPrev_of_ne _ same, prev_setNext, first]

/-- A node without a predecessor need not have it cleared. -/
theorem push_of_prev_eq_null (L : Links ι) {null i h : ι} (apart : i ≠ h) (first : L.prev i = null) :
    L.push null i h = (L.setNext null i h).setPrev null h i := by
  have cleared : (L.setPrev null h i).prev i = null := by rw [prev_setPrev_of_ne L apart, first]
  ext a
  · rw [push, next_setPrev, next_setPrev]
    by_cases same : a = i
    · subst same
      by_cases isNull : a = null
      · simp [setNext, isNull]
      · rw [next_setNext_self _ isNull, next_setNext_self _ isNull]
    · rw [next_setNext_of_ne _ same, next_setNext_of_ne _ same, next_setPrev]
  · have swapped : ((L.setNext null i h).setPrev null h i).prev = (L.setPrev null h i).prev := by
      simp only [setPrev]
      split
      · exact prev_setNext ..
      · simp
    rw [swapped]
    by_cases same : a = i
    · subst same
      by_cases isNull : a = null
      · simp [push, setPrev, setNext, isNull]
      · rw [push, prev_setPrev_self _ isNull, cleared]
    · rw [push, prev_setPrev_of_ne _ same, prev_setNext]

end Writes

/-- Two neighbours of a chain, where `null` ends it on either side. -/
def Joined (L : Links ι) (null a b : ι) : Prop := (a ≠ null → L.next a = b) ∧ (b ≠ null → L.prev b = a)

end Links

/-- The listed nodes are linked in their order, both ways, and the head is the first of them. -/
structure Chain (L : Links ι) (null head : ι) (l : List ι) : Prop where
  head_eq : head = l.headD null
  joined : (null :: (l ++ [null])).IsChain (L.Joined null)
  nodup : l.Nodup
  proper : null ∉ l

/-- Links that agree inside a list keep it linked. -/
private theorem isChain_of_agree {L L' : Links ι} {null : ι} {l : List ι}
    (next : ∀ a ∈ l.dropLast, a ≠ null → L'.next a = L.next a)
    (prev : ∀ b ∈ l.tail, b ≠ null → L'.prev b = L.prev b) (joined : l.IsChain (L.Joined null)) :
    l.IsChain (L'.Joined null) := by
  induction l with
  | nil => exact .nil
  | cons a rest ih =>
    cases rest with
    | nil => exact .singleton a
    | cons b rest =>
      obtain ⟨⟨forth, back⟩, tail⟩ := List.isChain_cons_cons.mp joined
      refine List.isChain_cons_cons.mpr ⟨⟨fun proper => ?_, fun proper => ?_⟩, ih ?_ ?_ tail⟩
      · rw [next a (by simp) proper, forth proper]
      · rw [prev b (by simp) proper, back proper]
      · intro c member
        exact next c (by simpa using Or.inr member)
      · intro c member
        exact prev c (List.mem_cons_of_mem b member)

/-- The ends of a list without repetitions are not among its other elements. -/
private theorem ends_apart {l : List ι} (nodup : l.Nodup) (nonempty : l ≠ []) :
    (∀ a ∈ l.dropLast, a ≠ l.getLast nonempty) ∧ ∀ a ∈ l.tail, a ≠ l.head nonempty := by
  constructor
  · rw [← List.dropLast_concat_getLast nonempty, List.nodup_append] at nodup
    intro a member
    exact nodup.2.2 a member _ (List.mem_singleton_self _)
  · rw [← List.cons_head_tail nonempty, List.nodup_cons] at nodup
    rintro a member rfl
    exact nodup.1 member

namespace Chain

variable {L L' : Links ι} {null head i : ι} {l : List ι}

theorem nil (L : Links ι) (null : ι) : Chain L null null [] where
  head_eq := rfl
  joined := by simp [Links.Joined]
  nodup := List.nodup_nil
  proper := by simp

/-- A chain depends on the links of its own nodes only. -/
theorem congr (chain : Chain L null head l) (next : ∀ a ∈ l, L'.next a = L.next a)
    (prev : ∀ a ∈ l, L'.prev a = L.prev a) : Chain L' null head l where
  head_eq := chain.head_eq
  joined := by
    refine isChain_of_agree ?_ ?_ chain.joined
    · intro a member proper
      rw [← List.cons_append, List.dropLast_concat] at member
      exact next a ((List.mem_cons.mp member).resolve_left proper)
    · intro b member proper
      rcases List.mem_append.mp member with listed | last
      · exact prev b listed
      · exact absurd (List.mem_singleton.mp last) proper
  nodup := chain.nodup
  proper := chain.proper

/-- The links around a node of a chain lead to its neighbours in the list. -/
theorem links_of_cut {front behind : List ι} (chain : Chain L null head (front ++ i :: behind)) :
    L.prev i = (null :: front).getLast (by simp) ∧ L.next i = (behind ++ [null]).head (by simp) := by
  have proper : i ≠ null := fun same => chain.proper (by simp [same])
  have cut : null :: (front ++ i :: behind ++ [null]) =
      (null :: front) ++ ([i] ++ (behind ++ [null])) := by simp
  have joined := chain.joined
  rw [cut] at joined
  have before := joined.rel_getLast_head_of_append (by simp) (by simp)
  have after := joined.right_of_append.rel_getLast_head_of_append (by simp) (by simp)
  exact ⟨before.2 proper, after.1 proper⟩

theorem next_of_cut {front behind : List ι} (chain : Chain L null head (front ++ i :: behind)) :
    L.next i = behind.headD null := by
  rw [chain.links_of_cut.2]
  cases behind <;> rfl

/-- Links and a head belong to one chain. -/
theorem unique {l' : List ι} (chain : Chain L null head l) (chain' : Chain L null head l') : l = l' := by
  have rest {front front' behind behind' : List ι} (left : Chain L null head (front ++ behind))
      (right : Chain L null head (front' ++ behind')) (same : behind.headD null = behind'.headD null) :
      behind = behind' := by
    induction behind generalizing front front' behind' with
    | nil =>
      cases behind' with
      | nil => rfl
      | cons j rest' =>
        have isNull : null = j := same
        exact absurd (by simp [isNull]) right.proper
    | cons i rest ih =>
      cases behind' with
      | nil =>
        have isNull : i = null := same
        exact absurd (by simp [isNull]) left.proper
      | cons j rest' =>
        obtain rfl : i = j := same
        have next := left.next_of_cut.symm.trans right.next_of_cut
        rw [List.append_cons] at left right
        rw [ih left right next]
  exact @rest [] [] l l' chain chain' (chain.head_eq.symm.trans chain'.head_eq)

/-- The neighbours of a node are nodes of its chain. -/
theorem links_mem (chain : Chain L null head l) (member : i ∈ l) :
    (L.prev i ≠ null → L.prev i ∈ l) ∧ (L.next i ≠ null → L.next i ∈ l) := by
  obtain ⟨front, behind, rfl⟩ := List.append_of_mem member
  obtain ⟨before, after⟩ := chain.links_of_cut
  refine ⟨fun proper => ?_, fun proper => ?_⟩
  · have listed := List.getLast_mem (List.cons_ne_nil null front)
    rw [← before] at listed
    exact List.mem_append_left _ ((List.mem_cons.mp listed).resolve_left proper)
  · have listed := List.head_mem (List.append_ne_nil_of_right_ne_nil behind (List.cons_ne_nil null []))
    rw [← after] at listed
    rcases List.mem_append.mp listed with inside | last
    · exact List.mem_append_right _ (List.mem_cons_of_mem i inside)
    · exact absurd (List.mem_singleton.mp last) proper

section Unlink

variable [DecidableEq ι]

/-- The neighbours of an unlinked node point past it. -/
private theorem unlink_spec (L : Links ι) (null i : ι) :
    (∀ a, a ≠ L.prev i → (L.unlink null i).next a = L.next a) ∧
    (L.prev i ≠ null → (L.unlink null i).next (L.prev i) = L.next i) ∧
    (∀ a, a ≠ L.next i → (L.unlink null i).prev a = L.prev a) ∧
    (L.next i ≠ null → (L.unlink null i).prev (L.next i) = L.prev i) := by
  refine ⟨fun a apart => ?_, fun proper => ?_, fun a apart => ?_, fun proper => ?_⟩
  · rw [Links.unlink, Links.next_setPrev, Links.next_setNext_of_ne _ apart]
  · rw [Links.unlink, Links.next_setPrev, Links.next_setNext_self _ proper]
  · rw [Links.unlink, Links.prev_setPrev_of_ne _ apart, Links.prev_setNext]
  · rw [Links.unlink, Links.prev_setPrev_self _ proper]

private theorem isChain_unlink {front behind : List ι}
    (chain : Chain L null head (front ++ i :: behind)) :
    (null :: (front ++ behind ++ [null])).IsChain ((L.unlink null i).Joined null) := by
  obtain ⟨before, after⟩ := chain.links_of_cut
  obtain ⟨nextKept, nextNew, prevKept, prevNew⟩ := unlink_spec L null i
  obtain ⟨nodupFront, nodupBehind, disjoint⟩ := List.nodup_append.mp chain.nodup
  have properFront : ∀ a ∈ front, a ≠ null := fun a member same =>
    chain.proper (same ▸ List.mem_append_left _ member)
  have properBehind : ∀ a ∈ behind, a ≠ null := fun a member same =>
    chain.proper (same ▸ List.mem_append_right _ (List.mem_cons_of_mem i member))
  have lastApart := (ends_apart (List.nodup_cons.mpr
    ⟨fun member => properFront null member rfl, nodupFront⟩) (List.cons_ne_nil null front)).1
  have headApart := (ends_apart (List.nodup_append.mpr
    ⟨(List.nodup_cons.mp nodupBehind).2, List.nodup_singleton null,
      fun a member b last => List.mem_singleton.mp last ▸ properBehind a member⟩)
    (List.append_ne_nil_of_right_ne_nil behind (List.cons_ne_nil null []))).2
  rw [← before] at lastApart
  rw [← after] at headApart
  have joined := chain.joined
  rw [show null :: (front ++ i :: behind ++ [null]) =
    (null :: front) ++ ([i] ++ (behind ++ [null])) by simp] at joined
  rw [show null :: (front ++ behind ++ [null]) = (null :: front) ++ (behind ++ [null]) by simp,
    List.isChain_append]
  refine ⟨isChain_of_agree (fun a member _ => nextKept a (lastApart a member)) ?_
    joined.left_of_append, isChain_of_agree ?_ (fun b member _ => prevKept b (headApart b member))
    joined.right_of_append.right_of_append, ?_⟩
  · intro b member _
    refine prevKept b fun same => ?_
    have listed : b ∈ behind ++ [null] := by
      rw [same, after]
      exact List.head_mem _
    rcases List.mem_append.mp listed with inBehind | last
    · exact disjoint b member b (List.mem_cons_of_mem i inBehind) rfl
    · exact properFront b member (List.mem_singleton.mp last)
  · intro a member _
    rw [List.dropLast_concat] at member
    refine nextKept a fun same => ?_
    have listed : a ∈ null :: front := by
      rw [same, before]
      exact List.getLast_mem _
    rcases List.mem_cons.mp listed with first | inFront
    · exact properBehind a member first
    · exact disjoint a inFront a (List.mem_cons_of_mem i member) rfl
  · intro p last n first
    rw [List.getLast?_eq_getLast_of_ne_nil (List.cons_ne_nil null front), ← before] at last
    rw [List.head?_eq_some_head (List.append_ne_nil_of_right_ne_nil behind
      (List.cons_ne_nil null [])), ← after] at first
    cases last
    cases first
    exact ⟨nextNew, prevNew⟩

omit [DecidableEq ι] in
/-- A chain holds a node once. -/
theorem notMem_of_cut {front behind : List ι} (chain : Chain L null head (front ++ i :: behind)) :
    i ∉ front := fun inFront =>
  (List.nodup_append.mp chain.nodup).2.2 i inFront i List.mem_cons_self rfl

theorem erase_of_cut {front behind : List ι} (chain : Chain L null head (front ++ i :: behind)) :
    (front ++ i :: behind).erase i = front ++ behind := by
  rw [List.erase_append_right _ chain.notMem_of_cut, List.erase_cons_head]

/-- Unlinking a node leaves the rest of its chain linked; the head moves on with the first node. -/
theorem unlink (chain : Chain L null head l) (member : i ∈ l) :
    Chain (L.unlink null i) null (if head = i then L.next i else head) (l.erase i) := by
  obtain ⟨front, behind, rfl⟩ := List.append_of_mem member
  have fewer := (List.sublist_cons_self i behind).append_left front
  rw [chain.erase_of_cut]
  refine ⟨?_, isChain_unlink chain, chain.nodup.sublist fewer,
    fun listed => chain.proper (fewer.subset listed)⟩
  rw [chain.head_eq]
  cases front with
  | nil => simpa using chain.next_of_cut
  | cons a rest =>
    have elsewhere : a ≠ i := fun same => chain.notMem_of_cut (same ▸ List.mem_cons_self)
    simp [elsewhere]

/-- A node outside the chain can be put in front of it. -/
theorem push (chain : Chain L null head l) (proper : i ≠ null) (absent : i ∉ l) :
    Chain (L.push null i head) null i (i :: l) := by
  have apart : head ≠ i := by
    rw [chain.head_eq]
    cases l with
    | nil => exact proper.symm
    | cons a rest => exact fun same => absent (same ▸ List.mem_cons_self)
  have next (a : ι) : (L.push null i head).next a = if a = i then head else L.next a := by
    rw [Links.push, Links.next_setPrev]
    split
    · next here => rw [here, Links.next_setNext_self _ proper]
    · next other => rw [Links.next_setNext_of_ne _ other, Links.next_setPrev]
  have prevNew : (L.push null i head).prev i = null := by
    rw [Links.push, Links.prev_setPrev_self _ proper]
  have prevKept {a : ι} (other : a ≠ i) :
      (L.push null i head).prev a = (L.setPrev null head i).prev a := by
    rw [Links.push, Links.prev_setPrev_of_ne _ other, Links.prev_setNext]
  have inner := chain.joined.tail
  have first : (l ++ [null]).head? = some head := by
    rw [chain.head_eq]
    cases l <;> rfl
  have headApart := (ends_apart (List.nodup_append.mpr ⟨chain.nodup, List.nodup_singleton null,
    fun a member b last => List.mem_singleton.mp last ▸ fun same => chain.proper (same ▸ member)⟩)
    (List.append_ne_nil_of_right_ne_nil l (List.cons_ne_nil null []))).2
  rw [List.head_of_head?_eq_some first] at headApart
  refine ⟨rfl, ?_, List.nodup_cons.mpr ⟨absent, chain.nodup⟩, ?_⟩
  · rw [List.cons_append]
    refine List.isChain_cons_cons.mpr ⟨⟨fun same => absurd rfl same, fun _ => prevNew⟩, ?_⟩
    refine List.isChain_cons.mpr ⟨fun a here => ?_, isChain_of_agree ?_ ?_ inner⟩
    · rw [first] at here
      cases here
      refine ⟨fun _ => by rw [next, if_pos rfl], fun headProper => ?_⟩
      rw [prevKept apart, Links.prev_setPrev_self _ headProper]
    · intro a member _
      rw [List.dropLast_concat] at member
      have other : a ≠ i := fun same => absent (same ▸ member)
      rw [next, if_neg other]
    · intro b member bProper
      have listed : b ∈ l := by
        rcases List.mem_append.mp (List.mem_of_mem_tail member) with listed | last
        · exact listed
        · exact absurd (List.mem_singleton.mp last) bProper
      rw [prevKept fun same => absent (same ▸ listed),
        Links.prev_setPrev_of_ne _ (headApart b member)]
  · intro member
    rcases List.mem_cons.mp member with same | listed
    · exact proper same.symm
    · exact chain.proper listed

end Unlink

end Chain

/-- A node moves from its chain to the front of another one. -/
def moved [DecidableEq ι] [DecidableEq κ] (chains : κ → List ι) (i : ι) (c d : κ) : κ → List ι :=
  let rest := Function.update chains c ((chains c).erase i)
  Function.update rest d (i :: rest d)

section Moved

variable [DecidableEq ι] [DecidableEq κ] (chains : κ → List ι) (i : ι) {c d e : κ}

theorem moved_source (apart : c ≠ d) : moved chains i c d c = (chains c).erase i := by
  rw [moved, Function.update_of_ne apart, Function.update_self]

theorem moved_of_ne (source : e ≠ c) (target : e ≠ d) : moved chains i c d e = chains e := by
  rw [moved, Function.update_of_ne target, Function.update_of_ne source]

end Moved

/-- Chains without a common node, one for each head. -/
structure Family (L : Links ι) (null : ι) (heads : κ → ι) (chains : κ → List ι) : Prop where
  chain : ∀ c, Chain L null (heads c) (chains c)
  apart : ∀ c d, ∀ i ∈ chains c, i ∈ chains d → c = d

namespace Family

variable {L : Links ι} {null i : ι} {heads : κ → ι} {chains : κ → List ι} {c : κ}

/-- A head that is not `null` designates a node of its chain. -/
theorem head_mem (family : Family L null heads chains) (proper : heads c ≠ null) :
    heads c ∈ chains c := by
  have first := (family.chain c).head_eq
  cases listed : chains c with
  | nil => rw [listed] at first; exact absurd first proper
  | cons a rest => rw [listed] at first; rw [first]; exact List.mem_cons_self

theorem ne_null (family : Family L null heads chains) (member : i ∈ chains c) : i ≠ null :=
  fun same => (family.chain c).proper (same ▸ member)

variable [DecidableEq ι] [DecidableEq κ]

theorem unlink (family : Family L null heads chains) (member : i ∈ chains c) :
    Family (L.unlink null i) null
      (Function.update heads c (if heads c = i then L.next i else heads c))
      (Function.update chains c ((chains c).erase i)) := by
  have fewer : ∀ d, ∀ j ∈ Function.update chains c ((chains c).erase i) d, j ∈ chains d := by
    intro d j listed
    by_cases same : d = c
    · subst same
      rw [Function.update_self] at listed
      exact List.mem_of_mem_erase listed
    · rwa [Function.update_of_ne same] at listed
  obtain ⟨before, after⟩ := (family.chain c).links_mem member
  refine ⟨fun d => ?_, fun d e j inD inE => family.apart d e j (fewer d j inD) (fewer e j inE)⟩
  by_cases same : d = c
  · subst same
    rw [Function.update_self, Function.update_self]
    exact (family.chain d).unlink member
  · rw [Function.update_of_ne same, Function.update_of_ne same]
    obtain ⟨nextKept, -, prevKept, -⟩ := Chain.unlink_spec L null i
    -- the neighbours of the node lie in its own chain
    refine (family.chain d).congr (fun a listed => nextKept a ?_) (fun a listed => prevKept a ?_)
    · rintro rfl
      exact same (family.apart d c _ listed (before (family.ne_null listed)))
    · rintro rfl
      exact same (family.apart d c _ listed (after (family.ne_null listed)))

theorem push (family : Family L null heads chains) (proper : i ≠ null)
    (absent : ∀ d, i ∉ chains d) :
    Family (L.push null i (heads c)) null (Function.update heads c i)
      (Function.update chains c (i :: chains c)) := by
  have known : ∀ d, ∀ j ∈ Function.update chains c (i :: chains c) d,
      j = i ∧ d = c ∨ j ≠ i ∧ j ∈ chains d := by
    intro d j listed
    by_cases same : d = c
    · subst same
      rw [Function.update_self] at listed
      rcases List.mem_cons.mp listed with rfl | old
      · exact .inl ⟨rfl, rfl⟩
      · exact .inr ⟨fun here => absent d (here ▸ old), old⟩
    · rw [Function.update_of_ne same] at listed
      exact .inr ⟨fun here => absent d (here ▸ listed), listed⟩
  refine ⟨fun d => ?_, fun d e j inD inE => ?_⟩
  · by_cases same : d = c
    · subst same
      rw [Function.update_self, Function.update_self]
      exact (family.chain d).push proper (absent d)
    · rw [Function.update_of_ne same, Function.update_of_ne same]
      have other : ∀ a ∈ chains d, a ≠ i ∧ a ≠ heads c := by
        refine fun a listed => ⟨fun here => absent d (here ▸ listed), ?_⟩
        rintro rfl
        exact same (family.apart d c _ listed (family.head_mem (family.ne_null listed)))
      refine (family.chain d).congr (fun a listed => ?_) (fun a listed => ?_)
      · rw [Links.push, Links.next_setPrev, Links.next_setNext_of_ne _ (other a listed).1,
          Links.next_setPrev]
      · rw [Links.push, Links.prev_setPrev_of_ne _ (other a listed).1, Links.prev_setNext,
          Links.prev_setPrev_of_ne _ (other a listed).2]
  · rcases known d j inD with ⟨rfl, rfl⟩ | ⟨apart, inD⟩
    · rcases known e j inE with ⟨-, rfl⟩ | ⟨apart, -⟩
      · rfl
      · exact absurd rfl apart
    · rcases known e j inE with ⟨rfl, -⟩ | ⟨-, inE⟩
      · exact absurd rfl apart
      · exact family.apart d e j inD inE

/-- No chain holds an unlinked node any more. -/
theorem notMem_unlink (family : Family L null heads chains) (member : i ∈ chains c) (d : κ) :
    i ∉ Function.update chains c ((chains c).erase i) d := by
  by_cases same : d = c
  · subst same
    rw [Function.update_self]
    exact (family.chain d).nodup.not_mem_erase
  · rw [Function.update_of_ne same]
    exact fun listed => same (family.apart d c i listed member)

theorem move (family : Family L null heads chains) (member : i ∈ chains c) (d : κ) :
    let rest := Function.update heads c (if heads c = i then L.next i else heads c)
    Family ((L.unlink null i).push null i (rest d)) null (Function.update rest d i)
      (moved chains i c d) :=
  (family.unlink member).push (family.ne_null member) (family.notMem_unlink member)

theorem mem_moved (family : Family L null heads chains) (member : i ∈ chains c) (d e : κ) (j : ι) :
    j ∈ moved chains i c d e ↔ j = i ∧ e = d ∨ j ≠ i ∧ j ∈ chains e := by
  have rest : j ∈ Function.update chains c ((chains c).erase i) e ↔ j ≠ i ∧ j ∈ chains e := by
    by_cases same : e = c
    · subst same
      rw [Function.update_self, (family.chain e).nodup.mem_erase_iff]
    · rw [Function.update_of_ne same]
      refine (and_iff_right_of_imp ?_).symm
      rintro listed rfl
      exact same (family.apart e c j listed member)
  rw [moved]
  by_cases same : e = d
  · subst same
    rw [Function.update_self, List.mem_cons, rest]
    simp
  · rw [Function.update_of_ne same, rest]
    simp [same]

end Family

end SphereMultithreading.Chains
