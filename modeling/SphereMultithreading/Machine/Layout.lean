import Mathlib

/-! # Segments laid out in order

A list of segments, each with a start and a length, is laid out between two bounds when every
segment starts where a relation allows after the end of its predecessor. With equality the
segments tile the interval; with `≤` they are disjoint and in order, with gaps. Both readings
share the same rules, which only need the relation to be a preorder that survives adding a length
on both sides (`Placement`).
-/

namespace SphereMultithreading.Layout

variable {α : Type*}

/-- A relation between the end of a segment and the start of the next one. -/
structure Placement (r : ℕ → ℕ → Prop) : Prop where
  refl : ∀ a, r a a
  trans : ∀ {a b c}, r a b → r b c → r a c
  add_right : ∀ {a b} n, r a b → r (a + n) (b + n)

theorem Placement.eq : Placement (· = ·) :=
  ⟨fun _ => rfl, fun left right => left.trans right, fun n same => congrArg (· + n) same⟩

theorem Placement.le : Placement (· ≤ ·) :=
  ⟨Nat.le_refl, fun left right => Nat.le_trans left right,
    fun n below => Nat.add_le_add_right below n⟩

/-- The segments follow one another from `lo` to `hi`. -/
def Laid (r : ℕ → ℕ → Prop) (start len : α → ℕ) : ℕ → List α → ℕ → Prop
  | lo, [], hi => r lo hi
  | lo, a :: rest, hi => r lo (start a) ∧ Laid r start len (start a + len a) rest hi

section Rules

variable {r : ℕ → ℕ → Prop} {start len : α → ℕ} {lo mid hi : ℕ} {l : List α}

@[simp] theorem laid_nil : Laid r start len lo [] hi ↔ r lo hi := Iff.rfl

@[simp] theorem laid_cons {a : α} : Laid r start len lo (a :: l) hi ↔
    r lo (start a) ∧ Laid r start len (start a + len a) l hi := Iff.rfl

/-- Moving the lower bound back where the relation allows it. -/
theorem Laid.lower (placement : Placement r) (before : r mid lo)
    (laid : Laid r start len lo l hi) : Laid r start len mid l hi := by
  cases l with
  | nil => exact placement.trans before laid
  | cons a rest => exact ⟨placement.trans before laid.1, laid.2⟩

/-- Moving the upper bound on where the relation allows it. -/
theorem Laid.upper (placement : Placement r) (behind : r hi mid)
    (laid : Laid r start len lo l hi) : Laid r start len lo l mid := by
  induction l generalizing lo with
  | nil => exact placement.trans laid behind
  | cons a rest ih => exact ⟨laid.1, ih laid.2⟩

/-- Segments that tile are laid out for every placement. -/
theorem Laid.of_eq (placement : Placement r) (tiled : Laid (· = ·) start len lo l hi) :
    Laid r start len lo l hi := by
  induction l generalizing lo with
  | nil => exact (show lo = hi from tiled) ▸ placement.refl lo
  | cons a rest ih => exact ⟨tiled.1 ▸ placement.refl lo, ih tiled.2⟩

/-- A layout splits between any two of its segments. -/
theorem laid_append (placement : Placement r) {first second : List α} :
    Laid r start len lo (first ++ second) hi ↔
      ∃ mid, Laid r start len lo first mid ∧ Laid r start len mid second hi := by
  induction first generalizing lo with
  | nil =>
    constructor
    · intro laid
      exact ⟨lo, placement.refl lo, laid⟩
    · rintro ⟨mid, before, laid⟩
      exact laid.lower placement before
  | cons a rest ih => simp only [List.cons_append, laid_cons, ih, ← exists_and_left, and_assoc]

/-- The lengths of the segments fit between the bounds. -/
theorem Laid.rel_sum (placement : Placement r) (laid : Laid r start len lo l hi) :
    r (lo + (l.map len).sum) hi := by
  induction l generalizing lo with
  | nil => exact laid
  | cons a rest ih =>
    obtain ⟨first, tail⟩ := laid
    have shifted := placement.add_right (len a + (rest.map len).sum) first
    rw [← Nat.add_assoc (start a)] at shifted
    simpa only [List.map_cons, List.sum_cons] using placement.trans shifted (ih tail)

/-- A layout depends on the starts and lengths only. -/
theorem laid_map {β : Type*} {start' len' : β → ℕ} (f : β → α) {l : List β}
    (starts : ∀ b ∈ l, start (f b) = start' b) (lens : ∀ b ∈ l, len (f b) = len' b) :
    Laid r start len lo (l.map f) hi ↔ Laid r start' len' lo l hi := by
  induction l generalizing lo with
  | nil => rfl
  | cons b rest ih =>
    rw [List.map_cons, laid_cons, laid_cons, starts b List.mem_cons_self, lens b List.mem_cons_self,
      ih (fun c member => starts c (List.mem_cons_of_mem b member))
        (fun c member => lens c (List.mem_cons_of_mem b member))]

/-- Segments whose start and end are related may be dropped: any segment when gaps are allowed,
an empty one when they are not. -/
theorem Laid.filter (placement : Placement r) (keep : α → Bool)
    (droppable : ∀ a ∈ l, keep a = false → r (start a) (start a + len a))
    (laid : Laid r start len lo l hi) : Laid r start len lo (l.filter keep) hi := by
  induction l generalizing lo with
  | nil => exact laid
  | cons a rest ih =>
    obtain ⟨first, tail⟩ := laid
    have kept := ih (fun b member => droppable b (List.mem_cons_of_mem a member)) tail
    cases decided : keep a with
    | true => rw [List.filter_cons_of_pos decided]; exact ⟨first, kept⟩
    | false =>
      rw [List.filter_cons_of_neg (by simp [decided])]
      exact kept.lower placement (placement.trans first (droppable a List.mem_cons_self decided))

end Rules

section Bounds

variable {start len : α → ℕ} {lo hi : ℕ} {l : List α}

/-- Every segment of an ordered layout lies between the bounds. -/
theorem Laid.bounds (laid : Laid (· ≤ ·) start len lo l hi) :
    lo ≤ hi ∧ ∀ a ∈ l, lo ≤ start a ∧ start a + len a ≤ hi := by
  induction l generalizing lo with
  | nil => exact ⟨laid, by simp⟩
  | cons a rest ih =>
    obtain ⟨first, tail⟩ := laid
    obtain ⟨upper, inside⟩ := ih tail
    refine ⟨by omega, ?_⟩
    intro b member
    rcases List.mem_cons.mp member with rfl | member
    · exact ⟨first, upper⟩
    · have := inside b member
      omega

/-- In an ordered layout every segment ends before the later ones start. -/
theorem Laid.pairwise (laid : Laid (· ≤ ·) start len lo l hi) :
    l.Pairwise fun a b => start a + len a ≤ start b := by
  induction l generalizing lo with
  | nil => exact .nil
  | cons a rest ih =>
    exact .cons (fun b member => (laid.2.bounds.2 b member).1) (ih laid.2)

/-- A position lies in one segment of an ordered layout at most. -/
theorem Laid.unique (laid : Laid (· ≤ ·) start len lo l hi) {a b : α} (ha : a ∈ l) (hb : b ∈ l) {j : ℕ}
    (inA : start a ≤ j ∧ j < start a + len a) (inB : start b ≤ j ∧ j < start b + len b) : a = b := by
  induction l generalizing lo with
  | nil => cases ha
  | cons c rest ih =>
    have behind := laid.2.bounds.2
    rcases List.mem_cons.mp ha with rfl | ha' <;> rcases List.mem_cons.mp hb with rfl | hb'
    · rfl
    · have := behind b hb'
      omega
    · have := behind a ha'
      omega
    · exact ih laid.2 ha' hb'

/-- In a tiling it lies in one. -/
theorem Laid.exists_of_lt (laid : Laid (· = ·) start len lo l hi) {j : ℕ} (above : lo ≤ j)
    (below : j < hi) : ∃ a ∈ l, start a ≤ j ∧ j < start a + len a := by
  induction l generalizing lo with
  | nil =>
    obtain rfl : lo = hi := laid
    omega
  | cons a rest ih =>
    obtain ⟨first, tail⟩ := laid
    rcases Nat.lt_or_ge j (start a + len a) with inside | behind
    · exact ⟨a, List.mem_cons_self, first ▸ above, inside⟩
    · obtain ⟨b, member, inside⟩ := ih tail behind
      exact ⟨b, List.mem_cons_of_mem a member, inside⟩

/-- A tiling read off the list: the first segment starts at the lower bound, every next one where
its predecessor ends, and the last one ends at the upper bound. -/
theorem laid_eq_iff (nonempty : l ≠ []) : Laid (· = ·) start len lo l hi ↔
    l.head?.map start = some lo ∧ l.IsChain (fun a b => start b = start a + len a) ∧
      l.getLast?.map (fun a => start a + len a) = some hi := by
  induction l generalizing lo with
  | nil => exact absurd rfl nonempty
  | cons a rest ih =>
    cases rest with
    | nil => simp [eq_comm]
    | cons b rest =>
      rw [laid_cons, ih (List.cons_ne_nil b rest)]
      simp only [List.head?_cons, Option.map_some, Option.some.injEq, List.isChain_cons_cons,
        List.getLast?_cons_cons, @eq_comm _ lo, and_assoc]

end Bounds

end SphereMultithreading.Layout
