import SphereMultithreading.Model.P2.Message
import SphereMultithreading.Proofs.Stdio

/-! # Messages made of strings

The constructor cuts a string into blocks at the multiples of the block size, the last of which may be
the position of the terminator, and every block ends at the first zero byte.
-/

namespace SphereMultithreading.Soundness.P2

open Model Model.P2 Model.P2.Message Model.Scanf Model.Stdio

/-- No block is empty or too long, together they are the string, and `is_complete` tells whether it
ends with a newline. -/
structure Faithful (string : Text) (msg : Message) : Prop where
  sizes : ∀ block ∈ msg.blocks, 1 ≤ block.length ∧ block.length ≤ buffSize
  none : string = [] → msg.blocks = []
  whole : msg.text = string
  complete : string ≠ [] →
    ∃ answer, msg.isComplete = some answer ∧ (answer = true ↔ string.getLast? = some '\n')

variable {string : Text} {msg : Message} {i : ℕ}

/-- What a turn of the loop appends. -/
def piece (string : Text) (i : ℕ) : Text := (cString (string.drop i)).take buffSize

theorem split_of_le (inside : i ≤ string.length) :
    split string msg i = split string (msg.append (piece string i)) (i + buffSize) := by
  rw [split, if_pos (Nat.lt_succ_of_le inside), piece, ← take_strlen, List.take_take, min_comm]

theorem split_of_lt (outside : string.length < i) : split string msg i = msg := by
  rw [split, if_neg (by omega)]

/-- An invariant of the loop. -/
theorem split_induction (string : Text) (P : Message → ℕ → Prop) (start : P msg i)
    (turn : ∀ msg i, i ≤ string.length → P msg i → P (msg.append (piece string i)) (i + buffSize)) :
    ∃ last, string.length < last ∧ P (split string msg i) last := by
  induction msg, i using split.induct string with
  | case1 msg i inside message ih =>
    have inside := Nat.le_of_lt_succ inside
    have block : message.take (min (strlen message) buffSize) = piece string i := by
      rw [piece, ← take_strlen, List.take_take, min_comm]
    rw [split_of_le inside]
    rw [block] at ih
    exact ih (turn msg i inside start)
  | case2 msg i outside =>
    have outside : string.length < i := by omega
    rw [split_of_lt outside]
    exact ⟨i, outside, start⟩

/-- A block has no zero byte. -/
theorem zero_notMem_ofString (string : Text) : '\x00' ∉ (ofString string).text := by
  obtain ⟨last, -, clean⟩ := split_induction string (fun msg _ => '\x00' ∉ msg.text) (i := 0)
    (show '\x00' ∉ empty.text by simp) fun msg i _ clean => by
      rw [text_append, List.mem_append, not_or]
      exact ⟨clean, fun member => zero_notMem_cString _ (List.mem_of_mem_take member)⟩
  exact clean

/-- At the position of the terminator nothing is left. -/
theorem nil_mem_ofString (whole : string.length % buffSize = 0) :
    [] ∈ (ofString string).blocks := by
  have start : 0 % buffSize = 0 ∧ (string.length < 0 → [] ∈ empty.blocks) :=
    ⟨rfl, fun beyond => absurd beyond (Nat.not_lt_zero _)⟩
  obtain ⟨last, beyond, aligned, found⟩ := split_induction string
    (fun msg i => i % buffSize = 0 ∧ (string.length < i → [] ∈ msg.blocks))
    start fun msg i inside ⟨aligned, _⟩ => by
      refine ⟨by rw [Nat.add_mod_right, aligned], fun beyond => List.mem_append_right _ ?_⟩
      have last : i = string.length := by
        simp only [buffSize] at *
        omega
      rw [List.mem_singleton, piece, last, List.drop_length]
      rfl
  exact found beyond

/-- A string without zero bytes is cut into full blocks and a rest. -/
theorem faithful_ofString (clean : '\x00' ∉ string) (rest : string.length % buffSize ≠ 0) :
    Faithful string (ofString string) := by
  have cut (i : ℕ) : piece string i = (string.drop i).take buffSize := by
    rw [piece, cString_eq_self fun member => clean (List.mem_of_mem_drop member)]
  have start : 0 % buffSize = 0 ∧ empty.text = string.take 0 ∧
      ∀ block ∈ empty.blocks, 1 ≤ block.length ∧ block.length ≤ buffSize :=
    ⟨rfl, rfl, by rintro block ⟨⟩⟩
  obtain ⟨last, beyond, aligned, whole, sizes⟩ := split_induction string
    (fun msg i => i % buffSize = 0 ∧ msg.text = string.take i ∧
      ∀ block ∈ msg.blocks, 1 ≤ block.length ∧ block.length ≤ buffSize)
    start fun msg i inside ⟨aligned, whole, sizes⟩ => by
      have before : i < string.length := inside.lt_of_ne fun same => rest (same ▸ aligned)
      refine ⟨by rw [Nat.add_mod_right, aligned], ?_, fun block member => ?_⟩
      · rw [text_append, whole, cut, ← List.take_add]
      · rcases List.mem_append.mp member with before | new
        · exact sizes block before
        · rw [List.mem_singleton.mp new, cut, List.length_take, List.length_drop]
          exact ⟨le_min (by decide) (Nat.sub_pos_of_lt before), min_le_left _ _⟩
  have whole : (ofString string).text = string := by
    rw [ofString, whole, List.take_of_length_le beyond.le]
  have filled : [] ∉ (ofString string).blocks := fun member => by
    simpa using (sizes [] member).1
  refine ⟨sizes, fun none => absurd rest (by simp [none]), whole, fun nonempty => ?_⟩
  rw [isComplete_of_filled filled, whole, List.getLast?_eq_some_getLast nonempty]
  exact ⟨_, rfl, by simp⟩

/-- A string is cut faithfully exactly when it has no zero byte and its length is no multiple of the
block size. -/
theorem ofString_iff (string : Text) :
    Faithful string (ofString string) ↔ '\x00' ∉ string ∧ string.length % buffSize ≠ 0 := by
  constructor
  · intro faithful
    refine ⟨faithful.whole ▸ zero_notMem_ofString string, fun whole => ?_⟩
    simpa using (faithful.sizes [] (nil_mem_ofString whole)).1
  · exact fun condition => faithful_ofString condition.1 condition.2

/-- The empty string is made into a block of no bytes, of which `is_complete` reads the last. -/
theorem ofString_fails : ¬ Faithful [] (ofString []) ∧ (ofString []).isComplete = none := by
  have blocks : ofString [] = ⟨[[]]⟩ := by
    rw [ofString, split_of_le (Nat.zero_le _), split_of_lt (by decide)]
    rfl
  rw [blocks]
  exact ⟨fun faithful => by simpa using faithful.none rfl, rfl⟩

end SphereMultithreading.Soundness.P2
