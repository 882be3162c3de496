import Mathlib
import SphereMultithreading.Model.P10.Exponential

/-! # The blocks of p10 against the series

The block size rounds up what is a whole number of terms already, ends are inclusive, and the clamp is to
the block size where the number of terms was meant. The first two ranks sum the first block and its last
term once more, and the others nothing.
-/

namespace SphereMultithreading.Soundness.P10

open Model.P10 Finset

/-- `exp(x) = sum x^i/i!, i=0,n` -/
def series (nMax : ℕ) (x : ℚ) : ℚ := ∑ i ∈ range (nMax + 1), x ^ i / i.factorial

/-- The reduced value is that of the series, every index is in the block of one rank, and a rank starts
from the term before its first one. -/
structure Right (size nMax : ℕ) (x : ℚ) : Prop where
  value : res size nMax x = series nMax x
  covers : ∀ i ≤ nMax, ∃! rank, rank < size ∧ i ∈ indices size nMax rank
  factors : ∀ rank, 0 < rank → rank < size → ∀ b, b + 1 = iBegin size nMax rank →
    received size nMax x rank = x ^ b / b.factorial

variable {size nMax : ℕ} {x : ℚ}

/-! ## The terms of a rank -/

/-- The first terms of the series, and the last of them. -/
theorem foldl_body (x : ℚ) (m : ℕ) :
    (List.range' 0 (m + 1)).foldl (body x) (1, 0) = (x ^ m / m.factorial, series m x) := by
  induction m with
  | zero => simp [body, series]
  | succ m ih =>
    rw [List.range'_concat, List.foldl_append, ih, series, series, sum_range_succ _ (m + 1)]
    have term : x ^ m / m.factorial * (x / (m + 1 : ℕ)) = x ^ (m + 1) / (m + 1).factorial := by
      rw [div_mul_div_comm, ← pow_succ, Nat.factorial_succ, mul_comm (m + 1), Nat.cast_mul]
    simp only [Nat.one_mul, Nat.zero_add, List.foldl_cons, List.foldl_nil, body]
    rw [if_pos (Nat.succ_ne_zero m), term]

theorem iLast_eq (rank : ℕ) : iLast size nMax rank = blockSize size nMax := by
  rw [iLast, iEnd]
  split
  · rfl
  · next clamped =>
    rw [Nat.add_mul, Nat.one_mul] at *
    omega

theorem mem_indices {i rank : ℕ} :
    i ∈ indices size nMax rank ↔ rank * blockSize size nMax ≤ i ∧ i ≤ blockSize size nMax := by
  rw [indices, List.mem_range'_1, iLast_eq, iBegin]
  omega

theorem loop_zero :
    loop size nMax x 0 =
      (x ^ blockSize size nMax / (blockSize size nMax).factorial, series (blockSize size nMax) x) := by
  rw [loop, indices, iLast_eq, iBegin, Nat.zero_mul, Nat.sub_zero, foldl_body]

theorem loop_one (positive : 0 < blockSize size nMax) :
    loop size nMax x 1 = (x / blockSize size nMax, x / blockSize size nMax) := by
  rw [loop, indices, iLast_eq, iBegin, Nat.one_mul, Nat.add_sub_cancel_left, List.range'_one,
    List.foldl_cons, List.foldl_nil, body]
  simp [positive.ne']

theorem loop_of_two_le (positive : 0 < blockSize size nMax) {rank : ℕ} (later : 2 ≤ rank) :
    loop size nMax x rank = (1, 0) := by
  have past : blockSize size nMax + 1 - rank * blockSize size nMax = 0 := by
    have := Nat.mul_le_mul_right (blockSize size nMax) later
    omega
  rw [loop, indices, iLast_eq, iBegin, past]
  rfl

/-! ## The value -/

theorem res_one (nMax : ℕ) (x : ℚ) :
    res 1 nMax x = series nMax x + x ^ (nMax + 1) / (nMax + 1).factorial := by
  have whole : blockSize 1 nMax = nMax + 1 := by simp [blockSize, Nat.mod_one]
  rw [res, sum_range_one, contribution, loop_zero, whole, series, sum_range_succ]
  rfl

/-- The first block, and its last term as the second rank has it. -/
theorem res_of_two_le (several : 2 ≤ size) (positive : 0 < blockSize size nMax) :
    res size nMax x = series (blockSize size nMax) x +
      x ^ (blockSize size nMax + 1) / (blockSize size nMax * (blockSize size nMax).factorial) := by
  have later (rank : ℕ) (listed : rank ∈ range size) (other : rank ∉ range 2) :
      contribution size nMax x rank = 0 := by
    rw [mem_range, Nat.not_lt] at other
    rw [contribution, loop_of_two_le positive other]
    simp
  have first : contribution size nMax x 0 = series (blockSize size nMax) x := by
    rw [contribution, loop_zero]
    rfl
  have second : contribution size nMax x 1 = x / blockSize size nMax *
      (x ^ blockSize size nMax / (blockSize size nMax).factorial) := by
    rw [contribution, loop_one positive, received, sent, loop_zero]
    rfl
  rw [res, ← sum_subset (range_mono several) later, sum_range_succ, sum_range_one, first, second,
    div_mul_div_comm, ← pow_succ']

/-- When there is but one term, every rank adds it. -/
theorem res_of_blockSize (empty : blockSize size nMax = 0) : res size nMax x = size := by
  have one (rank : ℕ) : loop size nMax x rank = (1, 1) := by
    rw [loop, indices, iLast_eq, iBegin, empty]
    simp [body]
  have all (rank : ℕ) : contribution size nMax x rank = 1 := by
    rw [contribution, one, received, sent, one]
    simp
  rw [res, sum_congr rfl fun rank _ => all rank]
  simp

/-! ## Where it is right -/

theorem blockSize_pos (several : 2 ≤ size) (terms : 0 < nMax) : 0 < blockSize size nMax := by
  rw [blockSize]
  split
  · exact Nat.succ_pos _
  · next whole =>
    have := Nat.mod_add_div nMax size
    have : size ≤ nMax := Nat.le_of_dvd terms (Nat.dvd_of_mod_eq_zero (by simpa using whole))
    have := Nat.div_pos (Nat.le_succ_of_le this) (by omega)
    omega

theorem blockSize_le (several : 2 ≤ size) (other : ¬ (size = 2 ∧ nMax = 1)) :
    blockSize size nMax ≤ nMax := by
  have half : (nMax + 1) / size ≤ (nMax + 1) / 2 := Nat.div_le_div_left several (by norm_num)
  rw [blockSize]
  split
  · next parts =>
    rcases Nat.lt_or_ge nMax 3 with few | many
    · interval_cases nMax
      · simp at parts
      · rw [Nat.div_eq_of_lt (by omega)]
      · have : size ≠ 2 := by
          rintro rfl
          simp at parts
        have : (2 + 1) / size ≤ 3 / 3 := Nat.div_le_div_left (by omega) (by norm_num)
        omega
    · omega
  · omega

/-- The last index of the first block is in the second one, too. -/
theorem not_covers (several : 2 ≤ size) (listed : blockSize size nMax ≤ nMax)
    (covers : ∀ i ≤ nMax, ∃! rank, rank < size ∧ i ∈ indices size nMax rank) : False := by
  have first : 0 < size ∧ blockSize size nMax ∈ indices size nMax 0 :=
    ⟨by omega, mem_indices.mpr (by simp)⟩
  have second : 1 < size ∧ blockSize size nMax ∈ indices size nMax 1 :=
    ⟨by omega, mem_indices.mpr (by simp)⟩
  exact Nat.zero_ne_one ((covers _ listed).unique first second)

theorem right_one_iff : Right 1 nMax x ↔ x = 0 := by
  constructor
  · intro right
    have value := right.value
    rw [res_one, add_eq_left, div_eq_zero_iff] at value
    exact pow_eq_zero_iff (Nat.succ_ne_zero nMax) |>.mp (value.resolve_right (by positivity))
  · rintro rfl
    refine ⟨?_, fun i below => ⟨0, ⟨Nat.one_pos, ?_⟩, fun rank listed => by omega⟩, fun rank => by omega⟩
    · rw [res_one, zero_pow (Nat.succ_ne_zero nMax), zero_div, add_zero]
    · rw [mem_indices, blockSize]
      omega

theorem right_two_iff : Right 2 1 x ↔ x = 0 := by
  have size : blockSize 2 1 = 2 := rfl
  have factor : received 2 1 x 1 = x ^ 2 / 2 := by
    rw [received, sent, loop_zero, size]
    norm_num
  have value : res 2 1 x = 1 + x + x ^ 2 / 2 + x ^ 3 / 4 := by
    rw [res_of_two_le (Nat.le_refl 2) (by rw [size]; norm_num), size, series, sum_range_succ,
      sum_range_succ, sum_range_one]
    norm_num [Nat.factorial]
  have first_two : series 1 x = 1 + x := by
    rw [series, sum_range_succ, sum_range_one]
    norm_num
  constructor
  · intro right
    have given := right.factors 1 Nat.one_pos Nat.one_lt_two 1 rfl
    have total := right.value
    rw [factor, Nat.factorial_one, Nat.cast_one, pow_one, div_one] at given
    rw [value, first_two] at total
    -- the cube is that of `x ^ 2 = 2 * x`
    have cube : x ^ 3 = 2 * x ^ 2 := by
      rw [pow_succ', show x ^ 2 = 2 * x by linarith]
      linarith [show x * (2 * x) = 2 * x ^ 2 by ring]
    linarith
  · rintro rfl
    refine ⟨?_, fun i below => ⟨0, ⟨Nat.two_pos, ?_⟩, fun rank ⟨inside, listed⟩ => ?_⟩,
      fun rank positive inside b first => ?_⟩
    · rw [value, first_two]
      norm_num
    · rw [mem_indices, size]
      omega
    · rw [mem_indices, size] at listed
      omega
    · obtain rfl : rank = 1 := by omega
      obtain rfl : b = 1 := by
        rw [iBegin, size] at first
        omega
      rw [factor]
      norm_num

/-- The terms up to `m` that are left after `n` are together less than the one that is added. -/
theorem series_tail {m n : ℕ} (terms : 0 < n) (positive : 0 < x) (small : x ≤ 1) (le : n ≤ m) :
    series m x + x ^ (n + 1) / (m * m.factorial) ≤ series n x + x ^ (n + 1) / (n * n.factorial) := by
  induction m, le using Nat.le_induction with
  | base => exact le_rfl
  | succ m le ih =>
    refine le_trans ?_ ih
    have power : x ^ (m + 1) ≤ x ^ (n + 1) := pow_le_pow_of_le_one positive.le small (by omega)
    have many : (0 : ℚ) < m := by exact_mod_cast Nat.lt_of_lt_of_le terms le
    have gap : (1 : ℚ) / (m + 1).factorial + 1 / ((m + 1 : ℕ) * (m + 1).factorial) ≤
        1 / (m * m.factorial) := by
      rw [Nat.factorial_succ, ← sub_nonneg]
      push_cast
      have rest : (1 : ℚ) / (m * m.factorial) -
          (1 / ((m + 1) * m.factorial) + 1 / ((m + 1) * ((m + 1) * m.factorial))) =
          1 / (m * (m + 1) ^ 2 * m.factorial) := by
        field_simp
        ring
      rw [rest]
      positivity
    have next : series (m + 1) x = series m x + x ^ (m + 1) / (m + 1).factorial := sum_range_succ ..
    calc
      _ = series m x + (x ^ (m + 1) / (m + 1).factorial +
          x ^ (n + 1) / ((m + 1 : ℕ) * (m + 1).factorial)) := by rw [next, add_assoc]
      _ ≤ series m x + (x ^ (n + 1) / (m + 1).factorial +
          x ^ (n + 1) / ((m + 1 : ℕ) * (m + 1).factorial)) := by gcongr
      _ = series m x + x ^ (n + 1) * (1 / (m + 1).factorial +
          1 / ((m + 1 : ℕ) * (m + 1).factorial)) := by ring
      _ ≤ series m x + x ^ (n + 1) * (1 / (m * m.factorial)) := by gcongr
      _ = _ := by rw [mul_one_div]

theorem series_lt_res (size_pos : 0 < size) (positive : 0 < x) (small : x ≤ 1) :
    series nMax x < res size nMax x := by
  obtain rfl | several : size = 1 ∨ 2 ≤ size := by omega
  · rw [res_one]
    exact lt_add_of_pos_right _ (by positivity)
  rcases Nat.eq_zero_or_pos nMax with rfl | terms
  · have empty : blockSize size 0 = 0 := by simp [blockSize, Nat.div_eq_of_lt several]
    rw [res_of_blockSize empty, series, sum_range_one, pow_zero, Nat.factorial_zero, Nat.cast_one, div_one]
    exact_mod_cast several
  have block := blockSize_pos several terms
  have fraction : (0 : ℚ) < blockSize size nMax := by exact_mod_cast block
  rw [res_of_two_le several block]
  rcases Nat.lt_or_ge nMax (blockSize size nMax) with more | fewer
  · refine lt_add_of_le_of_pos ?_ (by positivity)
    refine sum_le_sum_of_subset_of_nonneg (range_mono (Nat.succ_le_succ more.le)) fun i _ _ => ?_
    positivity
  · refine lt_of_lt_of_le (lt_add_of_pos_right _ ?_) (series_tail block positive small fewer)
    have : (0 : ℚ) < nMax := by exact_mod_cast terms
    positivity

/-- All is right for `x = 0` only, with one process, or with two and two terms. For an `x` like that of
the source the value is too large, whatever the number of processes and of terms. -/
theorem right_iff (size_pos : 0 < size) :
    (Right size nMax x ↔ x = 0 ∧ (size = 1 ∨ size = 2 ∧ nMax = 1)) ∧
      (0 < x → x ≤ 1 → series nMax x < res size nMax x) := by
  refine ⟨?_, series_lt_res size_pos⟩
  obtain rfl | several : size = 1 ∨ 2 ≤ size := by omega
  · rw [right_one_iff]
    simp
  by_cases two : size = 2 ∧ nMax = 1
  · obtain ⟨rfl, rfl⟩ := two
    rw [right_two_iff]
    simp
  · constructor
    · intro right
      exact (not_covers several (blockSize_le several two) right.covers).elim
    · rintro ⟨-, rfl | other⟩
      · exact absurd several (by norm_num)
      · exact absurd other two

/-- Four processes with the values of the source. -/
theorem right_four :
    (Right 4 25 1 ↔ (1 : ℚ) = 0 ∧ (4 = 1 ∨ 4 = 2 ∧ 25 = 1)) ∧
      ((0 : ℚ) < 1 → (1 : ℚ) ≤ 1 → series 25 1 < res 4 25 1) :=
  right_iff (Nat.zero_lt_succ 3)

/-- With one process the term of index 26 is added. -/
theorem right_fails : ¬ ∀ (size nMax : ℕ) (x : ℚ), 0 < size → Right size nMax x := by
  intro right
  exact one_ne_zero (right_one_iff.mp (right 1 25 1 Nat.one_pos))

end SphereMultithreading.Soundness.P10
