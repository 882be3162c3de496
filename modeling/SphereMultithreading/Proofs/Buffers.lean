import SphereMultithreading.Model.Buffers
import SphereMultithreading.Proofs.Stdio

/-! # When the writes are inside

What is received needs one byte more than there are, and so does a string that is stored. The texts of the
replies with numbers are short, as the numbers are those of `int`.
-/

namespace SphereMultithreading.Model.Buffers

open Machine.Arrays Scanf Stdio

variable {n : ℕ} {text : Text}

theorem cString_terminated (text rest : Text) : cString (text ++ '\x00' :: rest) = cString text := by
  rw [cString, List.takeWhile_append, cString]
  split
  · next whole => rw [List.takeWhile_cons_of_neg (by simp), List.append_nil, ← cString, ← take_strlen,
      strlen, cString, whole, List.take_length]
  · rfl

theorem isSome_store_iff (a : Vector Char n) (text : Text) : (store a text).isSome ↔ text.length < n := by
  rw [store, isSome_writes_iff a (by simp), List.length_append, List.length_singleton]
  omega

theorem store_of_lt (a : Vector Char n) (room : text.length < n) :
    ∃ b, store a text = some b ∧ string b = cString text := by
  have fits : 0 + (text ++ ['\x00']).length ≤ n := by
    rw [List.length_append, List.length_singleton]
    omega
  obtain ⟨b, stored, whole⟩ := writes_of_fits a fits
  refine ⟨b, stored, ?_⟩
  rw [string, whole, List.take_zero, List.nil_append, List.append_assoc, List.singleton_append,
    cString_terminated]

/-- The bytes received become a string. -/
theorem receive_eq_store (buffer : Vector Char n) (chunk : Chunk) :
    receive buffer chunk = store buffer chunk.text := by
  simp [receive, store, writes_append, writes]

/-- The first word and its terminator have room in an array of the size. -/
def WordFits (size : ℕ) (text : Text) : Prop :=
  ∀ word rest, scanWord text = some (word, rest) → word.length < size

theorem isSome_scanString_iff (a : Vector Char n) (text : Text) :
    (scanString a text).isSome ↔ WordFits n text := by
  rw [scanString]
  split
  · next scanned => exact iff_of_true rfl fun word rest other => by simp [scanned] at other
  · next word rest scanned =>
    rw [isSome_store_iff]
    constructor
    · intro short word' rest' scanned'
      rw [scanned] at scanned'
      obtain ⟨rfl, rfl⟩ := Prod.mk.inj (Option.some.inj scanned')
      exact short
    · intro fits
      exact fits word rest scanned

end SphereMultithreading.Model.Buffers

/-! ## Texts with numbers -/

namespace SphereMultithreading.Model

/-- Ten digits and a sign. -/
theorem length_toString_int32 (k : Int32) : (toString k.toInt).toList.length ≤ 11 := by
  have low := Int32.le_toInt k
  have high := Int32.toInt_lt k
  rw [String.length_toList]
  generalize k.toInt = z at low high
  cases z with
  | ofNat m =>
    have digits : m.repr.length ≤ 10 := by
      apply (Nat.length_repr_le_iff (by decide)).mpr
      simp only [Int.ofNat_eq_natCast] at high
      omega
    have text : toString (Int.ofNat m) = m.repr := rfl
    rw [text]
    omega
  | negSucc m =>
    have digits : (m + 1).repr.length ≤ 10 := by
      apply (Nat.length_repr_le_iff (by decide)).mpr
      omega
    have text : toString (Int.negSucc m) = "-" ++ (m + 1).repr := rfl
    have sign : "-".length = 1 := rfl
    rw [text, String.length_append]
    omega

theorem P5.length_processMessageFromWorker (msg : P5.Message) (key value : Int32)
    (known : msg.err ≤ 2) (buffer : Scanf.Text) :
    (P5.processMessageFromWorker { msg with key := key.toInt, value := value.toInt } buffer).length ≤
      64 := by
  have keyDigits := length_toString_int32 key
  have valueDigits := length_toString_int32 value
  rw [P5.processMessageFromWorker]
  generalize toString key.toInt = key at *
  generalize toString value.toInt = value at *
  split
  · split
    · simp
      omega
    · decide
  · simp
    omega
  · decide
  · next none one two =>
    have other : msg.err ≠ 0 ∧ msg.err ≠ 1 ∧ msg.err ≠ 2 := ⟨none, one, two⟩
    omega

theorem P6.length_answer (query : P6.Query) (int : ℤ → Int32)
    (reply : Except P6.HashTableError (Option Int32)) :
    ((query.stored int).answer (reply.map fun value => value.map Int32.toInt)).toList.length ≤ 64 := by
  have keyDigits := length_toString_int32 (int query.key)
  cases reply with
  | error err =>
    obtain ⟨type, message⟩ := err
    simp only [P6.Query.answer, P6.Query.stored, Except.map]
    generalize toString (int query.key).toInt = key at *
    cases type <;> simp <;> omega
  | ok value =>
    have valueDigits := length_toString_int32 (value.getD (int query.value))
    have same : (value.map Int32.toInt).getD (int query.value).toInt =
        (value.getD (int query.value)).toInt := by
      cases value <;> rfl
    simp only [P6.Query.answer, P6.Query.stored, Except.map, same]
    generalize toString (int query.key).toInt = key at *
    generalize toString (value.getD (int query.value)).toInt = value at *
    split
    · simp
      omega
    · decide

end SphereMultithreading.Model
