import SphereMultithreading.Model.Scanf

/-! # What the conversions read

The conversions skip white space before what they read and stop at white space behind it, so a text
is scanned alike with white space around it. A conversion that succeeds has read a word or a numeral,
and a word or a numeral is read as it stands.
-/

namespace SphereMultithreading.Model.Scanf

/-- Nothing but white space. -/
def White (text : Text) : Prop := ∀ c ∈ text, isSpace c = true

variable {text before after : Text}

theorem skipSpace_append (white : White before) (text : Text) :
    skipSpace (before ++ text) = skipSpace text :=
  List.dropWhile_append_of_pos white

theorem skipSpace_white (white : White text) : skipSpace text = [] :=
  List.dropWhile_eq_nil_iff.mpr white

/-- What stands behind a text stays behind what is left of it. -/
theorem skipSpace_append_right {c : Char} {rest : Text} (skipped : skipSpace text = c :: rest)
    (after : Text) : skipSpace (text ++ after) = c :: (rest ++ after) := by
  rw [skipSpace] at skipped ⊢
  induction text with
  | nil => cases skipped
  | cons d text ih =>
    rw [List.cons_append]
    by_cases space : isSpace d = true
    · rw [List.dropWhile_cons_of_pos space] at skipped ⊢
      exact ih skipped
    · rw [List.dropWhile_cons_of_neg space] at skipped ⊢
      cases skipped
      rfl

theorem skipSpace_eq_nil (white : White after) (skipped : skipSpace text = []) :
    skipSpace (text ++ after) = [] := by
  rw [skipSpace_append (List.dropWhile_eq_nil_iff.mp skipped), skipSpace_white white]

/-- A span that white space ends. -/
theorem span_append_white {p : Char → Bool} (ends : ∀ c, isSpace c = true → p c = false)
    (white : White after) (text : Text) :
    (text ++ after).span p = ((text.span p).1, (text.span p).2 ++ after) := by
  simp only [List.span_eq_takeWhile_dropWhile]
  induction text with
  | nil =>
    cases after with
    | nil => rfl
    | cons c rest =>
      have stops : p c = false := ends c (white c (List.mem_cons_self ..))
      simp [stops]
  | cons d text ih =>
    by_cases goesOn : p d = true
    · rw [List.cons_append, List.takeWhile_cons_of_pos goesOn, List.dropWhile_cons_of_pos goesOn,
        List.takeWhile_cons_of_pos goesOn, List.dropWhile_cons_of_pos goesOn]
      obtain ⟨taken, dropped⟩ := Prod.mk.inj ih
      rw [taken, dropped]
    · rw [List.cons_append, List.takeWhile_cons_of_neg goesOn, List.dropWhile_cons_of_neg goesOn,
        List.takeWhile_cons_of_neg goesOn, List.dropWhile_cons_of_neg goesOn]
      rfl

theorem scanWord_append_white (white : White after) (text : Text) :
    scanWord (text ++ after) = (scanWord text).map fun (word, rest) => (word, rest ++ after) := by
  rw [scanWord, scanWord]
  cases skipped : skipSpace text with
  | nil => rw [skipSpace_eq_nil white skipped]; rfl
  | cons c rest =>
    rw [skipSpace_append_right skipped after]
    dsimp only
    rw [← List.cons_append, span_append_white (by simp) white]
    rfl

theorem not_isDigit_of_isSpace {c : Char} (space : isSpace c = true) : c.isDigit = false := by
  have cases : c ∈ [' ', '\t', '\n', '\x0b', '\x0c', '\r'] := by simpa [isSpace] using space
  fin_cases cases <;> rfl

theorem scanDigits_append_white (white : White after) (text : Text) :
    scanDigits (text ++ after) = (scanDigits text).map fun (n, rest) => (n, rest ++ after) := by
  rw [scanDigits, scanDigits, span_append_white (fun _ => not_isDigit_of_isSpace) white]
  obtain ⟨digits, rest⟩ := text.span Char.isDigit
  cases digits <;> rfl

/-- A number without a sign. -/
theorem scanInt_unsigned {c : Char} {rest : Text} (skipped : skipSpace text = c :: rest)
    (minus : c ≠ '-') (plus : c ≠ '+') :
    scanInt text = (scanDigits (c :: rest)).map fun (n, rest) => ((n : ℤ), rest) := by
  rw [scanInt, skipped]
  split
  · next same => exact absurd (List.cons.inj same).1 minus
  · next same => exact absurd (List.cons.inj same).1 plus
  · rfl

theorem scanInt_append_white (white : White after) (text : Text) :
    scanInt (text ++ after) = (scanInt text).map fun (k, rest) => (k, rest ++ after) := by
  cases skipped : skipSpace text with
  | nil =>
    rw [scanInt, scanInt, skipped, skipSpace_eq_nil white skipped]
    rfl
  | cons c rest =>
    have skipped' := skipSpace_append_right skipped after
    by_cases minus : c = '-'
    · subst minus
      simp only [scanInt, skipped, skipped', scanDigits_append_white white, Option.map_map]
      rfl
    · by_cases plus : c = '+'
      · subst plus
        simp only [scanInt, skipped, skipped', scanDigits_append_white white, Option.map_map]
        rfl
      · rw [scanInt_unsigned skipped minus plus, scanInt_unsigned skipped' minus plus,
          ← List.cons_append, scanDigits_append_white white, Option.map_map, Option.map_map]
        rfl

theorem scanInts_append_white (white : White after) (n : ℕ) (text : Text) :
    scanInts n (text ++ after) = scanInts n text := by
  induction n generalizing text with
  | zero => rfl
  | succ n ih =>
    rw [scanInts, scanInts, scanInt_append_white white]
    cases scanInt text with
    | none => rfl
    | some pair => exact congrArg (pair.1 :: ·) (ih pair.2)

/-- White space before and behind a text changes nothing. -/
theorem scanCommand_white (whiteBefore : White before) (whiteAfter : White after) (n : ℕ)
    (text : Text) : scanCommand n (before ++ text ++ after) = scanCommand n text := by
  have noZero {c : Char} (space : isSpace c = true) : c ≠ '\x00' := by
    rintro rfl
    cases space
  have cut : ∃ rest, White rest ∧ (before ++ text ++ after).takeWhile (· ≠ '\x00') =
      before ++ (text.takeWhile (· ≠ '\x00') ++ rest) := by
    rw [List.append_assoc, List.takeWhile_append_of_pos fun c member => by
      simpa using noZero (whiteBefore c member)]
    by_cases whole : ∀ c ∈ text, c ≠ '\x00'
    · refine ⟨after, whiteAfter, ?_⟩
      rw [List.takeWhile_append_of_pos fun c member => by simpa using whole c member]
      simp only [ne_eq, decide_not]
      rw [List.takeWhile_eq_self_iff.mpr fun c member => by
          simpa using noZero (whiteAfter c member),
        List.takeWhile_eq_self_iff.mpr fun c member => by simpa using whole c member]
    · refine ⟨[], fun c member => absurd member List.not_mem_nil, ?_⟩
      push Not at whole
      obtain ⟨c, member, rfl⟩ := whole
      rw [List.takeWhile_append, if_neg, List.append_nil]
      intro all
      have kept := List.takeWhile_eq_self_iff.mp
        ((List.takeWhile_prefix _).eq_of_length all) '\x00' member
      simp at kept
  obtain ⟨rest, white, cut⟩ := cut
  rw [scanCommand, scanCommand, cut, scanWord, skipSpace_append whiteBefore, ← scanWord,
    scanWord_append_white white, Option.map_map]
  cases scanWord (text.takeWhile (· ≠ '\x00')) with
  | none => rfl
  | some pair => exact congrArg (fun args => some (pair.1, args)) (scanInts_append_white white ..)

/-! ## Words and numerals -/

/-- The rest of a text begins with no character of this kind. -/
def Ends (p : Char → Bool) (text : Text) : Prop := ∀ c ∈ text.head?, p c = false

/-- A span takes what it can and stops. -/
theorem span_append_ends {p : Char → Bool} {taken rest : Text} (all : ∀ c ∈ taken, p c = true)
    (ends : Ends p rest) : (taken ++ rest).span p = (taken, rest) := by
  rw [List.span_eq_takeWhile_dropWhile, List.takeWhile_append_of_pos all,
    List.dropWhile_append_of_pos all]
  cases rest with
  | nil => simp
  | cons c rest =>
    have stops : p c = false := ends c rfl
    simp [stops]

theorem ends_dropWhile (p : Char → Bool) (text : Text) : Ends p (text.dropWhile p) := by
  intro c first
  have stops := List.head?_dropWhile_not p text
  rw [first] at stops
  simpa using stops

theorem span_eq {p : Char → Bool} {taken rest : Text} (cut : text.span p = (taken, rest)) :
    text = taken ++ rest ∧ (∀ c ∈ taken, p c = true) ∧ Ends p rest := by
  rw [List.span_eq_takeWhile_dropWhile] at cut
  obtain ⟨rfl, rfl⟩ := Prod.mk.inj cut
  exact ⟨List.takeWhile_append_dropWhile.symm, List.all_eq_true.mp List.all_takeWhile,
    ends_dropWhile p text⟩

/-- A word stands behind white space, up to white space. -/
theorem scanWord_eq_some {word rest : Text} (scanned : scanWord text = some (word, rest)) :
    ∃ gap, White gap ∧ text = gap ++ (word ++ rest) ∧ word ≠ [] ∧
      (∀ c ∈ word, isSpace c = false) ∧ Ends (fun c => !isSpace c) rest := by
  have split : text = text.takeWhile isSpace ++ skipSpace text :=
    List.takeWhile_append_dropWhile.symm
  rw [scanWord] at scanned
  cases skipped : skipSpace text with
  | nil => simp [skipped] at scanned
  | cons c left =>
    rw [skipped] at scanned
    obtain ⟨whole, all, ends⟩ := span_eq (Option.some.inj scanned)
    refine ⟨text.takeWhile isSpace, List.all_eq_true.mp List.all_takeWhile, ?_, ?_, ?_, ends⟩
    · rw [← whole, ← skipped]
      exact split
    · rintro rfl
      have space : (!isSpace c) = false := ends c (by rw [← List.nil_append rest, ← whole]; rfl)
      have noSpace : isSpace c = false := ends_dropWhile isSpace text c (by
        rw [← skipSpace, skipped]; rfl)
      simp [noSpace] at space
    · intro c member
      simpa using all c member

theorem scanWord_append {word rest : Text} (nonempty : word ≠ [])
    (letters : ∀ c ∈ word, isSpace c = false) (ends : Ends (fun c => !isSpace c) rest) :
    scanWord (word ++ rest) = some (word, rest) := by
  obtain ⟨c, left, rfl⟩ := List.exists_cons_of_ne_nil nonempty
  have skipped : skipSpace (c :: left ++ rest) = c :: (left ++ rest) :=
    List.dropWhile_cons_of_neg (by simp [letters c (List.mem_cons_self ..)])
  rw [scanWord, skipped]
  dsimp only
  rw [← List.cons_append, span_append_ends (by simpa using letters) ends]

/-- White space or a sign, and then digits: they cannot be read as digits of what stands before. -/
def Numeral (text : Text) : Prop :=
  ∃ gap sign digits, text = gap ++ (sign ++ digits) ∧ White gap ∧
    (sign = [] ∨ sign = ['-'] ∨ sign = ['+']) ∧ gap ++ sign ≠ [] ∧ digits ≠ [] ∧
    ∀ c ∈ digits, c.isDigit = true

theorem scanDigits_append {digits rest : Text} (nonempty : digits ≠ [])
    (all : ∀ c ∈ digits, c.isDigit = true) (ends : Ends Char.isDigit rest) :
    scanDigits (digits ++ rest) = some (digitsValue digits, rest) := by
  rw [scanDigits, span_append_ends all ends]
  obtain ⟨d, left, rfl⟩ := List.exists_cons_of_ne_nil nonempty
  rfl

theorem scanDigits_eq_some {n : ℕ} {rest : Text} (scanned : scanDigits text = some (n, rest)) :
    ∃ digits, text = digits ++ rest ∧ digits ≠ [] ∧ (∀ c ∈ digits, c.isDigit = true) ∧
      n = digitsValue digits ∧ Ends Char.isDigit rest := by
  rw [scanDigits] at scanned
  cases cut : text.span Char.isDigit with
  | mk digits left =>
    obtain ⟨whole, all, ends⟩ := span_eq cut
    rw [cut] at scanned
    cases digits with
    | nil => cases scanned
    | cons d digits =>
      cases scanned
      exact ⟨d :: digits, whole, by simp, all, rfl, ends⟩

theorem not_isSpace_of_isDigit {c : Char} (digit : c.isDigit = true) : isSpace c = false := by
  by_contra space
  rw [not_isDigit_of_isSpace (by simpa using space)] at digit
  cases digit

/-- An optional sign and decimal digits, with their value. -/
def Decimal (k : ℤ) (number : Text) : Prop :=
  ∃ sign digits, number = sign ++ digits ∧ digits ≠ [] ∧ (∀ c ∈ digits, c.isDigit = true) ∧
    ((sign = [] ∨ sign = ['+']) ∧ k = digitsValue digits ∨ sign = ['-'] ∧ k = -digitsValue digits)

/-- A number is read as it stands. -/
theorem scanInt_decimal {k : ℤ} {gap number rest : Text} (white : White gap)
    (decimal : Decimal k number) (ends : Ends Char.isDigit rest) :
    scanInt (gap ++ (number ++ rest)) = some (k, rest) := by
  obtain ⟨sign, digits, rfl, nonempty, all, signs⟩ := decimal
  have scanned := scanDigits_append nonempty all ends
  have skipped (text : Text) : skipSpace (gap ++ text) = skipSpace text := skipSpace_append white text
  rw [List.append_assoc]
  rcases signs with ⟨rfl | rfl, rfl⟩ | ⟨rfl, rfl⟩
  · obtain ⟨d, left, rfl⟩ := List.exists_cons_of_ne_nil nonempty
    have digit : d.isDigit = true := all d (List.mem_cons_self ..)
    have head : skipSpace (gap ++ ([] ++ (d :: left ++ rest))) = d :: (left ++ rest) := by
      rw [skipped]
      exact List.dropWhile_cons_of_neg (by simp [not_isSpace_of_isDigit digit])
    rw [scanInt_unsigned head (by rintro rfl; cases digit) (by rintro rfl; cases digit),
      ← List.cons_append, scanned]
    rfl
  · have head : skipSpace (gap ++ (['+'] ++ (digits ++ rest))) = '+' :: (digits ++ rest) :=
      (skipped _).trans rfl
    simp only [scanInt, head, scanned]
    rfl
  · have head : skipSpace (gap ++ (['-'] ++ (digits ++ rest))) = '-' :: (digits ++ rest) :=
      (skipped _).trans rfl
    simp only [scanInt, head, scanned]
    rfl

/-- What is read as a number stands behind white space, if anything. -/
theorem decimal_of_scanInt {k : ℤ} {rest : Text} (scanned : scanInt text = some (k, rest)) :
    ∃ gap number, text = gap ++ (number ++ rest) ∧ White gap ∧ Decimal k number ∧
      Ends Char.isDigit rest := by
  have white : White (text.takeWhile isSpace) := List.all_eq_true.mp List.all_takeWhile
  have split : text = text.takeWhile isSpace ++ skipSpace text :=
    List.takeWhile_append_dropWhile.symm
  cases skipped : skipSpace text with
  | nil =>
    rw [scanInt, skipped] at scanned
    cases scanned
  | cons c left =>
    rw [skipped] at split
    by_cases minus : c = '-'
    · subst minus
      rw [scanInt, skipped] at scanned
      obtain ⟨⟨n, rest'⟩, read, same⟩ := Option.map_eq_some_iff.mp scanned
      cases same
      obtain ⟨digits, rfl, nonempty, all, value, ends⟩ := scanDigits_eq_some read
      exact ⟨_, '-' :: digits, split, white,
        ⟨['-'], digits, rfl, nonempty, all, .inr ⟨rfl, by rw [value]⟩⟩, ends⟩
    · by_cases plus : c = '+'
      · subst plus
        rw [scanInt, skipped] at scanned
        obtain ⟨⟨n, rest'⟩, read, same⟩ := Option.map_eq_some_iff.mp scanned
        cases same
        obtain ⟨digits, rfl, nonempty, all, value, ends⟩ := scanDigits_eq_some read
        exact ⟨_, '+' :: digits, split, white,
          ⟨['+'], digits, rfl, nonempty, all, .inl ⟨.inr rfl, by rw [value]⟩⟩, ends⟩
      · rw [scanInt_unsigned skipped minus plus] at scanned
        obtain ⟨⟨n, rest'⟩, read, same⟩ := Option.map_eq_some_iff.mp scanned
        cases same
        obtain ⟨digits, whole, nonempty, all, value, ends⟩ := scanDigits_eq_some read
        rw [whole] at split
        exact ⟨_, digits, split, white,
          ⟨[], digits, rfl, nonempty, all, .inl ⟨.inl rfl, by rw [value]⟩⟩, ends⟩

theorem White.ends_isDigit (white : White text) : Ends Char.isDigit text := by
  cases text with
  | nil => rintro c ⟨⟩
  | cons d text =>
    rintro c ⟨⟩
    exact not_isDigit_of_isSpace (white _ (List.mem_cons_self ..))

theorem scanInt_white (white : White text) : scanInt text = none := by
  rw [scanInt, skipSpace_white white]
  rfl

/-- A number begins with no white space. -/
theorem Decimal.ends_isSpace {k : ℤ} {number : Text} (decimal : Decimal k number) (rest : Text) :
    Ends isSpace (number ++ rest) := by
  obtain ⟨sign, digits, rfl, nonempty, all, signs⟩ := decimal
  intro c first
  rcases signs with ⟨rfl | rfl, -⟩ | ⟨rfl, -⟩
  · obtain ⟨d, left, rfl⟩ := List.exists_cons_of_ne_nil nonempty
    cases first
    exact not_isSpace_of_isDigit (all _ (List.mem_cons_self ..))
  · cases first
    rfl
  · cases first
    rfl

theorem scanInt_append {a rest : Text} (numeral : Numeral a) (ends : Ends Char.isDigit rest) :
    ∃ k, scanInt (a ++ rest) = some (k, rest) := by
  obtain ⟨gap, sign, digits, rfl, white, signs, -, nonempty, all⟩ := numeral
  have decimal : ∃ k, Decimal k (sign ++ digits) := by
    rcases signs with rfl | rfl | rfl
    · exact ⟨_, [], digits, rfl, nonempty, all, .inl ⟨.inl rfl, rfl⟩⟩
    · exact ⟨_, ['-'], digits, rfl, nonempty, all, .inr ⟨rfl, rfl⟩⟩
    · exact ⟨_, ['+'], digits, rfl, nonempty, all, .inl ⟨.inr rfl, rfl⟩⟩
  obtain ⟨k, decimal⟩ := decimal
  refine ⟨k, ?_⟩
  rw [List.append_assoc]
  exact scanInt_decimal white decimal ends

/-- Behind a word or a number, what is read as a number is a numeral. -/
theorem scanInt_eq_some {k : ℤ} {rest : Text} (scanned : scanInt text = some (k, rest))
    (start : Ends Char.isDigit text) :
    ∃ a, Numeral a ∧ text = a ++ rest ∧ Ends Char.isDigit rest := by
  obtain ⟨gap, number, whole, white, ⟨sign, digits, rfl, nonempty, all, signs⟩, ends⟩ :=
    decimal_of_scanInt scanned
  refine ⟨gap ++ (sign ++ digits), ⟨gap, sign, digits, rfl, white, ?_, ?_, nonempty, all⟩, ?_, ends⟩
  · rcases signs with ⟨rfl | rfl, -⟩ | ⟨rfl, -⟩
    · exact .inl rfl
    · exact .inr (.inr rfl)
    · exact .inr (.inl rfl)
  · -- without a gap and a sign the text would begin with a digit
    intro bare
    obtain ⟨rfl, rfl⟩ := List.append_eq_nil_iff.mp bare
    obtain ⟨d, others, rfl⟩ := List.exists_cons_of_ne_nil nonempty
    have digit := all d (List.mem_cons_self ..)
    rw [start d (by rw [whole]; rfl)] at digit
    cases digit
  · exact whole.trans (List.append_assoc ..).symm

/-- `n` numerals in a row. -/
inductive Numerals : ℕ → Text → Prop where
  | nil : Numerals 0 []
  | cons {n : ℕ} {a rest : Text} : Numeral a → Numerals n rest → Numerals (n + 1) (a ++ rest)

theorem Numeral.ends {a : Text} (numeral : Numeral a) (rest : Text) :
    Ends Char.isDigit (a ++ rest) := by
  obtain ⟨gap, sign, digits, rfl, white, signs, apart, -, -⟩ := numeral
  intro c first
  cases gap with
  | nil =>
    rcases signs with rfl | rfl | rfl
    · exact absurd rfl apart
    · cases first; rfl
    · cases first; rfl
  | cons d gap =>
    cases first
    exact not_isDigit_of_isSpace (white _ (List.mem_cons_self ..))

theorem Numerals.ends {n : ℕ} {args : Text} (numerals : Numerals n args) :
    Ends Char.isDigit args := by
  cases numerals with
  | nil => exact fun c none => by cases none
  | cons numeral rest => exact numeral.ends _

theorem Numeral.noZero {a : Text} (numeral : Numeral a) : ∀ c ∈ a, c ≠ '\x00' := by
  obtain ⟨gap, sign, digits, rfl, white, signs, -, -, all⟩ := numeral
  rintro c member rfl
  rcases List.mem_append.mp member with inGap | inNumber
  · cases white _ inGap
  · rcases List.mem_append.mp inNumber with inSign | inDigits
    · rcases signs with rfl | rfl | rfl <;> simp at inSign
    · cases all _ inDigits

theorem White.noZero (white : White text) : '\x00' ∉ text := fun zero => by
  cases white _ zero

theorem Decimal.noZero {k : ℤ} {number : Text} (decimal : Decimal k number) : '\x00' ∉ number := by
  obtain ⟨sign, digits, rfl, -, all, signs⟩ := decimal
  intro zero
  rcases List.mem_append.mp zero with inSign | inDigits
  · rcases signs with ⟨rfl | rfl, -⟩ | ⟨rfl, -⟩ <;> simp at inSign
  · cases all _ inDigits

theorem Numerals.noZero {n : ℕ} {args : Text} (numerals : Numerals n args) :
    ∀ c ∈ args, c ≠ '\x00' := by
  induction numerals with
  | nil => simp
  | cons numeral _ ih =>
    intro c member
    rcases List.mem_append.mp member with first | others
    · exact numeral.noZero c first
    · exact ih c others

theorem scanInts_numerals {n : ℕ} {args : Text} (numerals : Numerals n args) {m : ℕ} (le : n ≤ m) :
    (scanInts m args).length = n := by
  induction numerals generalizing m with
  | nil => cases m <;> rfl
  | @cons n a rest numeral numerals ih =>
    obtain ⟨m, rfl⟩ : ∃ k, m = k + 1 := ⟨m - 1, by omega⟩
    obtain ⟨k, scanned⟩ := scanInt_append numeral numerals.ends
    rw [scanInts, scanned]
    exact congrArg (· + 1) (ih (by omega))

theorem exists_numerals {m : ℕ} (start : Ends Char.isDigit text) :
    ∃ args rest, Numerals (scanInts m text).length args ∧ text = args ++ rest := by
  induction m generalizing text with
  | zero => exact ⟨[], text, .nil, rfl⟩
  | succ m ih =>
    rw [scanInts]
    cases scanned : scanInt text with
    | none => exact ⟨[], text, .nil, rfl⟩
    | some pair =>
      obtain ⟨a, numeral, whole, ends⟩ := scanInt_eq_some scanned start
      obtain ⟨args, rest, numerals, whole'⟩ := ih ends
      refine ⟨a ++ args, rest, .cons numeral numerals, ?_⟩
      rw [whole, whole', List.append_assoc]

end SphereMultithreading.Model.Scanf
