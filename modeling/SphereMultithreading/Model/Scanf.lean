import Mathlib

/-! # The conversions of `sscanf`

The servers read a command from their buffer with the conversions `%s` and `%d`. Each skips white
space first and reports what it read and the rest of the text. A text is the bytes of the buffer up
to the terminating zero byte.
-/

namespace SphereMultithreading.Model.Scanf

abbrev Text := List Char

/-- `isspace` of the C locale. -/
def isSpace (c : Char) : Bool := c ∈ [' ', '\t', '\n', '\x0b', '\x0c', '\r']

def skipSpace (text : Text) : Text := text.dropWhile isSpace

/-- `%s`: a longest word of characters that are not white space. -/
def scanWord (text : Text) : Option (Text × Text) :=
  match skipSpace text with
  | [] => none
  | c :: rest => some ((c :: rest).span fun c => !isSpace c)

/-- The value of a string of decimal digits. -/
def digitsValue (digits : Text) : ℕ :=
  digits.foldl (fun n c => 10 * n + (c.toNat - '0'.toNat)) 0

/-- The digits of `%d`, after the sign. -/
def scanDigits (text : Text) : Option (ℕ × Text) :=
  match text.span Char.isDigit with
  | ([], _) => none
  | (digits, rest) => some (digitsValue digits, rest)

/-- `%d`: an optional sign and at least one digit. A number that does not fit in `int` is undefined
in C; here it is the number itself. -/
def scanInt (text : Text) : Option (ℤ × Text) :=
  match skipSpace text with
  | '-' :: rest => (scanDigits rest).map fun (n, rest) => (-n, rest)
  | '+' :: rest => (scanDigits rest).map fun (n, rest) => (n, rest)
  | rest => (scanDigits rest).map fun (n, rest) => (n, rest)

/-- A format of `n` conversions `%d`, which stops at the first that fails. -/
def scanInts : ℕ → Text → List ℤ
  | 0, _ => []
  | n + 1, text =>
      match scanInt text with
      | none => []
      | some (k, rest) => k :: scanInts n rest

/-- `sscanf` with a word and then `n` numbers; `none` when the text ends before the word. -/
def scanCommand (n : ℕ) (text : Text) : Option (Text × List ℤ) :=
  (scanWord (text.takeWhile (· ≠ '\x00'))).map fun (cmd, rest) => (cmd, scanInts n rest)

end SphereMultithreading.Model.Scanf
