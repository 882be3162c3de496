import SphereMultithreading.Model.P5.Message
import SphereMultithreading.Model.P6.Worker
import SphereMultithreading.Proofs.Scanf
import SphereMultithreading.Proofs.Stdio

/-! # The lines the parsers of p5 and p6 accept

A command is known from its word and from the number of conversions that `sscanf` has made. What it made
none of is not looked at: text behind the last number, and the white space between two numbers, which may
be missing before a sign.
-/

namespace SphereMultithreading.Soundness.Grammar

open Model Model.Scanf Model.Stdio

/-- Integers, each behind white space. -/
inductive Integers : List ℤ → Text → Prop where
  | nil : Integers [] []
  | cons {k : ℤ} {ks : List ℤ} {gap number rest : Text} : White gap → gap ≠ [] → Decimal k number →
      Integers ks rest → Integers (k :: ks) (gap ++ (number ++ rest))

/-- A line that consists of a word and integers. -/
def Line (word : Text) (ks : List ℤ) (line : Text) : Prop :=
  ∃ before args after, line = before ++ (word ++ (args ++ after)) ∧ White before ∧ Integers ks args ∧
    White after

/-- What a parser finds: it returns 0, -1 and 1 for these. -/
inductive Verdict (γ : Type) where
  | blank
  | wrong
  | command (call : γ)

/-- A parser accepts the lines that spell a command, and reads the command that is written; of the others it
tells the blank ones. -/
structure Exact {γ : Type} (verdict : Verdict γ) (Spells : γ → Text → Prop) (line : Text) : Prop where
  command : ∀ call, verdict = .command call ↔ Spells call line
  blank : verdict = .blank ↔ White line
  wrong : verdict = .wrong ↔ ¬ White line ∧ ∀ call, ¬ Spells call line

/-- Each of the first `n` numbers stands behind white space, and white space alone behind them. -/
def Tidy : ℕ → Text → Prop
  | 0, text => White text
  | n + 1, text =>
      match scanInt text with
      | none => White text
      | some (_, rest) => (∃ c ∈ text.head?, isSpace c = true) ∧ Tidy n rest

/-- If the line begins with one of these words and as many numbers as it takes, no more of them up to the `n`
that are looked for, then the numbers stand behind white space and nothing behind them. -/
def Strict (n : ℕ) (words : List (Text × ℕ)) (line : Text) : Prop :=
  ∀ word rest, scanWord line = some (word, rest) → (word, (scanInts n rest).length) ∈ words → Tidy n rest

/-! ## Numbers -/

variable {text line word rest : Text} {n : ℕ} {ks : List ℤ}

theorem Integers.ends_isDigit (integers : Integers ks text) {after : Text} (white : White after) :
    Ends Char.isDigit (text ++ after) := by
  cases integers with
  | nil => exact white.ends_isDigit
  | cons gapWhite nonempty _ _ =>
    obtain ⟨c, gap, rfl⟩ := List.exists_cons_of_ne_nil nonempty
    rintro d ⟨⟩
    exact not_isDigit_of_isSpace (gapWhite _ (List.mem_cons_self ..))

/-- Integers behind white space and nothing behind them are what is read of a tidy text. -/
theorem integers_iff (few : ks.length ≤ n) :
    (∃ args after, text = args ++ after ∧ Integers ks args ∧ White after) ↔
      scanInts n text = ks ∧ Tidy n text := by
  induction n generalizing ks text with
  | zero =>
    obtain rfl := List.length_eq_zero_iff.mp (Nat.le_zero.mp few)
    constructor
    · rintro ⟨args, after, rfl, integers, white⟩
      cases integers
      exact ⟨rfl, white⟩
    · exact fun tidy => ⟨[], text, rfl, .nil, tidy.2⟩
  | succ n ih =>
    rw [scanInts, Tidy]
    constructor
    · rintro ⟨args, after, rfl, integers, white⟩
      cases integers with
      | nil =>
        rw [List.nil_append, scanInt_white white]
        exact ⟨rfl, white⟩
      | @cons k ks gap number rest gapWhite nonempty decimal others =>
        obtain ⟨read, tidy⟩ :=
          (ih (Nat.le_of_succ_le_succ few)).mp ⟨rest, after, rfl, others, white⟩
        rw [List.append_assoc, List.append_assoc,
          scanInt_decimal gapWhite decimal (others.ends_isDigit white)]
        obtain ⟨c, gap, rfl⟩ := List.exists_cons_of_ne_nil nonempty
        exact ⟨congrArg (k :: ·) read, ⟨c, rfl, gapWhite _ (List.mem_cons_self ..)⟩, tidy⟩
    · cases scanned : scanInt text with
      | none =>
        rintro ⟨rfl, white⟩
        exact ⟨[], text, rfl, .nil, white⟩
      | some pair =>
        obtain ⟨k, rest⟩ := pair
        rintro ⟨rfl, ⟨c, first, space⟩, tidy⟩
        obtain ⟨args, after, rfl, others, white⟩ :=
          (ih (Nat.le_of_succ_le_succ few)).mpr ⟨rfl, tidy⟩
        obtain ⟨gap, number, rfl, gapWhite, decimal, -⟩ := decimal_of_scanInt scanned
        refine ⟨gap ++ (number ++ args), after, by simp, .cons gapWhite ?_ decimal others, white⟩
        rintro rfl
        rw [decimal.ends_isSpace (args ++ after) c first] at space
        cases space

/-! ## Lines -/

/-- A word as it is compared with: characters that are not white space. -/
def Word (word : Text) : Prop := word ≠ [] ∧ ∀ c ∈ word, isSpace c = false

theorem line_iff (proper : Word word) (few : ks.length ≤ n) :
    Line word ks line ↔ ∃ rest, scanWord line = some (word, rest) ∧ scanInts n rest = ks ∧ Tidy n rest := by
  constructor
  · rintro ⟨before, args, after, rfl, whiteBefore, integers, white⟩
    refine ⟨args ++ after, ?_, (integers_iff few).mp ⟨args, after, rfl, integers, white⟩⟩
    have ends : Ends (fun c => !isSpace c) (args ++ after) := by
      intro c first
      cases integers with
      | nil =>
        have space := white c (List.mem_of_mem_head? first)
        simp [space]
      | cons gapWhite nonempty _ _ =>
        obtain ⟨d, gap, rfl⟩ := List.exists_cons_of_ne_nil nonempty
        cases first
        have space := gapWhite _ (List.mem_cons_self ..)
        simp [space]
    rw [scanWord, skipSpace_append whiteBefore, ← scanWord]
    exact scanWord_append proper.1 proper.2 ends
  · rintro ⟨rest, scanned, read, tidy⟩
    obtain ⟨gap, whiteGap, rfl, -, -, -⟩ := scanWord_eq_some scanned
    obtain ⟨args, after, rfl, integers, white⟩ := (integers_iff few).mpr ⟨read, tidy⟩
    exact ⟨gap, args, after, rfl, whiteGap, integers, white⟩

theorem Integers.noZero (integers : Integers ks text) : '\x00' ∉ text := by
  induction integers with
  | nil => simp
  | cons white _ decimal _ ih => simp [White.noZero white, Decimal.noZero decimal, ih]

theorem Line.noZero (spells : Line word ks line) (clean : '\x00' ∉ word) : '\x00' ∉ line := by
  obtain ⟨before, args, after, rfl, whiteBefore, integers, whiteAfter⟩ := spells
  simp [White.noZero whiteBefore, integers.noZero, White.noZero whiteAfter, clean]

theorem scanWord_eq_none_iff : scanWord line = none ↔ White line := by
  rw [scanWord]
  constructor
  · intro none
    split at none
    · next skipped => exact List.dropWhile_eq_nil_iff.mp skipped
    · cases none
  · intro white
    rw [skipSpace_white white]

/-- A parser that goes by the word and the number of conversions is exact on the strict lines only. -/
theorem exact_iff {γ : Type} {verdict : Verdict γ} {words : List (Text × ℕ)} {word : γ → Text}
    {args : γ → List ℤ} (proper : ∀ call, Word (word call)) (few : ∀ call, (args call).length ≤ n)
    (command : ∀ call, verdict = .command call ↔
      ∃ rest, scanWord line = some (word call, rest) ∧ scanInts n rest = args call)
    (listed : ∀ call, (word call, (args call).length) ∈ words)
    (calls : ∀ cmd ks, (cmd, ks.length) ∈ words → ∃ call, word call = cmd ∧ args call = ks)
    (blank : verdict = .blank ↔ scanWord line = none) :
    Exact verdict (fun call => Line (word call) (args call)) line ↔ Strict n words line := by
  have spelled (call : γ) : Line (word call) (args call) line ↔ verdict = .command call ∧
      ∀ rest, scanWord line = some (word call, rest) → Tidy n rest := by
    rw [line_iff (proper call) (few call), command]
    constructor
    · rintro ⟨rest, scanned, read, tidy⟩
      refine ⟨⟨rest, scanned, read⟩, fun rest' scanned' => ?_⟩
      cases scanned.symm.trans scanned'
      exact tidy
    · rintro ⟨⟨rest, scanned, read⟩, tidy⟩
      exact ⟨rest, scanned, read, tidy rest scanned⟩
  constructor
  · rintro exact cmd rest scanned member
    obtain ⟨call, rfl, read⟩ := calls cmd _ member
    have accepted := (command call).mpr ⟨rest, scanned, read.symm⟩
    exact ((spelled call).mp ((exact.command call).mp accepted)).2 rest scanned
  · intro strict
    have same (call : γ) : verdict = .command call ↔ Line (word call) (args call) line := by
      rw [spelled]
      refine (and_iff_left_of_imp fun accepted rest scanned => ?_).symm
      obtain ⟨rest', scanned', read⟩ := (command call).mp accepted
      cases scanned.symm.trans scanned'
      exact strict _ rest scanned (by rw [read]; exact listed call)
    have white : verdict = .blank ↔ White line := blank.trans scanWord_eq_none_iff
    refine ⟨same, white, ?_⟩
    rw [← white]
    simp only [← same]
    cases verdict <;> simp

/-! ## The two parsers -/

/-- What was scanned is known from the word and the text behind it. -/
theorem exists_scanned_iff {cmd name : Text} {args : List ℤ} :
    (∃ rest', some (cmd, rest) = some (name, rest') ∧ scanInts n rest' = args) ↔
      cmd = name ∧ scanInts n rest = args := by
  constructor
  · rintro ⟨rest', same, read⟩
    cases same
    exact ⟨rfl, read⟩
  · rintro ⟨rfl, read⟩
    exact ⟨rest, rfl, read⟩

namespace P5

open Model.P5 Model.P5.HashTable

def name : Call → Text
  | .set _ _ => setWord
  | .get _ => getWord
  | .del _ => delWord

def args : Call → List ℤ
  | .set key value => [key, value]
  | .get key => [key]
  | .del key => [key]

/-- The words of the commands, with the number of their numbers. -/
def words : List (Text × ℕ) := [(setWord, 2), (getWord, 1), (delWord, 1)]

/-- The line is a command as it is documented. -/
def Spells (call : Call) (line : Text) : Prop := Line (name call) (args call) line

/-- What the server makes of the line. -/
def verdict : Parsed → Verdict Call
  | .blank => .blank
  | .wrong => .wrong
  | .request msg => .command msg.call

theorem verdict_eq_command_iff (clean : '\x00' ∉ line) (fd : ℕ) (rand : Fin numWorkers) (call : Call) :
    verdict (processMessageFromClient line fd rand) = .command call ↔
      ∃ rest, scanWord line = some (name call, rest) ∧ scanInts 2 rest = args call := by
  rw [processMessageFromClient, scanCommand_of_clean clean]
  cases scanWord line with
  | none => simp [verdict]
  | some pair =>
    obtain ⟨cmd, rest⟩ := pair
    rw [exists_scanned_iff, Option.map_some]
    dsimp only
    generalize scanInts 2 rest = numbers
    split_ifs with set get del
    · obtain ⟨rfl, two⟩ := set
      obtain ⟨key, value, rfl⟩ := List.length_eq_two.mp two
      cases call <;> simp [verdict, Message.call, name, args, setWord, getWord, delWord]
    · obtain ⟨rfl, one⟩ := get
      obtain ⟨key, rfl⟩ := List.length_eq_one_iff.mp one
      cases call <;> simp [verdict, Message.call, name, args, setWord, getWord, delWord]
    · obtain ⟨rfl, one⟩ := del
      obtain ⟨key, rfl⟩ := List.length_eq_one_iff.mp one
      cases call <;> simp [verdict, Message.call, name, args, setWord, getWord, delWord]
    · simp only [verdict, reduceCtorEq, false_iff]
      rintro ⟨rfl, rfl⟩
      cases call <;> simp [name, args] at set get del

theorem verdict_eq_blank_iff (clean : '\x00' ∉ line) (fd : ℕ) (rand : Fin numWorkers) :
    verdict (processMessageFromClient line fd rand) = .blank ↔ scanWord line = none := by
  rw [processMessageFromClient, scanCommand_of_clean clean]
  cases scanWord line with
  | none => simp [verdict]
  | some pair =>
    rw [Option.map_some]
    dsimp only
    split_ifs <;> simp [verdict]

theorem exact_iff_strict (clean : '\x00' ∉ line) (fd : ℕ) (rand : Fin numWorkers) :
    Exact (verdict (processMessageFromClient line fd rand)) Spells line ↔ Strict 2 words line := by
  apply exact_iff
  · intro call
    cases call <;> simp [Word, name, setWord, getWord, delWord, isSpace]
  · intro call
    cases call <;> simp [args]
  · exact verdict_eq_command_iff clean fd rand
  · intro call
    cases call <;> simp [words, name, args]
  · intro cmd ks member
    simp only [words, List.mem_cons, Prod.mk.injEq, List.not_mem_nil, or_false] at member
    rcases member with ⟨rfl, two⟩ | ⟨rfl, one⟩ | ⟨rfl, one⟩
    · obtain ⟨key, value, rfl⟩ := List.length_eq_two.mp two
      exact ⟨.set key value, rfl, rfl⟩
    · obtain ⟨key, rfl⟩ := List.length_eq_one_iff.mp one
      exact ⟨.get key, rfl, rfl⟩
    · obtain ⟨key, rfl⟩ := List.length_eq_one_iff.mp one
      exact ⟨.del key, rfl, rfl⟩
  · exact verdict_eq_blank_iff clean fd rand

end P5

namespace P6

open Model.P6 Model.P6.HashTable

def name : Call → Text
  | .set _ _ _ => setWord
  | .get _ => getWord
  | .del _ => delWord

def args : Call → List ℤ
  | .set key ttl value => [key, ttl, value]
  | .get key => [key]
  | .del key => [key]

def words : List (Text × ℕ) := [(setWord, 3), (getWord, 1), (delWord, 1)]

def Spells (call : Call) (line : Text) : Prop := Line (name call) (args call) line

/-- What the worker makes of the line, as long as its word fits `cmd`. -/
def verdict : Parsed → Option (Verdict Call)
  | .blank => some .blank
  | .wrong => some .wrong
  | .query query => some (.command query.call)
  | .overflow => none

theorem verdict_of_scanned {cmd rest : Text} (clean : '\x00' ∉ line)
    (scanned : scanWord line = some (cmd, rest)) (short : cmd.length < cmdSize) :
    ∃ found, verdict (processQuery line) = some found ∧ found ≠ .blank ∧ ∀ call,
      found = .command call ↔ cmd = name call ∧ scanInts 3 rest = args call := by
  rw [processQuery, scanCommand_of_clean clean, scanned, Option.map_some]
  dsimp only
  rw [if_neg (Nat.not_le.mpr short)]
  generalize scanInts 3 rest = numbers
  split_ifs with set get del
  · obtain ⟨rfl, three⟩ := set
    obtain ⟨key, ttl, value, rfl⟩ := List.length_eq_three.mp three
    refine ⟨_, rfl, by simp, fun call => ?_⟩
    cases call <;> simp [Query.call, name, args, setWord, getWord, delWord, and_comm]
  · obtain ⟨rfl, one⟩ := get
    obtain ⟨key, rfl⟩ := List.length_eq_one_iff.mp one
    refine ⟨_, rfl, by simp, fun call => ?_⟩
    cases call <;> simp [Query.call, name, args, setWord, getWord, delWord]
  · obtain ⟨rfl, one⟩ := del
    obtain ⟨key, rfl⟩ := List.length_eq_one_iff.mp one
    refine ⟨_, rfl, by simp, fun call => ?_⟩
    cases call <;> simp [Query.call, name, args, setWord, getWord, delWord]
  · refine ⟨_, rfl, by simp, fun call => ?_⟩
    simp only [reduceCtorEq, false_iff]
    rintro ⟨rfl, rfl⟩
    cases call <;> simp [name, args] at set get del

theorem exact_iff_strict (clean : '\x00' ∉ line)
    (short : ∀ cmd rest, scanWord line = some (cmd, rest) → cmd.length < cmdSize) :
    ∃ found, verdict (processQuery line) = some found ∧
      (Exact found Spells line ↔ Strict 3 words line) := by
  have verdicts : ∃ found, verdict (processQuery line) = some found ∧
      (found = .blank ↔ scanWord line = none) ∧ ∀ call, found = .command call ↔
        ∃ rest, scanWord line = some (name call, rest) ∧ scanInts 3 rest = args call := by
    cases scanned : scanWord line with
    | none =>
      refine ⟨.blank, ?_, by simp, by simp⟩
      rw [processQuery, scanCommand_of_clean clean, scanned]
      rfl
    | some pair =>
      obtain ⟨cmd, rest⟩ := pair
      obtain ⟨found, parsed, notBlank, commands⟩ :=
        verdict_of_scanned clean scanned (short cmd rest scanned)
      refine ⟨found, parsed, by simp [notBlank], fun call => ?_⟩
      rw [exists_scanned_iff]
      exact commands call
  obtain ⟨found, parsed, blank, commands⟩ := verdicts
  refine ⟨found, parsed, ?_⟩
  apply exact_iff _ _ commands _ _ blank
  · intro call
    cases call <;> simp [Word, name, setWord, getWord, delWord, isSpace]
  · intro call
    cases call <;> simp [args]
  · intro call
    cases call <;> simp [words, name, args]
  · intro cmd ks member
    simp only [words, List.mem_cons, Prod.mk.injEq, List.not_mem_nil, or_false] at member
    rcases member with ⟨rfl, three⟩ | ⟨rfl, one⟩ | ⟨rfl, one⟩
    · obtain ⟨key, ttl, value, rfl⟩ := List.length_eq_three.mp three
      exact ⟨.set key ttl value, rfl, rfl⟩
    · obtain ⟨key, rfl⟩ := List.length_eq_one_iff.mp one
      exact ⟨.get key, rfl, rfl⟩
    · obtain ⟨key, rfl⟩ := List.length_eq_one_iff.mp one
      exact ⟨.del key, rfl, rfl⟩

end P6

/-- On a line without a zero byte whose word fits `cmd`, each of the two parsers accepts what is documented
exactly when the line is strict. -/
theorem accepts_iff (clean : '\x00' ∉ line)
    (short : ∀ cmd rest, scanWord line = some (cmd, rest) → cmd.length < P6.cmdSize) (fd : ℕ)
    (rand : Fin P5.numWorkers) :
    (Exact (P5.verdict (P5.processMessageFromClient line fd rand)) P5.Spells line ↔
      Strict 2 P5.words line) ∧
    ∃ found, P6.verdict (P6.processQuery line) = some found ∧
      (Exact found P6.Spells line ↔ Strict 3 P6.words line) :=
  ⟨P5.exact_iff_strict clean fd rand, P6.exact_iff_strict clean short⟩

/-- A line as `get key`. -/
def getLine : Text := ['g', 'e', 't', ' ', '1', '\n']

theorem accepts_iff_getLine :
    (Exact (P5.verdict (P5.processMessageFromClient getLine 5 0)) P5.Spells getLine ↔
      Strict 2 P5.words getLine) ∧
    ∃ found, P6.verdict (P6.processQuery getLine) = some found ∧
      (Exact found P6.Spells getLine ↔ Strict 3 P6.words getLine) :=
  accepts_iff (by decide) (by rintro cmd rest ⟨⟩; decide) 5 0

/-- The same with text behind the number. -/
def getMore : Text := ['g', 'e', 't', ' ', '1', ' ', 'x']

/-- It is accepted by both parsers. -/
theorem accepts_fails :
    P5.processMessageFromClient getMore 5 0 = .request ⟨2, .GET, 1, 0, 0, 5⟩ ∧
    P6.processQuery getMore = .query ⟨1, 0, 0, .GET⟩ ∧
    ¬ Exact (P5.verdict (P5.processMessageFromClient getMore 5 0)) P5.Spells getMore ∧
    ¬ Exact (.command (.get 1)) P6.Spells getMore := by
  have clean : '\x00' ∉ getMore := by decide
  refine ⟨by decide, by decide, fun exact => ?_, fun exact => ?_⟩
  · have tidy := (P5.exact_iff_strict clean 5 0).mp exact P5.getWord _ rfl (by decide)
    exact absurd (tidy.2 'x' (by decide)) (by decide)
  · obtain ⟨found, parsed, exact_iff⟩ :=
      P6.exact_iff_strict clean (by rintro cmd rest ⟨⟩; decide)
    cases (show some (.command (.get 1)) = some found from parsed)
    have tidy := exact_iff.mp exact P6.getWord _ rfl (by decide)
    exact absurd (tidy.2 'x' (by decide)) (by decide)

end SphereMultithreading.Soundness.Grammar
