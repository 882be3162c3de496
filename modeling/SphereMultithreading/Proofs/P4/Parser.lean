import SphereMultithreading.Model.P4.Parser

/-! # What the parser makes of a line

A line is a sequence of tokens with white space between them, and perhaps a quotation at its end that
is not closed. A token ends where no character follows that it would grow by, so a line is taken apart
in one way only. The parser does not keep the open quotation.
-/

namespace SphereMultithreading.Model.P4

open Scanf (isSpace)

/-! ## Tokens -/

def IsOp (c : Char) : Prop := c = '&' ∨ c = '|'

def IsSingle (c : Char) : Prop := c = '<' ∨ c = '>' ∨ c = ';'

def IsQuote (c : Char) : Prop := c = '\'' ∨ c = '"'

/-- A character of a word. -/
def IsPlain (c : Char) : Prop := isSpace c = false ∧ ¬ IsOp c ∧ ¬ IsSingle c ∧ ¬ IsQuote c

/-- A token, with the characters it would grow by. -/
inductive Token : (Char → Prop) → Word → Prop where
  | word {w : Word} (nonempty : w ≠ []) (all : ∀ c ∈ w, IsPlain c) : Token IsPlain w
  | run {w : Word} (nonempty : w ≠ []) (all : ∀ c ∈ w, IsOp c) : Token IsOp w
  | single {c : Char} (single : IsSingle c) : Token (fun _ => False) [c]
  | quoted {q : Char} {body : Word} (quote : IsQuote q) (closed : q ∉ body) :
      Token (fun _ => False) (q :: (body ++ [q]))

/-- The tokens of a line, and the open quotation at its end. -/
inductive Lexed : List Char → List Word → Word → Prop where
  | nil : Lexed [] [] []
  | space {c : Char} {rest : List Char} {tokens : List Word} {tail : Word}
      (space : isSpace c = true) (lexed : Lexed rest tokens tail) : Lexed (c :: rest) tokens tail
  | token {grows : Char → Prop} {w : Word} {rest : List Char} {tokens : List Word} {tail : Word}
      (token : Token grows w) (ends : ∀ c ∈ rest.head?, ¬ grows c) (lexed : Lexed rest tokens tail) :
      Lexed (w ++ rest) (w :: tokens) tail
  | unclosed {q : Char} {body : Word} (quote : IsQuote q) (unclosed : q ∉ body) :
      Lexed (q :: body) [] (q :: body)

theorem IsSingle.not_space {c : Char} (single : IsSingle c) : isSpace c = false := by
  rcases single with rfl | rfl | rfl <;> decide

theorem IsOp.not_space {c : Char} (op : IsOp c) : isSpace c = false := by
  rcases op with rfl | rfl <;> decide

theorem IsQuote.not_space {c : Char} (quote : IsQuote c) : isSpace c = false := by
  rcases quote with rfl | rfl <;> decide

theorem IsOp.not_single {c : Char} (op : IsOp c) : ¬ IsSingle c := by
  rcases op with rfl | rfl <;> unfold IsSingle <;> decide

theorem IsQuote.not_single {c : Char} (quote : IsQuote c) : ¬ IsSingle c := by
  rcases quote with rfl | rfl <;> unfold IsSingle <;> decide

theorem IsQuote.not_op {c : Char} (quote : IsQuote c) : ¬ IsOp c := by
  rcases quote with rfl | rfl <;> unfold IsOp <;> decide

/-! ## The parser between two tokens -/

namespace Parsing

/-- Nothing is pending. -/
def idle (operands : List Word) : Parsing := ⟨operands, [], [], []⟩

/-- The operands at the end of a line. -/
def finish (s : Parsing) : List Word := s.dropCmd.dropOp.operands

variable {operands : List Word} {cmd op : Word} {c : Char}

theorem parseChar_space (space : isSpace c = true) :
    (idle operands).parseChar c = idle operands := by
  simp [parseChar, idle, dropCmd, dropOp, dropStringToBuffer, space]

theorem parseChar_single (single : IsSingle c) :
    (idle operands).parseChar c = idle (operands ++ [[c]]) := by
  have other := single.not_space
  unfold IsSingle at single
  simp [parseChar, idle, dropCmd, dropOp, dropStringToBuffer, other, single]

theorem parseChar_quote (quote : IsQuote c) :
    (idle operands).parseChar c = ⟨operands, [], [], [c]⟩ := by
  have space := quote.not_space
  have single := quote.not_single
  have op := quote.not_op
  unfold IsSingle at single
  unfold IsOp at op
  unfold IsQuote at quote
  simp [parseChar, idle, dropCmd, dropOp, dropStringToBuffer, space, single, op, quote]

theorem parseChar_plain (plain : IsPlain c) :
    (⟨operands, cmd, [], []⟩ : Parsing).parseChar c = ⟨operands, cmd ++ [c], [], []⟩ := by
  obtain ⟨space, op, single, quote⟩ := plain
  unfold IsSingle at single
  unfold IsOp at op
  unfold IsQuote at quote
  simp [parseChar, dropOp, dropStringToBuffer, space, single, op, quote]

theorem parseChar_op (isOp : IsOp c) :
    (⟨operands, [], op, []⟩ : Parsing).parseChar c = ⟨operands, [], op ++ [c], []⟩ := by
  have space := isOp.not_space
  have single := isOp.not_single
  unfold IsSingle at single
  unfold IsOp at isOp
  simp [parseChar, dropCmd, dropStringToBuffer, space, single, isOp]

/-- A word is finished by any other character. -/
theorem parseChar_behind_word (nonempty : cmd ≠ []) (ends : ¬ IsPlain c) :
    (⟨operands, cmd, [], []⟩ : Parsing).parseChar c = (idle (operands ++ [cmd])).parseChar c := by
  have positive := List.length_pos_of_ne_nil nonempty
  unfold IsPlain IsOp IsSingle IsQuote at ends
  simp only [parseChar, idle, dropCmd, dropOp, dropStringToBuffer, positive, if_true,
    List.length_nil, lt_irrefl, if_false]
  split_ifs with space single op quote
  · rfl
  · rfl
  · rfl
  · rfl
  · exact absurd ⟨by simpa using space, op, single, quote⟩ ends

/-- A run of operator characters is finished by any other character. -/
theorem parseChar_behind_run (nonempty : op ≠ []) (ends : ¬ IsOp c) :
    (⟨operands, [], op, []⟩ : Parsing).parseChar c = (idle (operands ++ [op])).parseChar c := by
  have positive := List.length_pos_of_ne_nil nonempty
  unfold IsOp at ends
  simp only [parseChar, idle, dropCmd, dropOp, dropStringToBuffer, positive, if_true,
    List.length_nil, lt_irrefl, if_false, ends]

/-- Within a quotation. -/
theorem parseChar_inside {q : Char} {body : Word} (other : c ≠ q) :
    (⟨operands, [], [], q :: body⟩ : Parsing).parseChar c =
      ⟨operands, [], [], q :: (body ++ [c])⟩ := by
  simp [parseChar, other.symm]

theorem parseChar_close (q : Char) (body : Word) :
    (⟨operands, [], [], q :: body⟩ : Parsing).parseChar q =
      idle (operands ++ [q :: (body ++ [q])]) := by
  simp [parseChar, idle, dropQuote, dropStringToBuffer]

theorem foldl_plain {w : Word} (all : ∀ c ∈ w, IsPlain c) :
    w.foldl parseChar ⟨operands, cmd, [], []⟩ = ⟨operands, cmd ++ w, [], []⟩ := by
  induction w generalizing cmd with
  | nil => rw [List.append_nil]; rfl
  | cons c w ih =>
    rw [List.forall_mem_cons] at all
    rw [List.foldl_cons, parseChar_plain all.1, ih all.2, List.append_assoc]
    rfl

theorem foldl_op {w : Word} (all : ∀ c ∈ w, IsOp c) :
    w.foldl parseChar ⟨operands, [], op, []⟩ = ⟨operands, [], op ++ w, []⟩ := by
  induction w generalizing op with
  | nil => rw [List.append_nil]; rfl
  | cons c w ih =>
    rw [List.forall_mem_cons] at all
    rw [List.foldl_cons, parseChar_op all.1, ih all.2, List.append_assoc]
    rfl

theorem foldl_inside {q : Char} {body w : Word} (unclosed : q ∉ w) :
    w.foldl parseChar ⟨operands, [], [], q :: body⟩ = ⟨operands, [], [], q :: (body ++ w)⟩ := by
  induction w generalizing body with
  | nil => rw [List.append_nil]; rfl
  | cons c w ih =>
    rw [List.mem_cons, not_or] at unclosed
    rw [List.foldl_cons, parseChar_inside (Ne.symm unclosed.1), ih unclosed.2, List.append_assoc]
    rfl

/-- What is read from here on, with what was read before. -/
def parseFrom (operands : List Word) (text : List Char) : List Word :=
  (text.foldl parseChar (idle operands)).finish

theorem parseFrom_token {grows : Char → Prop} {w : Word} (token : Token grows w) {rest : List Char}
    (ends : ∀ c ∈ rest.head?, ¬ grows c) :
    parseFrom operands (w ++ rest) = parseFrom (operands ++ [w]) rest := by
  rw [parseFrom, parseFrom, List.foldl_append]
  cases token with
  | word nonempty all =>
    rw [idle, foldl_plain all, List.nil_append]
    cases rest with
    | nil =>
      have positive := List.length_pos_of_ne_nil nonempty
      simp [finish, idle, dropCmd, dropOp, dropStringToBuffer, positive]
    | cons c rest =>
      rw [List.foldl_cons, List.foldl_cons, parseChar_behind_word nonempty (ends c rfl)]
  | run nonempty all =>
    rw [idle, foldl_op all, List.nil_append]
    cases rest with
    | nil =>
      have positive := List.length_pos_of_ne_nil nonempty
      simp [finish, idle, dropCmd, dropOp, dropStringToBuffer, positive]
    | cons c rest =>
      rw [List.foldl_cons, List.foldl_cons, parseChar_behind_run nonempty (ends c rfl)]
  | single single => rw [List.foldl_cons, parseChar_single single, List.foldl_nil]
  | quoted quote closed =>
    rw [List.foldl_cons, parseChar_quote quote, List.foldl_append, foldl_inside closed,
      List.foldl_cons, parseChar_close, List.foldl_nil]
    rfl

/-- The parser takes a line apart as it is. -/
theorem parseFrom_lexed {text : List Char} {tokens : List Word} {tail : Word}
    (lexed : Lexed text tokens tail) : parseFrom operands text = operands ++ tokens := by
  induction lexed generalizing operands with
  | nil => simp [parseFrom, finish, idle, dropCmd, dropOp, dropStringToBuffer]
  | space space lexed ih =>
    rw [parseFrom, List.foldl_cons, parseChar_space space]
    exact ih
  | token token ends lexed ih =>
    rw [parseFrom_token token ends, ih, List.append_assoc]
    rfl
  | unclosed quote unclosed =>
    rw [parseFrom, List.foldl_cons, parseChar_quote quote, foldl_inside unclosed]
    simp [finish, dropCmd, dropOp, dropStringToBuffer]

end Parsing

/-- Characters of one kind at the beginning of a line, as many as there are. -/
theorem exists_span {P : Char → Prop} {c : Char} (first : P c) (rest : List Char) :
    ∃ w behind, w ≠ [] ∧ (∀ d ∈ w, P d) ∧ (∀ d ∈ behind.head?, ¬ P d) ∧
      c :: rest = w ++ behind := by
  classical
  refine ⟨(c :: rest).takeWhile (P ·), (c :: rest).dropWhile (P ·), ?_, ?_, ?_,
    List.takeWhile_append_dropWhile.symm⟩
  · rw [List.takeWhile_cons]
    simp [first]
  · intro d member
    simpa using List.mem_takeWhile_imp member
  · intro d member
    have stops := List.head?_dropWhile_not (P ·) (c :: rest)
    rw [member] at stops
    simpa using stops

theorem char_cases (c : Char) :
    isSpace c = true ∨ IsSingle c ∨ IsQuote c ∨ IsOp c ∨ IsPlain c := by
  unfold IsPlain
  cases isSpace c <;> tauto

/-- Every line can be taken apart. -/
theorem exists_lexed (text : List Char) : ∃ tokens tail, Lexed text tokens tail := by
  have shorter {w : List Char} (rest : List Char) (nonempty : w ≠ []) :
      rest.length < (w ++ rest).length := by
    have := List.length_pos_of_ne_nil nonempty
    rw [List.length_append]
    omega
  match text with
  | [] => exact ⟨[], [], .nil⟩
  | c :: rest =>
    rcases char_cases c with space | single | quote | op | plain
    · obtain ⟨tokens, tail, lexed⟩ := exists_lexed rest
      exact ⟨tokens, tail, .space space lexed⟩
    · obtain ⟨tokens, tail, lexed⟩ := exists_lexed rest
      exact ⟨[c] :: tokens, tail, .token (.single single) (fun _ _ => id) lexed⟩
    · by_cases closed : c ∈ rest
      · obtain ⟨body, behind, same, absent⟩ := List.eq_append_cons_of_mem closed
        have := shorter behind (List.append_ne_nil_of_right_ne_nil (c :: body) (List.cons_ne_nil c []))
        obtain ⟨tokens, tail, lexed⟩ := exists_lexed behind
        have whole := Lexed.token (.quoted quote absent) (fun _ _ => id) lexed
        rw [List.cons_append, List.append_assoc, List.singleton_append, ← same] at whole
        exact ⟨_, tail, whole⟩
      · exact ⟨[], c :: rest, .unclosed quote closed⟩
    · obtain ⟨w, behind, nonempty, all, ends, whole⟩ := exists_span op rest
      have := shorter behind nonempty
      obtain ⟨tokens, tail, lexed⟩ := exists_lexed behind
      exact ⟨w :: tokens, tail, whole ▸ .token (.run nonempty all) ends lexed⟩
    · obtain ⟨w, behind, nonempty, all, ends, whole⟩ := exists_span plain rest
      have := shorter behind nonempty
      obtain ⟨tokens, tail, lexed⟩ := exists_lexed behind
      exact ⟨w :: tokens, tail, whole ▸ .token (.word nonempty all) ends lexed⟩
termination_by text.length
decreasing_by
  · exact Nat.lt_succ_self _
  · exact Nat.lt_succ_self _
  · simpa [same] using this
  · rwa [whole]
  · rwa [whole]

/-- What the parser returns, whatever it held before. -/
theorem parse_eq {line : List Char} {tokens : List Word} {tail : Word}
    (lexed : Lexed line tokens tail) (parser : Parser) : (parser.parse line).operands = tokens :=
  (Parsing.parseFrom_lexed lexed : Parsing.parseFrom [] line = [] ++ tokens)

end SphereMultithreading.Model.P4
