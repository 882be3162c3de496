import SphereMultithreading.Proofs.P4.Parser

/-! # What the tokens keep of a line

The tokens of a line are the line without the white space outside quotations, as long as every
quotation is closed. Read again with a space between them, they are the same tokens.
-/

namespace SphereMultithreading.Soundness.P4

open Model.Scanf (isSpace)
open Model.P4

/-- The quotation that is open behind a character. -/
def nextQuote : Option Char → Char → Option Char
  | none, c => if c = '\'' ∨ c = '"' then some c else none
  | some q, c => if c = q then none else some q

/-- The quotation that is open behind a text. -/
def quoteAfter (quote : Option Char) (text : List Char) : Option Char := text.foldl nextQuote quote

/-- A text without its white space outside quotations. -/
def squeeze : Option Char → List Char → List Char
  | _, [] => []
  | quote, c :: rest =>
      (if quote = none ∧ isSpace c = true then [] else [c]) ++ squeeze (nextQuote quote c) rest

/-- What a token may be, with the tokens before and behind it. A run of operator characters stands in
the line between the texts these tokens are of. -/
inductive Kind (line : List Char) (before : List Word) : Word → List Word → Prop where
  | word {w : Word} {after : List Word} (nonempty : w ≠ []) (all : ∀ c ∈ w, IsPlain c) :
      Kind line before w after
  | run {w : Word} {after : List Word} {front back : List Char} (nonempty : w ≠ [])
      (all : ∀ c ∈ w, IsOp c) (place : line = front ++ (w ++ back))
      (earlier : before.flatten = squeeze none front) (later : after.flatten = squeeze none back)
      (began : ∀ c ∈ front.getLast?, ¬ IsOp c) (ended : ∀ c ∈ back.head?, ¬ IsOp c) :
      Kind line before w after
  | single {c : Char} {after : List Word} (single : IsSingle c) : Kind line before [c] after
  | quoted {q : Char} {body : Word} {after : List Word} (quote : IsQuote q) (closed : q ∉ body) :
      Kind line before (q :: (body ++ [q])) after
  | unclosed {q : Char} {body : Word} (quote : IsQuote q) (unclosed : q ∉ body)
      (last : q :: body <:+ line) : Kind line before (q :: body) []

/-- The tokens are the line without its white space outside quotations, cut into tokens of these
kinds. -/
structure Lossless (line : List Char) (tokens : List Word) : Prop where
  whole : tokens.flatten = squeeze none line
  kinds : ∀ before token after, tokens = before ++ token :: after → Kind line before token after

theorem quoteAfter_append (quote : Option Char) (front back : List Char) :
    quoteAfter quote (front ++ back) = quoteAfter (quoteAfter quote front) back :=
  List.foldl_append

theorem squeeze_append (quote : Option Char) (front back : List Char) :
    squeeze quote (front ++ back) =
      squeeze quote front ++ squeeze (quoteAfter quote front) back := by
  induction front generalizing quote with
  | nil => rfl
  | cons c front ih =>
    rw [List.cons_append, squeeze, squeeze, ih, List.append_assoc]
    rfl

/-! ## Pieces of a line -/

/-- Outside quotations, and without white space and quotes. -/
theorem squeeze_bare {w : List Char} (bare : ∀ c ∈ w, isSpace c = false ∧ ¬ IsQuote c) :
    quoteAfter none w = none ∧ squeeze none w = w := by
  induction w with
  | nil => exact ⟨rfl, rfl⟩
  | cons c w ih =>
    rw [List.forall_mem_cons] at bare
    have same : nextQuote none c = none := if_neg bare.1.2
    obtain ⟨closed, kept⟩ := ih bare.2
    rw [quoteAfter, List.foldl_cons, squeeze, same, kept]
    exact ⟨closed, by simp [bare.1.1]⟩

/-- Inside a quotation. -/
theorem squeeze_inside {q : Char} {body : List Char} (inside : q ∉ body) :
    quoteAfter (some q) body = some q ∧ squeeze (some q) body = body := by
  induction body with
  | nil => exact ⟨rfl, rfl⟩
  | cons c body ih =>
    rw [List.mem_cons, not_or] at inside
    have same : nextQuote (some q) c = some q := if_neg (Ne.symm inside.1)
    obtain ⟨still, kept⟩ := ih inside.2
    rw [quoteAfter, List.foldl_cons, squeeze, same, kept]
    exact ⟨still, by simp⟩

theorem squeeze_open {q : Char} {body : List Char} (quote : IsQuote q) (inside : q ∉ body) :
    quoteAfter none (q :: body) = some q ∧ squeeze none (q :: body) = q :: body := by
  have opened : nextQuote none q = some q := if_pos quote
  obtain ⟨still, kept⟩ := squeeze_inside inside
  rw [quoteAfter, List.foldl_cons, squeeze, opened, kept]
  exact ⟨still, by simp [quote.not_space]⟩

theorem squeeze_token {grows : Char → Prop} {w : Word} (token : Token grows w) :
    quoteAfter none w = none ∧ squeeze none w = w := by
  cases token with
  | word _ all => exact squeeze_bare fun c member => ⟨(all c member).1, (all c member).2.2.2⟩
  | run _ all =>
    exact squeeze_bare fun c member =>
      ⟨(all c member).not_space, fun quote =>
        quote.not_op (all c member)⟩
  | single single =>
    refine squeeze_bare fun c member => ?_
    obtain rfl := List.mem_singleton.mp member
    exact ⟨single.not_space, fun quote => quote.not_single single⟩
  | quoted quote closed =>
    rename_i q body
    obtain ⟨still, kept⟩ := squeeze_open quote closed
    have shut : nextQuote (some q) q = none := if_pos rfl
    rw [← List.cons_append, quoteAfter_append, squeeze_append, still, kept]
    exact ⟨shut, rfl⟩

theorem squeeze_space {c : Char} (space : isSpace c = true) :
    quoteAfter none [c] = none ∧ squeeze none [c] = [] := by
  have other : ¬ IsQuote c := fun quote => by
    rw [quote.not_space] at space
    cases space
  exact ⟨if_neg other, by simp [squeeze, space]⟩

/-- The line without its white space is the tokens and the open quotation. -/
theorem squeeze_lexed {line : List Char} {tokens : List Word} {tail : Word}
    (lexed : Lexed line tokens tail) :
    quoteAfter none line = tail.head? ∧ squeeze none line = tokens.flatten ++ tail := by
  induction lexed with
  | nil => exact ⟨rfl, rfl⟩
  | @space c rest tokens tail space lexed ih =>
    obtain ⟨closed, gone⟩ := squeeze_space space
    rw [← List.singleton_append, quoteAfter_append, squeeze_append, closed, gone]
    exact ih
  | token token ends lexed ih =>
    obtain ⟨closed, kept⟩ := squeeze_token token
    rw [quoteAfter_append, squeeze_append, closed, kept, List.flatten_cons, List.append_assoc,
      ← ih.2]
    exact ⟨ih.1, rfl⟩
  | unclosed quote unclosed => exact squeeze_open quote unclosed

/-! ## The place of a run -/

/-- A token that ends with an operator character grows by any. -/
theorem grows_of_getLast {grows : Char → Prop} {w : Word} (token : Token grows w) {c : Char}
    (last : c ∈ w.getLast?) (op : IsOp c) {d : Char} (next : IsOp d) : grows d := by
  cases token with
  | word _ all => exact absurd op (all c (List.mem_of_getLast? last)).2.1
  | run => exact next
  | single single =>
    obtain rfl := List.mem_singleton.mp (List.mem_of_getLast? last)
    exact op.not_single single
  | quoted quote =>
    rw [← List.cons_append, List.getLast?_concat] at last
    obtain rfl := Option.some.inj last
    exact quote.not_op op

/-- More of the line in front of a token. -/
theorem Kind.behind {line piece : List Char} {pieces before after : List Word} {token : Word}
    (kind : Kind line before token after) (closed : quoteAfter none piece = none)
    (kept : pieces.flatten = squeeze none piece)
    (apart : ∀ c ∈ piece.getLast?, IsOp c → ∀ d ∈ line.head?, ¬ IsOp d) :
    Kind (piece ++ line) (pieces ++ before) token after := by
  cases kind with
  | word nonempty all => exact .word nonempty all
  | single single => exact .single single
  | quoted quote shut => exact .quoted quote shut
  | unclosed quote unclosed last =>
    exact .unclosed quote unclosed (last.trans (List.suffix_append ..))
  | @run _ _ front back nonempty all place earlier later began ended =>
    refine @Kind.run _ _ token after (piece ++ front) back nonempty all ?_ ?_ later ?_ ended
    · rw [place, List.append_assoc]
    · rw [List.flatten_append, kept, earlier, squeeze_append, closed]
    · cases front with
      | nil =>
        intro c last op
        rw [List.append_nil] at last
        obtain ⟨d, w, rfl⟩ := List.exists_cons_of_ne_nil nonempty
        refine apart c last op d ?_ (all d (List.mem_cons_self ..))
        rw [place]
        rfl
      | cons d front =>
        rwa [List.getLast?_append_of_ne_nil _ (List.cons_ne_nil d front)]

theorem kind_of_lexed {line : List Char} {tokens : List Word} (lexed : Lexed line tokens [])
    (before : List Word) (token : Word) (after : List Word)
    (cut : tokens = before ++ token :: after) : Kind line before token after := by
  generalize none : ([] : Word) = tail at lexed
  induction lexed generalizing before with
  | nil => simp at cut
  | @space c rest tokens tail space lexed ih =>
    obtain ⟨closed, gone⟩ := squeeze_space space
    have prepended : Kind ([c] ++ rest) ([] ++ before) token after := by
      refine (ih before cut none).behind closed gone.symm ?_
      intro d last op
      obtain rfl := List.mem_singleton.mp (List.mem_of_getLast? last)
      rw [op.not_space] at space
      cases space
    exact prepended
  | @token grows w rest tokens tail shape ends lexed ih =>
    obtain ⟨closed, kept⟩ := squeeze_token shape
    cases before with
    | nil =>
      obtain ⟨rfl, rfl⟩ := List.cons_eq_cons.mp cut
      subst none
      cases shape with
      | word nonempty all => exact .word nonempty all
      | single single => exact .single single
      | quoted quote shut => exact .quoted quote shut
      | run nonempty all =>
        have behind := (squeeze_lexed lexed).2
        rw [List.append_nil] at behind
        have front : ∀ c ∈ ([] : List Char).getLast?, ¬ IsOp c := fun _ absent => nomatch absent
        exact .run nonempty all rfl rfl behind.symm front ends
    | cons first before =>
      obtain ⟨rfl, rfl⟩ := List.cons_eq_cons.mp cut
      have prepended : Kind (w ++ rest) ([w] ++ before) token after := by
        refine (ih before rfl none).behind closed ?_ ?_
        · rw [kept, List.flatten_singleton]
        · exact fun c last op d next same => ends d next (grows_of_getLast shape last op same)
      exact prepended
  | unclosed => cases none

/-- No token is lost or put out of place exactly when every quotation is closed. -/
theorem lossless_iff (parser : Parser) (line : List Char) :
    Lossless line (parser.parse line).operands ↔ quoteAfter none line = none := by
  obtain ⟨tokens, tail, lexed⟩ := exists_lexed line
  obtain ⟨state, whole⟩ := squeeze_lexed lexed
  rw [parse_eq lexed, state]
  constructor
  · intro lossless
    have same := lossless.whole.trans whole
    rw [List.head?_eq_none_iff]
    exact List.self_eq_append_right.mp same
  · intro closed
    obtain rfl := List.head?_eq_none_iff.mp closed
    exact ⟨(whole.trans (List.append_nil _)).symm, kind_of_lexed lexed⟩

/-- An open quotation is not kept. -/
theorem lossless_fails : ¬ ∀ (parser : Parser) (line : List Char),
    Lossless line (parser.parse line).operands := by
  intro all
  have whole := (all ⟨[]⟩ ['\'', 'a']).whole
  revert whole
  decide

/-! ## Reading the tokens again -/

theorem token_of_lexed {line : List Char} {tokens : List Word} {tail : Word}
    (lexed : Lexed line tokens tail) : ∀ w ∈ tokens, ∃ grows, Token grows w := by
  induction lexed with
  | nil => exact fun _ absent => absurd absent List.not_mem_nil
  | space space lexed ih => exact ih
  | token token ends lexed ih => exact List.forall_mem_cons.mpr ⟨⟨_, token⟩, ih⟩
  | unclosed => exact fun _ absent => absurd absent List.not_mem_nil

/-- White space ends every token. -/
theorem not_grows_space {grows : Char → Prop} {w : Word} (token : Token grows w) : ¬ grows ' ' := by
  cases token with
  | word => exact fun plain => Bool.noConfusion plain.1
  | run => exact fun op => absurd (op.not_space) (by decide)
  | single => exact id
  | quoted => exact id

theorem lexed_intercalate {tokens : List Word} (shapes : ∀ w ∈ tokens, ∃ grows, Token grows w) :
    Lexed ([' '].intercalate tokens) tokens [] := by
  induction tokens with
  | nil => exact .nil
  | cons w tokens ih =>
    rw [List.forall_mem_cons] at shapes
    obtain ⟨⟨grows, token⟩, others⟩ := shapes
    cases tokens with
    | nil =>
      have alone := Lexed.token token (fun _ absent => by cases absent) .nil
      rw [List.append_nil] at alone
      rwa [List.intercalate_singleton]
    | cons next tokens =>
      have behind : Lexed (' ' :: [' '].intercalate (next :: tokens)) (next :: tokens) [] :=
        .space (by decide) (ih others)
      rw [List.intercalate_cons_cons, List.append_assoc]
      refine .token token ?_ behind
      rintro c ⟨⟩
      exact not_grows_space token

/-- The tokens of a line, joined by single spaces, are read again as the same tokens, by whatever
object reads them. -/
theorem parse_intercalate (parser again : Parser) (line : List Char) :
    (again.parse ([' '].intercalate (parser.parse line).operands)).operands =
      (parser.parse line).operands := by
  obtain ⟨tokens, tail, lexed⟩ := exists_lexed line
  rw [parse_eq lexed]
  exact parse_eq (lexed_intercalate (token_of_lexed lexed)) again

end SphereMultithreading.Soundness.P4
