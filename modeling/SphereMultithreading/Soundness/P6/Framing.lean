import SphereMultithreading.Machine.Run
import SphereMultithreading.Model.P6.Worker
import SphereMultithreading.Proofs.Scanf
import SphereMultithreading.Proofs.Stdio

/-! # Commands and the chunks they arrive in

A worker parses what one `recv` returned, without what came before it. What a client asked for is
then a matter of how its stream is cut: a part of a command is a command of its own, and of two
commands in one chunk the second is not read.
-/

namespace SphereMultithreading.Soundness.P6

open Machine Model Model.P6 Model.Scanf

/-- The chunks that successive `recv` calls return of a stream. -/
def Cut (stream : Text) (chunks : List Text) : Prop :=
  chunks.flatten = stream ∧ ∀ chunk ∈ chunks, chunk ≠ [] ∧ chunk.length ≤ maxBufSize

/-- The queries of the chunks in order; none if a word leaves `cmd`. -/
def queries : List Text → Option (List Query)
  | [] => some []
  | chunk :: rest =>
      match processQuery chunk with
      | .query query => (queries rest).map (query :: ·)
      | .overflow => none
      | _ => queries rest

/-- However the stream is cut, the queries are the same. -/
def Independent (stream : Text) : Prop :=
  ∀ chunks₁ chunks₂, Cut stream chunks₁ → Cut stream chunks₂ → queries chunks₁ = queries chunks₂

/-- One of the three commands, with the numbers it takes. -/
def Command (text : Text) : Prop :=
  ∃ word args, text = word ++ args ∧ Ends (fun c => !isSpace c) args ∧
    (word = setWord ∧ Numerals 3 args ∨ (word = getWord ∨ word = delWord) ∧ Numerals 1 args)

/-- A part of a word that is too long for `cmd`. -/
def LongWord (text : Text) : Prop :=
  text.length = cmdSize ∧ ∀ c ∈ text, isSpace c = false ∧ c ≠ '\x00'

/-- No part of the stream that fits the buffer is a command or a word too long for `cmd`. -/
def Silent (stream : Text) : Prop :=
  ∀ piece, piece <:+: stream → piece.length ≤ maxBufSize → ¬ Command piece ∧ ¬ LongWord piece

/-- Each chunk is one line, with or without the white space around it, or white space alone. -/
inductive Framed : List Text → List Text → Prop where
  | nil : Framed [] []
  | blank {lines chunks : List Text} {chunk : Text} :
      White chunk → Framed lines chunks → Framed lines (chunk :: chunks)
  | line {lines chunks : List Text} {before line after : Text} :
      White before → White after → Framed lines chunks →
      Framed (line :: lines) ((before ++ line ++ after) :: chunks)

/-! ## What the worker executes -/

/-- The worker handles a chunk, at the times that `time` tells in the meantime. -/
def handleChunk (fd : ℕ) (s : WorkerState) (event : (ℕ → ℤ) × Text) : Option WorkerState :=
  (s.handle event.1 fd event.2).toOption

def execute (memory : HashTable) (event : (ℕ → ℤ) × Query) : Option HashTable :=
  (memory.call event.1 event.2.call).map Prod.snd

/-- The worker executes the queries of the chunks in order, and nothing else. -/
theorem run_queries {fd : ℕ} {events : List ((ℕ → ℤ) × Text)} {s t : WorkerState}
    (success : run (handleChunk fd) s events = some t) :
    ∃ executed : List ((ℕ → ℤ) × Query),
      queries (events.map Prod.snd) = some (executed.map Prod.snd) ∧
      (executed.map Prod.fst).Sublist (events.map Prod.fst) ∧
      run execute s.memory executed = some t.memory := by
  induction events generalizing s with
  | nil =>
    cases success
    exact ⟨[], rfl, .slnil, rfl⟩
  | cons event events ih =>
    obtain ⟨clock, text⟩ := event
    obtain ⟨s', handled, success⟩ := Option.bind_eq_some_iff.mp success
    obtain ⟨executed, asked, order, done⟩ := ih success
    simp only [handleChunk, WorkerState.handle] at handled
    cases parsed : processQuery text with
    | overflow =>
      rw [parsed] at handled
      cases handled
    | query query =>
      simp only [parsed, WorkerState.executeQuery] at handled
      split at handled
      · cases called : s.memory.call clock query.call with
        | none =>
          simp only [called] at handled
          cases handled
        | some outcome =>
          simp only [called] at handled
          cases handled
          refine ⟨(clock, query) :: executed, ?_, order.cons_cons _, ?_⟩
          · simp [queries, parsed, asked]
          · simpa [run_cons, execute, called, WorkerState.sendMessageToClient] using done
      · cases handled
    | _ =>
      rw [parsed] at handled
      cases handled
      refine ⟨executed, ?_, order.cons _, done⟩
      simp [queries, parsed, asked]

/-! ## Commands as texts -/

private theorem takeWhile_part (text : Text) : text.takeWhile (· ≠ '\x00') <:+: text :=
  (List.takeWhile_prefix _).isInfix

/-- What is read as a query has a command in it. -/
theorem exists_command {query : Query} {text : Text} (parsed : processQuery text = .query query) :
    ∃ cmd, cmd <:+: text ∧ Command cmd := by
  simp only [processQuery] at parsed
  split at parsed
  · cases parsed
  · next cmd numbers scanned =>
    obtain ⟨⟨word, rest⟩, read, same⟩ := Option.map_eq_some_iff.mp scanned
    obtain ⟨rfl, rfl⟩ := Prod.mk.inj same
    obtain ⟨gap, -, whole, -, -, ends⟩ := scanWord_eq_some read
    have start : Ends Char.isDigit rest := fun c first =>
      not_isDigit_of_isSpace (by simpa using ends c first)
    obtain ⟨args, left, numerals, split⟩ := exists_numerals (m := 3) start
    have part : word ++ args <:+: text := by
      refine List.IsInfix.trans ⟨gap, left, ?_⟩ (takeWhile_part text)
      rw [whole, split]
      simp
    have ends' : Ends (fun c => !isSpace c) args := by
      intro c first
      refine ends c ?_
      rw [split, List.head?_append, first]
      rfl
    refine ⟨word ++ args, part, word, args, rfl, ends', ?_⟩
    split_ifs at parsed with long set get del
    · exact .inl ⟨set.1, set.2 ▸ numerals⟩
    · exact .inr ⟨.inl get.1, get.2 ▸ numerals⟩
    · exact .inr ⟨.inr del.1, del.2 ▸ numerals⟩

/-- What leaves `cmd` has a long word in it. -/
theorem exists_longWord {text : Text} (parsed : processQuery text = .overflow) :
    ∃ word, word <:+: text ∧ LongWord word := by
  simp only [processQuery] at parsed
  split at parsed
  · cases parsed
  · next cmd numbers scanned =>
    obtain ⟨⟨word, rest⟩, read, same⟩ := Option.map_eq_some_iff.mp scanned
    obtain ⟨rfl, rfl⟩ := Prod.mk.inj same
    obtain ⟨gap, -, whole, -, letters, -⟩ := scanWord_eq_some read
    have part : word <:+: text.takeWhile (· ≠ '\x00') := ⟨gap, rest, by rw [whole]; simp⟩
    split_ifs at parsed with long
    refine ⟨word.take cmdSize, ?_, List.length_take_of_le long, fun c member => ?_⟩
    · exact (List.take_prefix ..).isInfix.trans (part.trans (takeWhile_part text))
    · have within := List.mem_of_mem_take member
      have kept := List.all_eq_true.mp List.all_takeWhile c (part.subset within)
      exact ⟨letters c within, by simpa using kept⟩

theorem overflow_of_longWord {word : Text} (long : LongWord word) :
    processQuery word = .overflow := by
  obtain ⟨length, letters⟩ := long
  have nonempty : word ≠ [] := by
    rintro rfl
    cases length
  have ends : Ends (fun c => !isSpace c) [] := fun c none => by cases none
  have read := scanWord_append nonempty (fun c member => (letters c member).1) ends
  rw [List.append_nil] at read
  have clean : '\x00' ∉ word := fun zero => (letters _ zero).2 rfl
  have scanned : scanCommand 3 word = some (word, scanInts 3 []) := by
    rw [Stdio.scanCommand_of_clean clean, read]
    rfl
  simp [processQuery, scanned, length]

theorem query_of_command {cmd : Text} (command : Command cmd) :
    ∃ query, processQuery cmd = .query query := by
  obtain ⟨word, args, rfl, ends, known⟩ := command
  have isWord : word = setWord ∨ word = getWord ∨ word = delWord :=
    known.imp And.left And.left
  have letters : word ≠ [] ∧ ∀ c ∈ word, isSpace c = false ∧ c ≠ '\x00' := by
    rcases isWord with rfl | rfl | rfl <;> simp [setWord, getWord, delWord, isSpace]
  have noZero : ∀ c ∈ args, c ≠ '\x00' := by
    rcases known with ⟨-, numerals⟩ | ⟨-, numerals⟩ <;> exact numerals.noZero
  have clean : '\x00' ∉ word ++ args := by
    intro zero
    rcases List.mem_append.mp zero with inWord | inArgs
    · exact (letters.2 _ inWord).2 rfl
    · exact noZero _ inArgs rfl
  have scanned : scanCommand 3 (word ++ args) = some (word, scanInts 3 args) := by
    rw [Stdio.scanCommand_of_clean clean,
      scanWord_append letters.1 (fun c member => (letters.2 c member).1) ends]
    rfl
  rw [processQuery, scanned]
  dsimp only
  rcases known with ⟨rfl, numerals⟩ | ⟨rfl | rfl, numerals⟩
  · have count : (scanInts 3 args).length = 3 := scanInts_numerals numerals (by omega)
    rw [if_neg (by decide), if_pos ⟨rfl, count⟩]
    exact ⟨_, rfl⟩
  · have count : (scanInts 3 args).length = 1 := scanInts_numerals numerals (by omega)
    rw [if_neg (by decide), if_neg (by simp [setWord, getWord]), if_pos ⟨rfl, count⟩]
    exact ⟨_, rfl⟩
  · have count : (scanInts 3 args).length = 1 := scanInts_numerals numerals (by omega)
    rw [if_neg (by decide), if_neg (by simp [setWord, delWord]),
      if_neg (by simp [getWord, delWord]), if_pos ⟨rfl, count⟩]
    exact ⟨_, rfl⟩

/-! ## Parts of a stream -/

/-- What has neither a command nor a long word in it leads to no query. -/
theorem queries_of_silent {chunks : List Text}
    (silent : ∀ chunk ∈ chunks, ∀ piece, piece <:+: chunk → ¬ Command piece ∧ ¬ LongWord piece)
    (rest : List Text) : queries (chunks ++ rest) = queries rest := by
  induction chunks with
  | nil => rfl
  | cons chunk chunks ih =>
    have here := silent chunk (List.mem_cons_self ..)
    have later := ih fun chunk member => silent chunk (List.mem_cons_of_mem _ member)
    rw [List.cons_append, queries]
    cases parsed : processQuery chunk with
    | query query =>
      obtain ⟨cmd, part, command⟩ := exists_command parsed
      exact absurd command (here cmd part).1
    | overflow =>
      obtain ⟨word, part, long⟩ := exists_longWord parsed
      exact absurd long (here word part).2
    | _ => exact later

theorem Command.length_le {cmd : Text} (command : Command cmd) : 2 ≤ cmd.length := by
  obtain ⟨word, args, rfl, -, known⟩ := command
  rcases known with ⟨rfl, -⟩ | ⟨rfl | rfl, -⟩ <;> simp [setWord, getWord, delWord]

/-- A stream byte by byte leads to no query. -/
theorem queries_bytes (bytes : Text) (rest : List Text) :
    queries (bytes.map ([·]) ++ rest) = queries rest := by
  apply queries_of_silent
  intro chunk member piece part
  obtain ⟨c, -, rfl⟩ := List.mem_map.mp member
  have short : piece.length ≤ 1 := part.length_le
  constructor
  · intro command
    have := command.length_le
    omega
  · rintro ⟨length, -⟩
    rw [length] at short
    exact absurd short (by decide)

theorem cut_bytes (bytes : Text) : Cut bytes (bytes.map ([·])) := by
  constructor
  · induction bytes with
    | nil => rfl
    | cons c bytes ih => exact congrArg (c :: ·) ih
  · intro chunk member
    obtain ⟨c, -, rfl⟩ := List.mem_map.mp member
    exact ⟨by simp, by simp⟩

/-- One part of a stream in a chunk, and the others byte by byte. -/
theorem cut_piece {before piece after : Text} (nonempty : piece ≠ [])
    (fits : piece.length ≤ maxBufSize) :
    Cut (before ++ piece ++ after) (before.map ([·]) ++ (piece :: after.map ([·]))) := by
  obtain ⟨whole₁, chunks₁⟩ := cut_bytes before
  obtain ⟨whole₂, chunks₂⟩ := cut_bytes after
  constructor
  · rw [List.flatten_append, List.flatten_cons, whole₁, whole₂, List.append_assoc]
  · intro chunk member
    rcases List.mem_append.mp member with first | later
    · exact chunks₁ chunk first
    · rcases List.mem_cons.mp later with rfl | last
      · exact ⟨nonempty, fits⟩
      · exact chunks₂ chunk last

theorem independent_iff_silent (stream : Text) : Independent stream ↔ Silent stream := by
  have empty (bytes : Text) : queries (bytes.map ([·])) = some [] := by
    rw [← List.append_nil (bytes.map _), queries_bytes]
    rfl
  constructor
  · rintro independent piece ⟨before, after, rfl⟩ fits
    have same (nonempty : piece ≠ []) : queries (piece :: after.map ([·])) = some [] := by
      rw [← queries_bytes before, independent _ _ (cut_piece nonempty fits) (cut_bytes _), empty]
    constructor
    · intro command
      obtain ⟨query, parsed⟩ := query_of_command command
      have nonempty : piece ≠ [] := List.ne_nil_of_length_pos (by have := command.length_le; omega)
      have asked := same nonempty
      rw [queries, parsed, empty] at asked
      simp at asked
    · intro long
      have nonempty : piece ≠ [] := List.ne_nil_of_length_pos (by rw [long.1]; decide)
      have asked := same nonempty
      rw [queries, overflow_of_longWord long] at asked
      cases asked
  · intro silent chunks₁ chunks₂ cut₁ cut₂
    have silence {chunks : List Text} (cut : Cut stream chunks) : queries chunks = some [] := by
      rw [← List.append_nil chunks, queries_of_silent]
      · rfl
      · intro chunk member piece part
        have within : chunk <:+: stream := cut.1 ▸ List.infix_of_mem_flatten member
        exact silent piece (part.trans within) (part.length_le.trans (cut.2 chunk member).2)
    rw [silence cut₁, silence cut₂]

/-! ## One line in a chunk -/

theorem processQuery_white {before after : Text} (whiteBefore : White before)
    (whiteAfter : White after) (text : Text) :
    processQuery (before ++ text ++ after) = processQuery text := by
  rw [processQuery, scanCommand_white whiteBefore whiteAfter, processQuery]

theorem Framed.queries {lines chunks : List Text} (framed : Framed lines chunks) :
    queries chunks = P6.queries lines := by
  induction framed with
  | nil => rfl
  | @blank lines chunks chunk white framed ih =>
    have blank : processQuery chunk = .blank := by
      have same := processQuery_white white (fun c member => absurd member List.not_mem_nil) []
      rw [List.append_nil, List.append_nil] at same
      rw [same]
      rfl
    rw [P6.queries, blank]
    exact ih
  | @line lines chunks before line after whiteBefore whiteAfter framed ih =>
    rw [P6.queries, processQuery_white whiteBefore whiteAfter, P6.queries, ih]

/-- A stream leads to the same queries however it is cut exactly if it cannot be cut so that a chunk
is a command. Two cuts with one line in each chunk lead to the same queries. -/
theorem framing_iff (stream : Text) :
    (Independent stream ↔ Silent stream) ∧
      ∀ lines chunks₁ chunks₂, Framed lines chunks₁ → Framed lines chunks₂ →
        queries chunks₁ = queries chunks₂ := by
  refine ⟨independent_iff_silent stream, ?_⟩
  intro lines chunks₁ chunks₂ framed₁ framed₂
  exact framed₁.queries.trans framed₂.queries.symm

/-- `get 12`, with the end of the line in the same chunk or in the next one. -/
theorem framing_get :
    queries [['g', 'e', 't', ' ', '1', '2', '\n']] = queries [['g', 'e', 't', ' ', '1', '2'], ['\n']] := by
  have white (c : Char) (space : isSpace c = true) : White [c] := by simpa [White] using space
  have nothing : White [] := by simp [White]
  have once : Framed [['g', 'e', 't', ' ', '1', '2']] [['g', 'e', 't', ' ', '1', '2', '\n']] :=
    .line nothing (white '\n' rfl) .nil
  have twice : Framed [['g', 'e', 't', ' ', '1', '2']] [['g', 'e', 't', ' ', '1', '2'], ['\n']] :=
    .line nothing nothing (.blank (white '\n' rfl) .nil)
  exact (framing_iff ['g', 'e', 't', ' ', '1', '2', '\n']).2 _ _ _ once twice

/-- Cut within the number it is another query. -/
theorem framing_fails :
    ∃ stream chunks₁ chunks₂, Cut stream chunks₁ ∧ Cut stream chunks₂ ∧
      queries chunks₁ = some [⟨12, 0, 0, .GET⟩] ∧ queries chunks₂ = some [⟨1, 0, 0, .GET⟩] :=
  ⟨['g', 'e', 't', ' ', '1', '2', '\n'], [['g', 'e', 't', ' ', '1', '2', '\n']],
    [['g', 'e', 't', ' ', '1'], ['2', '\n']], ⟨rfl, by decide⟩, ⟨rfl, by decide⟩, by decide, by decide⟩

end SphereMultithreading.Soundness.P6
