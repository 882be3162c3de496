import SphereMultithreading.Proofs.Buffers
import SphereMultithreading.Proofs.P7.Dictionary
import SphereMultithreading.Proofs.Scanf

/-! # The arrays behind a request suffice

The servers of p5 and p6 have a byte more than they ask `recv` for, and the one of p7 has not. The
conversion `%s` stores a word of any length. All other writes are inside: a dictionary has short words
only, and the replies are shorter than the buffers.
-/

namespace SphereMultithreading.Soundness

open Machine.Arrays Model.Buffers Model.Scanf Model.Stdio
open Model (Chunk)

/-- If all that follows is inside, it is the first word that decides. -/
theorem isSome_scanned_iff {β : Type} {n m : ℕ} (buffer : Vector Char m) (cmd : Vector Char n)
    {chunk : Chunk} (room : chunk.text.length < m) {rest : Vector Char m → Option β}
    (total : ∀ b, string b = cString chunk.text → WordFits n (cString chunk.text) → (rest b).isSome) :
    ((receive buffer chunk).bind fun b =>
      (scanString cmd (string b)).bind fun _ => rest b).isSome ↔
        WordFits n (cString chunk.text) := by
  obtain ⟨b, stored, same⟩ := store_of_lt buffer room
  rw [receive_eq_store, stored, Option.bind_some, same, ← isSome_scanString_iff cmd]
  constructor
  · exact Option.isSome_of_isSome_bind
  · intro scanned
    have fits := (isSome_scanString_iff cmd _).mp scanned
    obtain ⟨cmd', scanned⟩ := Option.isSome_iff_exists.mp scanned
    rw [scanned]
    exact total b same fits

namespace P5

open Model.P5

theorem isSome_clientEvent_iff (buffer : Buffer) (cmd : Vector Char cmdSize) (chunk : Chunk)
    (clientFd : ℕ) (rand : Fin numWorkers) :
    (clientEvent buffer cmd chunk clientFd rand).isSome ↔ WordFits cmdSize (cString chunk.text) := by
  apply isSome_scanned_iff buffer cmd (Nat.lt_succ_of_le chunk.length_le)
  intro b _ _
  split
  · rfl
  · rw [isSome_store_iff]
    decide
  · rfl

theorem isSome_replyEvent (buffer : Buffer) (msg : Message) (key value : Int32) :
    (replyEvent buffer { msg with key := key.toInt, value := value.toInt }).isSome := by
  have inside (known : msg.err ≤ 2) : (store buffer (processMessageFromWorker
      { msg with key := key.toInt, value := value.toInt } (string buffer))).isSome := by
    rw [isSome_store_iff]
    exact (length_processMessageFromWorker msg key value known _).trans_lt (by decide)
  rw [replyEvent]
  split
  · next known => exact inside (known.trans_le (by decide))
  · next known => exact inside (known.trans_le (by decide))
  · next known => exact inside known.le
  · rfl

end P5

namespace P6

open Model Model.P6

/-- The query is not one that the text for it leaves undefined. -/
theorem processQuery_ne_overflow {text : Text} (fits : WordFits cmdSize (cString text)) :
    processQuery (cString text) ≠ .overflow := by
  rw [processQuery, scanCommand_of_clean (zero_notMem_cString text)]
  cases scanned : scanWord (cString text) with
  | none => simp
  | some pair =>
    obtain ⟨cmd, rest⟩ := pair
    have short := fits cmd rest scanned
    dsimp only [Option.map_some]
    rw [if_neg (Nat.not_le.mpr short)]
    split_ifs <;> simp

theorem isSome_clientEvent_iff (buffer : Buffer) (cmd : Vector Char cmdSize) (chunk : Chunk)
    (int : ℤ → Int32) (table : Table) :
    (clientEvent buffer cmd chunk int table).isSome ↔ WordFits cmdSize (cString chunk.text) := by
  apply isSome_scanned_iff buffer cmd (Nat.lt_succ_of_le chunk.length_le)
  intro b same fits
  rw [same]
  split
  · rfl
  · rw [isSome_store_iff]
    decide
  · next query _ =>
    rw [isSome_store_iff]
    exact (length_answer query int (table (query.stored int))).trans_lt (by decide)
  · next overflow => exact absurd overflow (processQuery_ne_overflow fits)

end P6

namespace P7

open Model Model.P7 Model.P7.Trie LabelledTree Proofs.P7

/-- The words found in a dictionary fit a line of its file. -/
theorem short_words (dict : Dictionary) {start : Text} (nonempty : start ≠ []) {found : List Text}
    (answered : dict.trie.getWords start = some (.ok found)) :
    found.length ≤ numWords ∧ ∀ w ∈ found, w.length < lineSize - 1 := by
  obtain ⟨words, holds, short⟩ := holds_of_loadLoop holds_new dict.loaded
  rw [List.nil_append] at holds
  cases node : dict.trie.getNodePrefix start with
  | error e =>
    rw [getWords, node] at answered
    cases answered
  | ok p =>
    obtain ⟨startLetters, reached⟩ := follow_of_getNodePrefix node
    rw [getWords_of_reached holds.wellFormed startLetters reached] at answered
    cases answered
    refine ⟨List.length_take_le .., fun w member => ?_⟩
    have listed := List.mem_map_of_mem (f := letters) (List.mem_of_mem_take member)
    rw [collected holds nonempty reached, extensions, Finset.mem_sort, Finset.mem_filter,
      List.mem_toFinset] at listed
    obtain ⟨line, inWords, same⟩ := List.mem_map.mp listed.1
    have length : line.length = w.length := by simpa [letters] using congrArg List.length same
    rw [← length]
    exact short line inWords

theorem length_message {t : Trie} {p : ℕ} {start : Text} {error : TrieError}
    (thrown : t.prefixLoop p start = .error error) : error.message.toList.length ≤ 64 := by
  induction start generalizing p with
  | nil => cases thrown
  | cons ch rest ih =>
    rw [prefixLoop] at thrown
    split at thrown
    · next index =>
      cases thrown
      unfold getCharIndex at index
      split_ifs at index
      cases index
      simp
    · split at thrown
      · exact ih thrown
      · cases thrown
        decide

theorem length_message_of_getWords {t : Trie} {start : Text} {error : TrieError}
    (answered : t.getWords start = some (.error error)) : error.message.toList.length ≤ 64 := by
  rw [getWords] at answered
  split at answered
  · next thrown =>
    cases answered
    exact length_message thrown
  · obtain ⟨found, -, other⟩ := Option.map_eq_some_iff.mp answered
    cases other

/-- The text of an exception has room in `get_char_index`. -/
theorem throw_of_short (locals : Locals) {error : TrieError}
    (short : error.message.toList.length ≤ 64) : ∃ text, locals.throw error = some text := by
  have room : error.message.toList.length < messageSize := short.trans_lt (by decide)
  rw [Locals.throw]
  split
  · exact ⟨_, rfl⟩
  · obtain ⟨text, thrown, -⟩ := store_of_lt locals.message room
    exact ⟨text, thrown⟩

/-- The text a word is sent with. -/
def okText (word : Text) : Text := "OK: ".toList ++ word ++ "\n".toList

theorem sendWords_of_short (buffer : Buffer) (sent : List Text) {words : List Text}
    (short : ∀ w ∈ words, w.length < lineSize - 1) : ∃ b,
      sendWords buffer sent words = some (b, sent ++ words.map fun word => cString (okText word)) := by
  induction words generalizing buffer sent with
  | nil => exact ⟨buffer, by simp [sendWords]⟩
  | cons word words ih =>
    rw [List.forall_mem_cons] at short
    have room : (okText word).length < maxBufSize := by
      have inLine := short.1
      have limits : lineSize - 1 + 5 < maxBufSize := by decide
      simp only [okText, List.length_append]
      simp
      omega
    obtain ⟨b, stored, same⟩ := store_of_lt buffer room
    obtain ⟨last, others⟩ := ih b (sent ++ [cString (okText word)]) short.2
    refine ⟨last, ?_⟩
    rw [sendWords, ← okText, stored, Option.bind_eq_bind, Option.bind_some, same, others]
    simp

/-- What is looked up is what the model without arrays looks up. -/
theorem lookUp_of_fits (dict : Dictionary) (locals : Locals) (results : Results) {word rest : Text}
    (scanned : scanWord (string results.buffer) = some (word, rest)) (short : word.length < prefixSize) :
    (∃ error results', dict.trie.getWords word = some (.error error) ∧
      lookUp dict.trie locals results = some results' ∧ results'.err = 1 ∧
      string results'.buffer = cString ("FAIL: " ++ error.message ++ "\n").toList) ∨
    ∃ found results', dict.trie.getWords word = some (.ok found) ∧
      lookUp dict.trie locals results = some results' ∧ results'.err = 0 ∧
      string results'.buffer = cString "OK\n".toList ∧
      results'.words.toList.take results'.n = found := by
  obtain ⟨gap, -, whole, nonempty, -⟩ := scanWord_eq_some scanned
  have clean : '\x00' ∉ word := by
    intro zero
    refine zero_notMem_cString results.buffer.toList ?_
    rw [← string, whole]
    simp [zero]
  obtain ⟨start, kept, spelt⟩ := store_of_lt locals.start short
  rw [cString_eq_self clean] at spelt
  have begun : scanString locals.start (string results.buffer) = some start := by
    rw [scanString, scanned]
    exact kept
  obtain ⟨words, holds, -⟩ := holds_of_loadLoop holds_new dict.loaded
  obtain ⟨result, answered⟩ := getWords_total holds.wellFormed word
  cases result with
  | error error =>
    have message := length_message_of_getWords answered
    obtain ⟨text, thrown⟩ := throw_of_short locals message
    have room : ("FAIL: " ++ error.message ++ "\n").toList.length < maxBufSize := by
      simp only [maxBufSize]
      simp
      omega
    obtain ⟨buffer, stored, same⟩ := store_of_lt results.buffer room
    refine .inl ⟨error, { results with buffer := buffer, err := 1 }, answered, ?_, rfl, same⟩
    simp only [lookUp, scanned, begun, spelt, answered, thrown, stored, Option.bind_eq_bind,
      Option.bind_some]
  | ok found =>
    have few := (short_words dict nonempty answered).1
    have fits : 0 + found.length ≤ numWords := by omega
    obtain ⟨words', written, filled⟩ := writes_of_fits results.words fits
    have room : "OK\n".toList.length < maxBufSize := by decide
    obtain ⟨buffer, stored, same⟩ := store_of_lt results.buffer room
    refine .inr ⟨found, ⟨words', found.length, buffer, 0⟩, answered, ?_, rfl, same, ?_⟩
    · simp only [lookUp, scanned, begun, spelt, answered, written, stored, Option.bind_eq_bind,
        Option.bind_some]
    · rw [filled]
      simp

/-- An event whose chunk and first word fit is handled, and sends the texts of the model without arrays. -/
theorem clientEvent_of_fits (dict : Dictionary) (locals : Locals) (results : Results) {chunk : Chunk}
    (room : chunk.text.length < maxBufSize) (fits : WordFits prefixSize (cString chunk.text))
    {s : Server} (same : s.dict = dict.trie) (fd : ℕ) : ∃ buffer texts,
      clientEvent dict.trie locals results chunk = some (buffer, texts.map cString) ∧
        s.handle fd chunk.text = .ok (s.sendMessages fd texts) := by
  obtain ⟨b, stored, received⟩ := store_of_lt results.buffer room
  have parsed : scanCommand 0 chunk.text =
      (scanWord (cString chunk.text)).map fun pair => (pair.1, scanInts 0 pair.2) := rfl
  rw [Server.handle, if_pos room, Server.processMessageFromClient, parsed, same]
  simp only [clientEvent, receive_eq_store, stored, Option.bind_eq_bind, Option.bind_some]
  cases scanned : scanWord (cString chunk.text) with
  | none =>
    refine ⟨b, [], ?_, ?_⟩
    · simp [lookUp, received, scanned]
    · simp [Server.sendMessages, Except.map]
  | some pair =>
    obtain ⟨word, rest⟩ := pair
    have short := fits word rest scanned
    dsimp only [Option.map_some]
    rw [if_neg (Nat.not_le.mpr short)]
    rcases lookUp_of_fits dict locals { results with buffer := b } (received ▸ scanned) short with
      ⟨error, results', answered, looked, err, text⟩ |
        ⟨found, results', answered, looked, err, text, words⟩
    · rw [answered, looked]
      refine ⟨results'.buffer, [("FAIL: " ++ error.message ++ "\n").toList], ?_, rfl⟩
      simp only [Option.bind_some, err, text]
      rfl
    · obtain ⟨gap, -, whole, nonempty, -⟩ := scanWord_eq_some scanned
      have inLines := (short_words dict nonempty answered).2
      obtain ⟨last, sent⟩ := sendWords_of_short results'.buffer [cString "OK\n".toList] inLines
      rw [answered, looked]
      refine ⟨last, "OK\n".toList :: found.map okText, ?_, rfl⟩
      simp only [Option.bind_some, err, text, words, sent]
      simp

theorem wordFits_of_lookUp {dict : Trie} {locals : Locals} {results : Results}
    (looked : (lookUp dict locals results).isSome) : WordFits prefixSize (string results.buffer) := by
  rw [lookUp] at looked
  split at looked
  · next none =>
    intro word rest scanned
    simp [none] at scanned
  · exact (isSome_scanString_iff locals.start _).mp (Option.isSome_of_isSome_bind looked)

theorem isSome_clientEvent_iff (dict : Dictionary) (locals : Locals) (results : Results)
    (chunk : Chunk) : (clientEvent dict.trie locals results chunk).isSome ↔
      chunk.text.length < maxBufSize ∧ WordFits prefixSize (cString chunk.text) := by
  constructor
  · intro handled
    rw [clientEvent, receive_eq_store] at handled
    have room := (isSome_store_iff _ _).mp (Option.isSome_of_isSome_bind handled)
    obtain ⟨b, stored, received⟩ := store_of_lt results.buffer room
    rw [stored, Option.bind_eq_bind, Option.bind_some] at handled
    have fits := wordFits_of_lookUp (Option.isSome_of_isSome_bind handled)
    rw [received] at fits
    exact ⟨room, fits⟩
  · rintro ⟨room, fits⟩
    obtain ⟨buffer, texts, handled, -⟩ :=
      clientEvent_of_fits dict locals results room fits (s := ⟨dict.trie, []⟩) rfl 0
    rw [handled]
    rfl

end P7

open Model

/-- For every chunk and whatever the arrays, the table and the dictionary hold: the writes of p5 and p6 are
all inside exactly when the first word fits `cmd`, those of a reply of p5 always, and those of p7 exactly
when the terminator behind the chunk is inside as well. -/
theorem writes_inside_iff (chunk : Chunk) :
    (∀ (buffer : P5.Buffer) (cmd : Vector Char P5.cmdSize) (clientFd : ℕ) (rand : Fin P5.numWorkers),
      (P5.clientEvent buffer cmd chunk clientFd rand).isSome ↔
        WordFits P5.cmdSize (cString chunk.text)) ∧
    (∀ (buffer : P5.Buffer) (msg : P5.Message) (key value : Int32),
      (P5.replyEvent buffer { msg with key := key.toInt, value := value.toInt }).isSome) ∧
    (∀ (buffer : P6.Buffer) (cmd : Vector Char P6.cmdSize) (int : ℤ → Int32) (table : P6.Table),
      (P6.clientEvent buffer cmd chunk int table).isSome ↔
        WordFits P6.cmdSize (cString chunk.text)) ∧
    ∀ (dict : P7.Dictionary) (locals : P7.Locals) (results : P7.Results),
      (P7.clientEvent dict.trie locals results chunk).isSome ↔
        chunk.text.length < maxBufSize ∧ WordFits P7.prefixSize (cString chunk.text) :=
  ⟨fun buffer cmd => P5.isSome_clientEvent_iff buffer cmd chunk, P5.isSome_replyEvent,
    fun buffer cmd => P6.isSome_clientEvent_iff buffer cmd chunk,
    fun dict locals results => P7.isSome_clientEvent_iff dict locals results chunk⟩

/-- A word of as many letters as `cmd` has bytes. -/
def longWord : Chunk := ⟨List.replicate P6.cmdSize 'a', by decide, by decide⟩

/-- As many bytes as the server of p7 asks for. -/
def fullChunk : Chunk := ⟨List.replicate maxBufSize '\n', by decide, by simp⟩

/-- The terminator of the word is behind `cmd`, and that of the chunk behind the buffer of p7. -/
theorem writes_inside_fails :
    P5.clientEvent (.replicate _ 'x') (.replicate _ 'x') longWord 5 0 = none ∧
    P6.clientEvent (.replicate _ 'x') (.replicate _ 'x') longWord (fun _ => 0)
      (fun _ => .ok none) = none ∧
    P7.clientEvent .new ⟨.replicate _ 'x', .replicate _ 'x'⟩
      ⟨.replicate _ [], 0, .replicate _ 'x', 0⟩ fullChunk = none := by
  have long : ¬ WordFits P6.cmdSize (cString longWord.text) := fun fits =>
    absurd (fits (List.replicate P6.cmdSize 'a') [] (by decide)) (by decide)
  refine ⟨?_, ?_, ?_⟩
  · rw [← Option.not_isSome_iff_eq_none, P5.isSome_clientEvent_iff]
    exact long
  · rw [← Option.not_isSome_iff_eq_none, P6.isSome_clientEvent_iff]
    exact long
  · rw [← Option.not_isSome_iff_eq_none]
    intro handled
    have room := ((P7.isSome_clientEvent_iff ⟨[], .new, Proofs.P7.loadLoop_nil .new⟩ _ _ _).mp handled).1
    simp [fullChunk] at room

end SphereMultithreading.Soundness
