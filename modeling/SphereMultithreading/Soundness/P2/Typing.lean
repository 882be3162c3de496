import SphereMultithreading.Machine.Run
import SphereMultithreading.Model.P2.Client
import SphereMultithreading.Proofs.Stdio

/-! # What the chat client sends of what is typed

A line is read in pieces, as it arrives and as it fits the buffer. Behind pieces of a line its newline
may come alone, and is then taken for an empty line.
-/

namespace SphereMultithreading.Soundness.P2

open Machine Model Model.P2 Model.Scanf Model.Stdio

variable {c c' : Client} {typed : Text}

/-- What was sent and what is held are the lines that were read, but for the empty ones, and what was
read of a line that has begun. -/
def Spoken (c : Client) : Prop :=
  ∀ lines begun, (∀ line ∈ lines, '\n' ∉ line) → '\n' ∉ begun → c.read = unlines lines ++ begun →
    c.sent ++ c.message.text = unlines (lines.filter fun line => line ≠ []) ++ begun

/-- `fgets` finds a newline in front of the stream only where no line has begun. -/
def Whole (c : Client) : Client.Action → Prop
  | .recvMessageFromStdin => c.stdin.head? = some '\n' → c.read = [] ∨ c.read.getLast? = some '\n'
  | _ => True

instance (c : Client) (a : Client.Action) : Decidable (Whole c a) := by
  cases a <;> unfold Whole <;> infer_instance

/-! ## A turn of the loop -/

/-- A piece is read, and kept unless it is a newline alone. -/
structure Received (c : Client) (piece : Text) (c' : Client) : Prop where
  stdin : piece ++ c'.stdin = c.stdin
  coming : c'.coming = c.coming
  read : c'.read = c.read ++ piece
  sent : c'.sent = c.sent
  text : c'.message.text = c.message.text ++ if piece = ['\n'] then [] else piece
  fits : piece.length ≤ buffSize
  ends : (∃ front, '\n' ∉ front ∧ piece = front ++ ['\n']) ∨
    ('\n' ∉ piece ∧ (c'.stdin = [] ∨ piece.length = buffSize))

theorem received_of_recv (clean : '\x00' ∉ c.stdin) (writable : Bool) :
    ∃ piece c', c.recvMessageFromStdin writable = some c' ∧ Received c piece c' := by
  unfold Client.recvMessageFromStdin
  cases taken : fgets (buffSize + 1) c.stdin with
  | none =>
    have empty := fgets_eq_none taken
    refine ⟨[], _, rfl, rfl, rfl, (List.append_nil _).symm, rfl, ?_, Nat.zero_le _,
      .inr ⟨List.not_mem_nil, .inl empty⟩⟩
    rw [if_neg (by decide)]
    exact (List.append_nil _).symm
  | some result =>
    obtain ⟨piece, rest⟩ := result
    obtain ⟨more, line⟩ := fgets_eq_some taken
    rw [Nat.add_sub_cancel] at line
    have whole := takeLine_append buffSize c.stdin
    have fits := length_takeLine_le buffSize c.stdin
    have ends := takeLine_cases buffSize c.stdin
    rw [line] at whole fits ends
    have string : cString piece = piece := cString_eq_self fun member =>
      clean (whole ▸ List.mem_append_left _ member)
    simp only [string]
    by_cases newline : piece = ['\n']
    · rw [if_pos newline]
      exact ⟨piece, _, rfl, whole, rfl, rfl, rfl, by rw [if_pos newline, List.append_nil], fits, ends⟩
    · rw [if_neg newline]
      cases last : piece.getLast? with
      | none =>
        -- `fgets` returns at least one character
        have shorter := length_fgets_lt (by decide) taken
        rw [← whole, List.getLast?_eq_none_iff.mp last] at shorter
        exact absurd shorter (Nat.lt_irrefl _)
      | some d =>
        have text : (c.message.append piece).text =
            c.message.text ++ if piece = ['\n'] then [] else piece := by
          rw [if_neg newline, Message.text_append]
        by_cases ended : d = '\n'
        · exact ⟨piece, _, congrArg some (if_pos ended), whole, rfl, rfl, rfl, text, fits, ends⟩
        · exact ⟨piece, _, congrArg some (if_neg ended), whole, rfl, rfl, rfl, text, fits, ends⟩

/-- A newline in front of the stream is a piece of its own. -/
theorem Received.alone {piece : Text} (received : Received c piece c')
    (front : c.stdin.head? = some '\n') : piece = ['\n'] := by
  rw [← received.stdin] at front
  cases piece with
  | nil =>
    rcases received.ends with ⟨front, -, same⟩ | ⟨-, empty | full⟩
    · simp at same
    · rw [empty] at front
      cases front
    · cases full
  | cons d piece =>
    obtain rfl : d = '\n' := Option.some.inj front
    rcases received.ends with ⟨front, inside, same⟩ | ⟨inside, -⟩
    · cases front with
      | nil => exact same
      | cons e front =>
        obtain rfl : '\n' = e := (List.cons.inj same).1
        exact absurd (List.mem_cons_self ..) inside
    · exact absurd (List.mem_cons_self ..) inside

theorem spoken_sendMessage (c : Client) (writable : Bool) :
    (c.sendMessage writable).sent ++ (c.sendMessage writable).message.text =
      c.sent ++ c.message.text := by
  rw [Client.sendMessage]
  split
  · exact List.append_nil _
  · rfl

/-- What a step does to the texts: more arrives, a piece is received, or nothing but that what is held
may be sent. -/
theorem step_cases {a : Client.Action} (clean : '\x00' ∉ c.stdin) (stepped : Client.step c a = some c') :
    (∃ n, a = .arrive n ∧ c' = c.arrive n) ∨
    (a = .recvMessageFromStdin ∧ ∃ piece, Received c piece c') ∨
    (a ≠ .recvMessageFromStdin ∧ c'.stdin = c.stdin ∧ c'.coming = c.coming ∧ c'.read = c.read ∧
      c'.sent ++ c'.message.text = c.sent ++ c.message.text) := by
  cases a with
  | arrive n => exact .inl ⟨n, rfl, (Option.some.inj stepped).symm⟩
  | select writable =>
    rw [Client.step] at stepped
    split at stepped
    · cases stepped
      exact .inr (.inr ⟨nofun, rfl, rfl, rfl, rfl⟩)
    · cases stepped
  | recvMessageFromStdin =>
    rw [Client.step] at stepped
    split at stepped
    · next writable at_ =>
      obtain ⟨piece, next, success, received⟩ := received_of_recv clean writable
      obtain rfl := Option.some.inj (success.symm.trans stepped)
      exact .inr (.inl ⟨rfl, piece, received⟩)
    · cases stepped
  | sendMessage =>
    rw [Client.step] at stepped
    split at stepped
    · next writable at_ =>
      cases stepped
      refine .inr (.inr ⟨nofun, ?_, ?_, ?_, spoken_sendMessage c writable⟩)
      all_goals
        rw [Client.sendMessage]
        split <;> rfl
    · cases stepped

/-! ## Whole runs -/

/-- Nothing is lost on the way to `read`. -/
theorem whole_step {a : Client.Action} (clean : '\x00' ∉ c.stdin) (stepped : Client.step c a = some c') :
    c'.read ++ c'.stdin ++ c'.coming = c.read ++ c.stdin ++ c.coming := by
  rcases step_cases clean stepped with
    ⟨n, -, rfl⟩ | ⟨-, piece, received⟩ | ⟨-, stdin, coming, read, -⟩
  · change c.read ++ (c.stdin ++ c.coming.take n) ++ c.coming.drop n = _
    rw [List.append_assoc, List.append_assoc c.stdin, List.take_append_drop, List.append_assoc]
  · rw [received.read, received.coming, ← received.stdin, List.append_assoc c.read]
  · rw [read, stdin, coming]

theorem notMem_stdin (whole : c.read ++ c.stdin ++ c.coming = typed) (zeros : '\x00' ∉ typed) :
    '\x00' ∉ c.stdin := by
  intro member
  apply zeros
  rw [← whole]
  exact List.mem_append_left _ (List.mem_append_right _ member)

theorem whole_of_run (zeros : '\x00' ∉ typed) {actions : List Client.Action}
    (success : Machine.run Client.step (.init typed) actions = some c) :
    c.read ++ c.stdin ++ c.coming = typed := by
  refine run_preserves (I := fun c => c.read ++ c.stdin ++ c.coming = typed) ?_ success rfl
  intro c a c' stepped whole
  exact (whole_step (notMem_stdin whole zeros) stepped).trans whole

/-- What was read is kept. -/
structure Typing (typed : Text) (c : Client) : Prop where
  whole : c.read ++ c.stdin ++ c.coming = typed
  spoken : ∃ lines begun, (∀ line ∈ lines, '\n' ∉ line) ∧ '\n' ∉ begun ∧
    c.read = unlines lines ++ begun ∧
    c.sent ++ c.message.text = unlines (lines.filter fun line => line ≠ []) ++ begun

theorem Typing.init (typed : Text) : Typing typed (.init typed) :=
  ⟨rfl, [], [], List.forall_mem_nil _, List.not_mem_nil, rfl, rfl⟩

theorem Typing.isSpoken (typing : Typing typed c) : Spoken c := by
  obtain ⟨lines, begun, newlines, clean, read, spoken⟩ := typing.spoken
  intro lines' begun' newlines' clean' read'
  obtain ⟨rfl, rfl⟩ := unlines_append_inj newlines newlines' clean clean' (read.symm.trans read')
  exact spoken

/-- What was read ends with a line exactly if no other has begun. -/
theorem ended_iff {lines : List Text} {begun : Text} (clean : '\n' ∉ begun) :
    (unlines lines ++ begun = [] ∨ (unlines lines ++ begun).getLast? = some '\n') ↔ begun = [] := by
  constructor
  · rintro (empty | last)
    · exact (List.append_eq_nil_iff.mp empty).2
    · by_contra more
      rw [List.getLast?_append_of_ne_nil _ more] at last
      exact clean (List.mem_of_getLast? last)
  · rintro rfl
    rw [List.append_nil]
    rcases lines.eq_nil_or_concat with rfl | ⟨lines, line, rfl⟩
    · exact .inl rfl
    · right
      rw [List.concat_eq_append, unlines_append, unlines_singleton, ← List.append_assoc,
        List.getLast?_concat]

theorem Typing.step {a : Client.Action} (zeros : '\x00' ∉ typed) (typing : Typing typed c)
    (stepped : Client.step c a = some c') (allowed : Whole c a) : Typing typed c' := by
  have clean := notMem_stdin typing.whole zeros
  refine ⟨(whole_step clean stepped).trans typing.whole, ?_⟩
  obtain ⟨lines, begun, newlines, inside, read, spoken⟩ := typing.spoken
  rcases step_cases clean stepped with
    ⟨n, rfl, rfl⟩ | ⟨rfl, piece, received⟩ | ⟨-, -, -, same, held⟩
  · exact typing.spoken
  · have kept : c'.sent ++ c'.message.text =
        unlines (lines.filter fun line => line ≠ []) ++
          (begun ++ if piece = ['\n'] then [] else piece) := by
      rw [received.sent, received.text, ← List.append_assoc, spoken, List.append_assoc]
    rcases received.ends with ⟨front, more, rfl⟩ | ⟨more, -⟩
    · -- the line that has begun ends
      have line : '\n' ∉ begun ++ front := fun member =>
        (List.mem_append.mp member).elim inside more
      refine ⟨lines ++ [begun ++ front], [],
        List.forall_mem_append.mpr ⟨newlines, List.forall_mem_singleton.mpr line⟩,
        List.not_mem_nil, ?_, ?_⟩
      · rw [received.read, read, unlines_append, List.append_nil, unlines_singleton]
        simp only [List.append_assoc]
      · rw [kept, List.filter_append, unlines_append, List.append_nil]
        refine congrArg (_ ++ ·) ?_
        by_cases alone : front = []
        · -- its newline alone: then nothing has begun
          subst alone
          obtain rfl := (ended_iff inside).mp (read ▸ allowed (received.stdin ▸ rfl))
          rfl
        · simp [alone, unlines_singleton]
    · have other : piece ≠ ['\n'] := by
        rintro rfl
        exact more (List.mem_singleton.mpr rfl)
      refine ⟨lines, begun ++ piece, newlines, fun member =>
        (List.mem_append.mp member).elim inside more, ?_, ?_⟩
      · rw [received.read, read, List.append_assoc]
      · rw [kept, if_neg other]
  · exact ⟨lines, begun, newlines, inside, same.trans read, held.trans spoken⟩

/-- The newline of a line that has begun is lost when it comes alone. -/
theorem Typing.whole_of_spoken {a : Client.Action} (zeros : '\x00' ∉ typed) (typing : Typing typed c)
    (stepped : Client.step c a = some c') (good : Spoken c') : Whole c a := by
  rcases step_cases (notMem_stdin typing.whole zeros) stepped with
    ⟨n, rfl, rfl⟩ | ⟨rfl, piece, received⟩ | ⟨other, -⟩
  · trivial
  · intro first
    obtain rfl := received.alone first
    obtain ⟨lines, begun, newlines, inside, read, spoken⟩ := typing.spoken
    rw [read, ended_iff inside]
    have grown : c'.read = unlines (lines ++ [begun]) ++ [] := by
      rw [received.read, read, unlines_append, unlines_singleton, List.append_nil,
        List.append_assoc]
    have kept := good (lines ++ [begun]) []
      (List.forall_mem_append.mpr ⟨newlines, List.forall_mem_singleton.mpr inside⟩)
      List.not_mem_nil grown
    rw [received.sent, received.text, if_pos rfl, List.append_nil, spoken, List.filter_append,
      unlines_append, List.append_nil, List.append_cancel_left_eq] at kept
    by_contra more
    have longer := congrArg List.length kept
    simp [more, unlines_singleton] at longer
  · cases a with
    | recvMessageFromStdin => exact absurd rfl other
    | _ => trivial

theorem throughout_spoken_iff (zeros : '\x00' ∉ typed) {actions : List Client.Action}
    (success : Machine.run Client.step (.init typed) actions = some c) :
    Throughout Client.step Spoken (.init typed) actions ↔ Guarded Client.step Whole (.init typed) actions :=
  throughout_iff_guarded (I := Typing typed) (fun _ typing => typing.isSpoken)
    (fun _ _ _ stepped typing allowed => typing.step zeros stepped allowed)
    (fun _ _ _ stepped typing good => typing.whole_of_spoken zeros stepped good) success
    (.init typed)

/-- However what is typed arrives, and whether the socket can be written to or not: in every state what
was sent and is held are the lines that were read, without the empty ones, exactly if no newline of a
line that has begun came alone. No other character is lost, and `fgets` can always go on. -/
theorem typed_iff (zeros : '\x00' ∉ typed) {actions : List Client.Action}
    (success : Machine.run Client.step (.init typed) actions = some c) :
    (Throughout Client.step Spoken (.init typed) actions ↔ Guarded Client.step Whole (.init typed) actions) ∧
      c.read ++ c.stdin ++ c.coming = typed ∧
      ∀ writable, c.position = .recvMessageFromStdin writable →
        ∃ next, Client.step c .recvMessageFromStdin = some next := by
  have whole := whole_of_run zeros success
  refine ⟨throughout_spoken_iff zeros success, whole, ?_⟩
  intro writable position
  obtain ⟨-, next, success, -⟩ := received_of_recv (notMem_stdin whole zeros) writable
  exact ⟨next, by rw [Client.step, position]; exact success⟩

/-- Three lines, the second one empty. -/
def greeting : Text := unlines [['h', 'i'], [], ['y', 'o']]

/-- The first line arrives in two portions. -/
def portions : List Client.Action :=
  [.arrive 1, .select false, .recvMessageFromStdin, .arrive 3, .recvMessageFromStdin, .sendMessage,
    .select true, .recvMessageFromStdin, .sendMessage]

theorem typed_greeting : Throughout Client.step Spoken (.init greeting) portions := by
  obtain ⟨c, success⟩ : ∃ c, Machine.run Client.step (.init greeting) portions = some c := ⟨_, rfl⟩
  exact (typed_iff (by decide) success).1.mpr (by decide)

theorem not_spoken {line : Text} (inside : '\n' ∉ line) (filled : line ≠ [])
    (read : c.read = unlines [line]) (lost : c.sent ++ c.message.text = line) : ¬ Spoken c := by
  intro spoken
  have kept := spoken [line] [] (List.forall_mem_singleton.mpr inside) List.not_mem_nil
    (by rw [read, List.append_nil])
  have longer := congrArg List.length (lost.symm.trans kept)
  simp [filled, unlines_singleton] at longer

/-- A line that fills the buffer. -/
def full : Text := List.replicate buffSize 'a'

/-- A line that is typed as a whole, read in two pieces and sent. -/
def atOnce (line : Text) : List Client.Action :=
  [.arrive (line.length + 1), .select true, .recvMessageFromStdin, .recvMessageFromStdin, .sendMessage]

/-- Its newline arrives when the rest has been sent. -/
def newlineLate (line : Text) : List Client.Action :=
  [.arrive line.length, .select true, .recvMessageFromStdin, .recvMessageFromStdin, .sendMessage,
    .arrive 1, .select true, .recvMessageFromStdin, .sendMessage]

/-- The newline of a line that fills the buffer is lost, and that of any line which arrives late. -/
theorem typed_fails :
    (∃ c, Machine.run Client.step (.init (unlines [full])) (atOnce full) = some c ∧
      c.read = unlines [full] ∧ c.sent = full ∧ ¬ Spoken c) ∧
    ∃ c, Machine.run Client.step (.init (unlines [['a', 'b']])) (newlineLate ['a', 'b']) = some c ∧
      c.read = unlines [['a', 'b']] ∧ c.sent = ['a', 'b'] ∧ ¬ Spoken c := by
  constructor
  · have ran : (Machine.run Client.step (.init (unlines [full])) (atOnce full)).map
        (fun c => (c.read, c.sent, c.message)) = some (unlines [full], full, .empty) := by
      decide +kernel
    obtain ⟨c, success, same⟩ := Option.map_eq_some_iff.mp ran
    simp only [Prod.mk.injEq] at same
    obtain ⟨read, sent, message⟩ := same
    refine ⟨c, success, read, sent, not_spoken ?_ ?_ read ?_⟩
    · exact fun member => absurd (List.eq_of_mem_replicate member) (by decide)
    · exact List.ne_nil_of_length_eq_add_one List.length_replicate
    · rw [sent, message]
      exact List.append_nil _
  · exact ⟨_, rfl, rfl, rfl, not_spoken (by decide) (by decide) rfl rfl⟩

/-! ## Lines that are there as a whole -/

/-- The lines are typed before the client looks for them. -/
def here (lines : List Text) : Client := { Client.init [] with stdin := unlines lines }

/-- The length of no line that was read, but for the empty ones, is a multiple of that of the
buffer. -/
def Uneven (c : Client) : Prop :=
  ∀ lines begun, (∀ line ∈ lines, '\n' ∉ line) → '\n' ∉ begun → c.read = unlines lines ++ begun →
    ∀ line ∈ lines, line.length % buffSize = 0 → line = []

/-- What was read of a line that has begun are pieces that fill the buffer. -/
structure Filled (before after : List Text) (begun : Text) (c : Client) : Prop where
  newlines : ∀ line ∈ before ++ after, '\n' ∉ line
  inside : '\n' ∉ begun
  read : c.read = unlines before ++ begun
  stdin : begun ++ c.stdin = unlines after
  coming : c.coming = []
  full : begun.length % buffSize = 0

theorem Filled.uneven_iff {before after : List Text} {begun : Text}
    (filled : Filled before after begun c) :
    Uneven c ↔ ∀ line ∈ before, line.length % buffSize = 0 → line = [] := by
  have newlines := (List.forall_mem_append.mp filled.newlines).1
  constructor
  · exact fun uneven => uneven before begun newlines filled.inside filled.read
  · intro even lines begun' newlines' inside' read
    obtain ⟨rfl, -⟩ := unlines_append_inj newlines newlines' filled.inside inside'
      (filled.read.symm.trans read)
    exact even

/-- A piece either fills the buffer, or ends a line whose length is that of the piece but for pieces
that fill the buffer. -/
theorem Filled.received {before after : List Text} {begun piece : Text}
    (filled : Filled before after begun c) (received : Received c piece c') :
    (Whole c .recvMessageFromStdin ∧ Filled before after (begun ++ piece) c') ∨
      ∃ line later, Filled (before ++ [line]) later [] c' ∧
        (Whole c .recvMessageFromStdin ↔ (line.length % buffSize = 0 → line = [])) := by
  have left := filled.stdin
  rw [← received.stdin, ← List.append_assoc] at left
  have read := received.read
  rw [filled.read, List.append_assoc] at read
  have coming := received.coming.trans filled.coming
  rcases received.ends with ⟨front, inside, rfl⟩ | ⟨inside, full⟩
  · have joined : '\n' ∉ begun ++ front := fun member =>
      (List.mem_append.mp member).elim filled.inside inside
    rw [← List.append_assoc, List.append_assoc (begun ++ front)] at left
    cases after with
    | nil => simp [unlines] at left
    | cons line later =>
      have newlines := filled.newlines
      obtain ⟨rfl, rest⟩ := append_newline_inj joined (newlines line (by simp))
        (left.trans (unlines_cons line later))
      refine .inr ⟨begun ++ front, later, ⟨?_, List.not_mem_nil, ?_, rest, coming, rfl⟩, ?_⟩
      · rwa [List.append_assoc]
      · rw [read, unlines_append, unlines_singleton, List.append_nil, List.append_assoc begun]
      · -- the newline comes alone when only full pieces were read before
        have alone : c.stdin.head? = some '\n' ↔ front = [] := by
          rw [← received.stdin]
          cases front with
          | nil => simp
          | cons d front =>
            rw [List.mem_cons, not_or] at inside
            simpa using Ne.symm inside.1
        have short := received.fits
        rw [List.length_append, List.length_singleton] at short
        have rest : (begun ++ front).length % buffSize = front.length := by
          rw [List.length_append, Nat.add_mod, filled.full, Nat.zero_add, Nat.mod_mod,
            Nat.mod_eq_of_lt short]
        change (c.stdin.head? = some '\n' → _) ↔ _
        rw [alone, filled.read, ended_iff filled.inside, rest, List.length_eq_zero_iff,
          List.append_eq_nil_iff]
        exact ⟨fun nothing empty => ⟨nothing empty, empty⟩, fun nothing empty => (nothing empty).1⟩
  · have joined : '\n' ∉ begun ++ piece := fun member =>
      (List.mem_append.mp member).elim filled.inside inside
    refine .inl ⟨fun front => ?_, filled.newlines, joined, read, left, coming, ?_⟩
    · rw [received.alone front] at inside
      exact absurd (List.mem_singleton.mpr rfl) inside
    · rcases full with empty | full
      · -- the stream ended with a line
        rw [empty, List.append_nil] at left
        cases after with
        | nil => rw [left]; rfl
        | cons line later =>
          rw [left, unlines_cons] at joined
          simp at joined
      · rw [List.length_append, full, Nat.add_mod_right, filled.full]

theorem Filled.step {before after : List Text} {begun : Text} {a : Client.Action}
    (filled : Filled before after begun c) (zeros : '\x00' ∉ c.stdin) (stepped : Client.step c a = some c') :
    ∃ before' after' begun', Filled before' after' begun' c' ∧ (Uneven c → (Uneven c' ↔ Whole c a)) := by
  have same (stdin : c'.stdin = c.stdin) (coming : c'.coming = c.coming) (read : c'.read = c.read) :
      Filled before after begun c' :=
    ⟨filled.newlines, filled.inside, read.trans filled.read, stdin ▸ filled.stdin,
      coming.trans filled.coming, filled.full⟩
  rcases step_cases zeros stepped with
    ⟨n, rfl, rfl⟩ | ⟨rfl, piece, received⟩ | ⟨other, stdin, coming, read, -⟩
  · refine ⟨before, after, begun, same ?_ ?_ rfl, fun even => iff_of_true even trivial⟩
    · change c.stdin ++ c.coming.take n = c.stdin
      rw [filled.coming, List.take_nil, List.append_nil]
    · change c.coming.drop n = c.coming
      rw [filled.coming, List.drop_nil]
  · rcases filled.received received with ⟨whole, filled'⟩ | ⟨line, later, filled', whole⟩
    · refine ⟨before, after, begun ++ piece, filled', fun even => ?_⟩
      exact iff_of_true (filled'.uneven_iff.mpr (filled.uneven_iff.mp even)) whole
    · refine ⟨before ++ [line], later, [], filled', fun even => ?_⟩
      rw [filled'.uneven_iff, whole, List.forall_mem_append, List.forall_mem_singleton]
      exact and_iff_right (filled.uneven_iff.mp even)
  · refine ⟨before, after, begun, same stdin coming read, fun even => iff_of_true ?_ ?_⟩
    · rwa [Uneven, read]
    · cases a with
      | recvMessageFromStdin => exact absurd rfl other
      | _ => trivial

/-- Where the lines are there before they are read, a newline comes alone exactly behind a line whose
length is a multiple of that of the buffer. -/
theorem whole_iff_uneven {lines : List Text} (newlines : ∀ line ∈ lines, '\n' ∉ line)
    (zeros : '\x00' ∉ unlines lines) {actions : List Client.Action}
    (success : Machine.run Client.step (here lines) actions = some c) :
    Guarded Client.step Whole (here lines) actions ↔ Throughout Client.step Uneven (here lines) actions := by
  let I (c : Client) := Uneven c ∧ c.read ++ c.stdin ++ c.coming = unlines lines ∧
    ∃ before after begun, Filled before after begun c
  have kept (c : Client) (a : Client.Action) (c' : Client) (stepped : Client.step c a = some c') (I : I c) :
      (Uneven c' ↔ Whole c a) ∧ c'.read ++ c'.stdin ++ c'.coming = unlines lines ∧
        ∃ before after begun, Filled before after begun c' := by
    obtain ⟨even, whole, before, after, begun, filled⟩ := I
    have clean := notMem_stdin whole zeros
    obtain ⟨before', after', begun', filled', iff⟩ := filled.step clean stepped
    exact ⟨iff even, (whole_step clean stepped).trans whole, before', after', begun', filled'⟩
  have first : Filled [] lines [] (here lines) :=
    ⟨newlines, List.not_mem_nil, rfl, rfl, rfl, rfl⟩
  symm
  refine throughout_iff_guarded (I := I) (fun _ I => I.1)
    (fun s a t stepped I allowed => ?_) (fun s a t stepped I even => ?_) success
    ⟨first.uneven_iff.mpr (List.forall_mem_nil _), List.append_nil _, [], lines, [], first⟩
  · obtain ⟨iff, rest⟩ := kept s a t stepped I
    exact ⟨iff.mpr allowed, rest⟩
  · exact (kept s a t stepped I).1.mp even

end SphereMultithreading.Soundness.P2
