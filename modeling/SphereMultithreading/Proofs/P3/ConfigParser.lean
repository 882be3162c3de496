import SphereMultithreading.Model.P3.ConfigParser

/-! # What the parser reads of a configuration

A text is cut into lines and a line into fields at the characters the readers look for. The parser
reads the fields in their order. A field without its colon has no port of its own, and the parser
then reads once more the port it read last.
-/

namespace SphereMultithreading.Model.P3

open Scanf Iostream

/-! ## Cutting a text -/

/-- What stands before the first delimiter, and what stands behind it. -/
def cutAt (delim : Char) (text : Text) : Text × Option Text :=
  (text.takeWhile (· ≠ delim), (text.dropWhile (· ≠ delim)).tail?)

theorem cutAt_of_notMem {delim : Char} {text : Text} (absent : delim ∉ text) :
    cutAt delim text = (text, none) := by
  have all : ∀ c ∈ text, decide (c ≠ delim) = true := fun c member =>
    decide_eq_true fun same => absent (same ▸ member)
  rw [cutAt, List.takeWhile_eq_self_iff.mpr all, List.dropWhile_eq_nil_iff.mpr all]
  rfl

theorem cutAt_append {delim : Char} {taken : Text} (absent : delim ∉ taken) (rest : Text) :
    cutAt delim (taken ++ delim :: rest) = (taken, some rest) := by
  have all : ∀ c ∈ taken, decide (c ≠ delim) = true := fun c member =>
    decide_eq_true fun same => absent (same ▸ member)
  rw [cutAt, List.takeWhile_append_of_pos all, List.dropWhile_append_of_pos all,
    List.takeWhile_cons_of_neg (by simp), List.dropWhile_cons_of_neg (by simp), List.append_nil]
  rfl

/-- There is no other text to cut. -/
theorem cut_cases (delim : Char) (text : Text) :
    delim ∉ text ∨ ∃ taken rest, delim ∉ taken ∧ text = taken ++ delim :: rest := by
  by_cases member : delim ∈ text
  · obtain ⟨taken, rest, whole, absent⟩ := List.eq_append_cons_of_mem member
    exact .inr ⟨taken, rest, absent, whole⟩
  · exact .inl member

theorem length_cutAt_lt {delim : Char} {text rest : Text}
    (cut : (cutAt delim text).2 = some rest) : rest.length < text.length := by
  rcases cut_cases delim text with absent | ⟨taken, rest', absent, rfl⟩
  · rw [cutAt_of_notMem absent] at cut
    cases cut
  · rw [cutAt_append absent] at cut
    cases cut
    rw [List.length_append, List.length_cons]
    omega

/-- The stream behind a cut. -/
def streamOf : Option Text → Stream
  | none => .ended
  | some rest => .reading rest

theorem getline_reading (delim : Char) (text str : Text) :
    getline delim (.reading text) str = (streamOf (cutAt delim text).2, (cutAt delim text).1) := by
  rw [getline, List.span_eq_takeWhile_dropWhile, cutAt]
  cases text.dropWhile (· ≠ delim) <;> rfl

theorem splitOn_eq_cutAt (delim : Char) (text : Text) :
    text.splitOn delim = (cutAt delim text).1 ::
      match (cutAt delim text).2 with
      | none => []
      | some rest => rest.splitOn delim := by
  rcases cut_cases delim text with absent | ⟨taken, rest, absent, rfl⟩
  · rw [cutAt_of_notMem absent, List.splitOn_eq_singleton absent]
  · rw [cutAt_append absent, List.splitOn_append_cons_self_of_not_mem absent]

/-! ## Lines and their fields -/

/-- What is written about a server: its address, and its port if there is a colon. -/
structure Field where
  address : Text
  port : Option Text
deriving DecidableEq, Repr

/-- What is written behind the first comma of a line. -/
def fields (text : Text) : List Field :=
  let address := (cutAt ':' text).1
  match _ : (cutAt ':' text).2 with
  | none => [⟨address, none⟩]
  | some behind =>
      let port := (cutAt ',' behind).1
      match _ : (cutAt ',' behind).2 with
      | none => [⟨address, some port⟩]
      | some rest => ⟨address, some port⟩ :: fields rest
termination_by text.length
decreasing_by
  exact (length_cutAt_lt ‹(cutAt ',' behind).2 = some rest›).trans
    (length_cutAt_lt ‹(cutAt ':' text).2 = some behind›)

theorem fields_last {address port : Text} (colon : ':' ∉ address) (comma : ',' ∉ port) :
    fields (address ++ ':' :: port) = [⟨address, some port⟩] := by
  have cut := cutAt_append colon port
  rw [fields]
  split
  · next none => rw [cut] at none; cases none
  · next behind more =>
    rw [cut] at more
    cases more
    split
    · rw [cut, cutAt_of_notMem comma]
    · next more => rw [cutAt_of_notMem comma] at more; cases more

theorem fields_cons {address port : Text} (colon : ':' ∉ address) (comma : ',' ∉ port)
    (rest : Text) :
    fields (address ++ ':' :: (port ++ ',' :: rest)) = ⟨address, some port⟩ :: fields rest := by
  have cut := cutAt_append colon (port ++ ',' :: rest)
  have cut' := cutAt_append comma rest
  rw [fields]
  split
  · next none => rw [cut] at none; cases none
  · next behind more =>
    rw [cut] at more
    cases more
    split
    · next none => rw [cut'] at none; cases none
    · next more =>
      rw [cut'] at more
      cases more
      rw [cut, cut']

/-- A line: its first field, and the servers if there is a comma. -/
structure Line where
  port : Text
  servers : List Field
deriving DecidableEq, Repr

def Line.of (text : Text) : Line where
  port := (cutAt ',' text).1
  servers :=
    match (cutAt ',' text).2 with
    | none => []
    | some rest => fields rest

def unspaced (text : Text) : Text := text.filter fun c => !isSpace c

/-- The lines that are not blank. -/
def lines (text : Text) : List Line :=
  (((text.splitOn '\n').map unspaced).filter fun line => !line.isEmpty).map Line.of

/-! ## Reading the fields -/

/-- The servers that the fields of a line give, where `last` is the port read last. -/
def readServers : Text → List Field → Except Thrown (List PairAddr)
  | _, [] => .ok []
  | last, field :: rest => do
      let number := field.port.getD last
      let value ← stoi number
      let servers ← readServers number rest
      return (field.address, UInt16.ofInt value) :: servers

def readLine (line : Line) : Except Thrown (UInt16 × List PairAddr) := do
  let value ← stoi line.port
  let servers ← readServers line.port line.servers
  return (UInt16.ofInt value, servers)

namespace ParserConfigFile

variable (file : ParserConfigFile) (port : UInt16)

def addServers (servers : List PairAddr) : ParserConfigFile :=
  servers.foldl (fun file address => file.addServer port address) file

/-- What a line does to the object. -/
def addEntry (entry : UInt16 × List PairAddr) : ParserConfigFile :=
  (file.listen entry.1).addServers entry.1 entry.2

def addEntries (entries : List (UInt16 × List PairAddr)) : ParserConfigFile :=
  entries.foldl addEntry file

theorem ports_addServers (servers : List PairAddr) :
    (file.addServers port servers).ports = file.ports := by
  induction servers generalizing file with
  | nil => rfl
  | cons address servers ih => exact ih (file.addServer port address)

theorem configMap_addServers {old : List PairAddr} (listed : file.configMap port = some old)
    (servers : List PairAddr) : (file.addServers port servers).configMap =
      Function.update file.configMap port (some (old ++ servers)) := by
  induction servers generalizing file old with
  | nil => rw [List.append_nil, ← listed, Function.update_eq_self]; rfl
  | cons address servers ih =>
    have next : (file.addServer port address).configMap =
        Function.update file.configMap port (some (old ++ [address])) := by
      simp only [addServer, ParserConfigFile.servers, listed, Option.getD_some]
    have step := ih (file.addServer port address)
      ((congrFun next port).trans (Function.update_self ..))
    rw [next, Function.update_idem, List.append_assoc] at step
    exact step

theorem ports_addEntry (entry : UInt16 × List PairAddr) :
    (file.addEntry entry).ports = file.ports ++ [entry.1] :=
  ports_addServers ..

theorem configMap_addEntry (entry : UInt16 × List PairAddr) :
    (file.addEntry entry).configMap = Function.update file.configMap entry.1 (some entry.2) := by
  have whole := configMap_addServers (file.listen entry.1) entry.1 (Function.update_self ..) entry.2
  rw [List.nil_append] at whole
  rw [addEntry, whole, listen, Function.update_idem]

theorem ports_addEntries (entries : List (UInt16 × List PairAddr)) :
    (file.addEntries entries).ports = file.ports ++ entries.map Prod.fst := by
  induction entries generalizing file with
  | nil => exact (List.append_nil _).symm
  | cons entry entries ih =>
    have step := ih (file.addEntry entry)
    rwa [ports_addEntry, List.append_assoc] at step

theorem ports_addEntries_empty (entries : List (UInt16 × List PairAddr)) :
    (empty.addEntries entries).ports = entries.map Prod.fst :=
  ports_addEntries empty entries

theorem configMap_addEntries_of_notMem {entries : List (UInt16 × List PairAddr)}
    (absent : port ∉ entries.map Prod.fst) :
    (file.addEntries entries).configMap port = file.configMap port := by
  induction entries generalizing file with
  | nil => rfl
  | cons entry entries ih =>
    rw [List.map_cons, List.mem_cons, not_or] at absent
    have step := ih (file.addEntry entry) absent.2
    rwa [configMap_addEntry, Function.update_of_ne absent.1] at step

theorem isSome_configMap_addEntries (entries : List (UInt16 × List PairAddr)) :
    ((file.addEntries entries).configMap port).isSome ↔
      port ∈ entries.map Prod.fst ∨ (file.configMap port).isSome := by
  induction entries generalizing file with
  | nil => simp [addEntries]
  | cons entry entries ih =>
    refine (ih (file.addEntry entry)).trans ?_
    rw [configMap_addEntry, Function.update_apply, List.map_cons, List.mem_cons]
    split <;> simp_all

/-- Without a repeated port nothing is overwritten. -/
theorem configMap_addEntries_of_mem {entries : List (UInt16 × List PairAddr)}
    (distinct : (entries.map Prod.fst).Nodup) {entry : UInt16 × List PairAddr}
    (member : entry ∈ entries) : (file.addEntries entries).configMap entry.1 = some entry.2 := by
  induction entries generalizing file with
  | nil => cases member
  | cons first entries ih =>
    rw [List.map_cons, List.nodup_cons] at distinct
    rcases List.mem_cons.mp member with rfl | member
    · refine (configMap_addEntries_of_notMem (file.addEntry entry) entry.1 distinct.1).trans ?_
      rw [configMap_addEntry, Function.update_self]
    · exact ih (file.addEntry first) distinct.2 member

end ParserConfigFile

/-! ## Reading succeeds -/

theorem readServers_eq_ok {last : Text} {fields : List Field} {servers : List PairAddr}
    (read : readServers last fields = .ok servers) :
    List.Forall₂ (fun server field => server.1 = field.address ∧ ∀ number, field.port = some number →
      ∃ k, stoi number = .ok k ∧ server.2 = UInt16.ofInt k) servers fields := by
  induction fields generalizing last servers with
  | nil =>
    cases read
    exact .nil
  | cons field fields ih =>
    rw [readServers] at read
    cases value : stoi (field.port.getD last) with
    | error => rw [value] at read; cases read
    | ok k =>
      cases others : readServers (field.port.getD last) fields with
      | error => rw [value] at read; simp only [others] at read; cases read
      | ok rest =>
        rw [value] at read
        simp only [others] at read
        cases read
        refine .cons ⟨rfl, fun number own => ⟨k, ?_, rfl⟩⟩ (ih others)
        rwa [own] at value

theorem readLine_eq_ok {line : Line} {entry : UInt16 × List PairAddr}
    (read : readLine line = .ok entry) : ∃ k, stoi line.port = .ok k ∧
      entry.1 = UInt16.ofInt k ∧ readServers line.port line.servers = .ok entry.2 := by
  rw [readLine] at read
  cases value : stoi line.port with
  | error => rw [value] at read; cases read
  | ok k =>
    cases servers : readServers line.port line.servers with
    | error => rw [value] at read; simp only [servers] at read; cases read
    | ok servers' =>
      rw [value] at read
      simp only [servers] at read
      cases read
      exact ⟨k, rfl, rfl, rfl⟩

/-- A text is accepted when each of its lines is. -/
theorem mapM_readLine_eq_ok {lines : List Line} {entries : List (UInt16 × List PairAddr)} :
    lines.mapM readLine = .ok entries ↔
      List.Forall₂ (fun entry line => readLine line = .ok entry) entries lines := by
  induction lines generalizing entries with
  | nil =>
    rw [List.forall₂_nil_right_iff, List.mapM_nil]
    exact ⟨fun same => (Except.ok.inj same).symm, fun same => same ▸ rfl⟩
  | cons line lines ih =>
    rw [List.mapM_cons, List.forall₂_cons_right_iff]
    constructor
    · intro read
      cases first : readLine line with
      | error => rw [first] at read; cases read
      | ok entry =>
        cases others : lines.mapM readLine with
        | error => rw [first, others] at read; cases read
        | ok rest =>
          rw [first, others] at read
          cases read
          exact ⟨entry, rest, rfl, ih.mp others, rfl⟩
    · rintro ⟨entry, rest, first, others, rfl⟩
      rw [first, ih.mpr others]
      rfl

theorem parseServers_ended (port : UInt16) (s : Parsing) : parseServers port .ended s = .ok s := by
  rw [parseServers]
  rfl

/-- One server. -/
theorem parseServers_reading (port : UInt16) (text : Text) (s : Parsing) :
    parseServers port (.reading text) s =
      match stoi (getline ',' (streamOf (cutAt ':' text).2) s.strPort).2 with
      | .error thrown => .error thrown
      | .ok value => parseServers port (getline ',' (streamOf (cutAt ':' text).2) s.strPort).1
          { s with
            file := s.file.addServer port ((cutAt ':' text).1, UInt16.ofInt value)
            strPort := (getline ',' (streamOf (cutAt ':' text).2) s.strPort).2
            strIp := (cutAt ':' text).1 } := by
  rw [parseServers, getline_reading]
  rfl

theorem file_parseServers (port : UInt16) (text : Text) (s : Parsing) :
    (parseServers port (.reading text) s).map Parsing.file =
      (readServers s.strPort (fields text)).map (s.file.addServers port) := by
  fun_induction fields text generalizing s with
  | case1 text address noColon =>
    rw [parseServers_reading, noColon]
    simp only [streamOf, getline, readServers, Option.getD_none]
    cases stoi s.strPort with
    | error => rfl
    | ok value => simp only [parseServers_ended]; rfl
  | case2 text address behind colon port' noComma =>
    rw [parseServers_reading, colon]
    simp only [streamOf, getline_reading, noComma, readServers, Option.getD_some]
    cases stoi port' with
    | error => rfl
    | ok value => simp only [parseServers_ended]; rfl
  | case3 text address behind colon port' rest comma ih =>
    rw [parseServers_reading, colon]
    simp only [streamOf, getline_reading, comma, readServers, Option.getD_some]
    cases stoi port' with
    | error => rfl
    | ok value =>
      refine (ih _).trans ?_
      cases readServers port' (fields rest) <;> rfl

theorem file_parseLine (s : Parsing) : (parseLine s).map Parsing.file =
    (readLine (.of s.strLine)).map s.file.addEntry := by
  rw [parseLine, getline_reading]
  simp only [readLine, Line.of]
  cases stoi (cutAt ',' s.strLine).1 with
  | error => rfl
  | ok value =>
    cases (cutAt ',' s.strLine).2 with
    | none =>
      simp only [streamOf, parseServers_ended]
      rfl
    | some rest =>
      refine (file_parseServers ..).trans ?_
      dsimp only
      cases readServers (cutAt ',' s.strLine).1 (fields rest) <;> rfl

theorem parseLines_ended (s : Parsing) : parseLines .ended s = .ok s := by
  rw [parseLines]
  rfl

theorem parseLines_reading (text : Text) (s : Parsing) :
    parseLines (.reading text) s =
      let s := { s with strLine := unspaced (cutAt '\n' text).1 }
      if s.strLine.isEmpty then parseLines (streamOf (cutAt '\n' text).2) s
      else
        match parseLine s with
        | .error thrown => .error thrown
        | .ok s => parseLines (streamOf (cutAt '\n' text).2) s := by
  rw [parseLines, getline_reading]
  rfl

/-- The lines of a text are its first line and those of the rest. -/
theorem lines_eq (text : Text) : lines text =
    (if (unspaced (cutAt '\n' text).1).isEmpty then []
      else [.of (unspaced (cutAt '\n' text).1)]) ++
    match (cutAt '\n' text).2 with
    | none => []
    | some rest => lines rest := by
  rw [lines, splitOn_eq_cutAt]
  cases blank : (unspaced (cutAt '\n' text).1).isEmpty <;> cases (cutAt '\n' text).2 <;>
    simp [lines, blank]

/-- The lines are read one after the other. -/
theorem file_parseLines (text : Text) (s : Parsing) :
    (parseLines (.reading text) s).map Parsing.file =
      ((lines text).mapM readLine).map s.file.addEntries := by
  have others (s : Parsing) :
      (parseLines (streamOf (cutAt '\n' text).2) s).map Parsing.file =
        (List.mapM readLine
          (match (cutAt '\n' text).2 with
          | none => []
          | some rest => lines rest)).map s.file.addEntries := by
    cases cut : (cutAt '\n' text).2 with
    | none =>
      rw [streamOf, parseLines_ended]
      rfl
    | some rest => exact file_parseLines rest s
  rw [parseLines_reading, lines_eq]
  dsimp only
  split
  · exact others _
  · have first := file_parseLine { s with strLine := unspaced (cutAt '\n' text).1 }
    dsimp only at first
    rw [List.singleton_append, List.mapM_cons]
    cases read : readLine (.of (unspaced (cutAt '\n' text).1)) with
    | error thrown =>
      rw [read] at first
      cases parsed : parseLine { s with strLine := unspaced (cutAt '\n' text).1 } with
      | error thrown' =>
        rw [parsed] at first
        cases first
        rfl
      | ok s' => rw [parsed] at first; cases first
    | ok entry =>
      rw [read] at first
      cases parsed : parseLine { s with strLine := unspaced (cutAt '\n' text).1 } with
      | error thrown => rw [parsed] at first; cases first
      | ok s' =>
        rw [parsed] at first
        have file : s'.file = s.file.addEntry entry := Except.ok.inj first
        dsimp only
        rw [others s', file]
        generalize List.mapM readLine _ = entries
        cases entries <;> rfl
termination_by text.length
decreasing_by exact length_cutAt_lt cut

/-- What an accepted text gives. -/
theorem parseConfigFile_eq_ok {text : Text} {file : ParserConfigFile} :
    parseConfigFile text = .ok file ↔ ∃ entries,
      List.Forall₂ (fun entry line => readLine line = .ok entry) entries (lines text) ∧
        ParserConfigFile.empty.addEntries entries = file := by
  rw [parseConfigFile, file_parseLines]
  simp only [← mapM_readLine_eq_ok]
  cases (lines text).mapM readLine with
  | error => exact ⟨fun absurd => (nomatch absurd), fun ⟨_, absurd, _⟩ => (nomatch absurd)⟩
  | ok entries =>
    constructor
    · exact fun same => ⟨entries, rfl, Except.ok.inj same⟩
    · rintro ⟨_, ⟨⟩, rfl⟩
      rfl

end SphereMultithreading.Model.P3
