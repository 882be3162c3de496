import SphereMultithreading.Proofs.P3.ConfigParser
import SphereMultithreading.Proofs.Scanf
import SphereMultithreading.Proofs.Stdio

/-! # Accepted configurations

The parser accepts any text whose numbers it can read. What it stores can be served from when every
line has its servers, every server its address and port, every number fits in a port and no listening
port comes twice. The format the example file has is read back as it was written.
-/

namespace SphereMultithreading.Soundness.P3

open Model.Scanf Model.Iostream Model.Stdio Model.P3

/-- What a conversion reads at the beginning of a text. -/
def Begins (k : ℤ) (number : Text) : Prop := ∃ rest, scanInt number = some (k, rest)

/-- Every listening port has its list, and a server can be taken from it. What is stored is what is
written, where `Writes` tells what number a text is. -/
structure Usable (Writes : ℤ → Text → Prop) (text : Text) (file : ParserConfigFile) : Prop where
  distinct : file.ports.Nodup
  keys : ∀ port, port ∈ file.ports ↔ (file.configMap port).isSome
  nonempty : ∀ port servers, file.configMap port = some servers → servers ≠ []
  served : ∀ port ∈ file.ports, ∀ rand, (handleAccept (file.servers port) rand).isSome
  named : ∀ port servers, file.configMap port = some servers → ∀ server ∈ servers, server.1 ≠ []
  written : List.Forall₂ (fun port line => Writes port.toNat line.port ∧
    List.Forall₂ (fun server field => ∃ number, field.port = some number ∧
      Writes server.2.toNat number) (file.servers port) line.servers) file.ports (lines text)

/-- The lines have servers, the servers have addresses and ports, the numbers fit, and those of the
lines are distinct. -/
structure WellWritten (Writes : ℤ → Text → Prop) (text : Text) : Prop where
  numbers : ∃ ports : List UInt16, ports.Nodup ∧
    List.Forall₂ (fun port line => Writes port.toNat line.port) ports (lines text)
  servers : ∀ line ∈ lines text, line.servers ≠ [] ∧ ∀ field ∈ line.servers,
    field.address ≠ [] ∧ ∃ number, field.port = some number ∧
      ∃ port : UInt16, Writes port.toNat number

theorem isSome_handleAccept {servers : List PairAddr} (nonempty : servers ≠ []) (rand : ℕ) :
    (handleAccept servers rand).isSome := by
  have positive := List.length_pos_of_ne_nil nonempty
  rw [handleAccept, if_neg positive.ne', List.getElem?_eq_getElem (Nat.mod_lt _ positive)]
  rfl

theorem ofInt_toNat (port : UInt16) : UInt16.ofInt port.toNat = port := by
  have small := port.toNat_lt
  rw [UInt16.ofInt, Int.emod_eq_of_lt (by omega) (by omega), Int.toNat_natCast, UInt16.ofNat_toNat]

/-- A number that fits in a port is read as it is. -/
theorem Begins.stoi_eq {port : UInt16} {number : Text} (begins : Begins port.toNat number) :
    stoi number = .ok port.toNat := by
  obtain ⟨rest, scanned⟩ := begins
  have small := port.toNat_lt
  rw [stoi, scanned]
  exact if_pos ⟨by omega, by omega⟩

theorem Begins.of_decimal {k : ℤ} {number : Text} (decimal : Decimal k number) :
    Begins k number := by
  have scanned : scanInt ([] ++ (number ++ [])) = some (k, []) :=
    scanInt_decimal (by rintro c ⟨⟩) decimal (by rintro c ⟨⟩)
  rw [List.nil_append, List.append_nil] at scanned
  exact ⟨[], scanned⟩

theorem forall_of_forall₂ {α β : Type*} {P : β → Prop} {as : List α} {bs : List β}
    (all : List.Forall₂ (fun _ b => P b) as bs) : ∀ b ∈ bs, P b := by
  induction all with
  | nil => simp
  | cons first _ ih => exact List.forall_mem_cons.mpr ⟨first, ih⟩

section Accepted

variable {Writes : ℤ → Text → Prop} {entries : List (UInt16 × List PairAddr)} {text : Text}
  (read : List.Forall₂ (fun entry line => readLine line = .ok entry) entries (lines text))

include read

/-- What is usable was written well. -/
theorem Usable.wellWritten
    (usable : Usable Writes text (ParserConfigFile.empty.addEntries entries)) :
    WellWritten Writes text := by
  refine ⟨⟨_, usable.distinct, usable.written.imp fun _ _ both => both.1⟩, ?_⟩
  have distinct := usable.distinct
  have written := usable.written
  rw [ParserConfigFile.ports_addEntries_empty] at distinct written
  rw [List.forall₂_map_left_iff] at written
  have stored : ∀ entry ∈ entries,
      (ParserConfigFile.empty.addEntries entries).configMap entry.1 = some entry.2 :=
    fun entry member => ParserConfigFile.configMap_addEntries_of_mem _ distinct member
  refine forall_of_forall₂ (((List.forall₂_and_left _ _).mpr
    ⟨stored, read.mp (fun _ _ a b => And.intro a b) written⟩).imp ?_)
  rintro entry line ⟨listed, done, -, fields⟩
  obtain ⟨k, -, -, servers⟩ := readLine_eq_ok done
  have addresses := readServers_eq_ok servers
  rw [ParserConfigFile.servers, listed, Option.getD_some] at fields
  constructor
  · intro none
    rw [none, List.forall₂_nil_right_iff] at addresses
    exact usable.nonempty _ _ listed addresses
  · refine forall_of_forall₂ (((List.forall₂_and_left _ _).mpr ⟨usable.named _ _ listed,
      addresses.mp (fun _ _ a b => And.intro a b) fields⟩).imp ?_)
    rintro server field ⟨named, ⟨same, -⟩, number, own, writes⟩
    exact ⟨same ▸ named, number, own, server.2, writes⟩

/-- Where all is written, each line gives the port and the servers written in it. -/
theorem WellWritten.forall₂ (begins : ∀ k number, Writes k number → Begins k number)
    (well : WellWritten Writes text) :
    List.Forall₂ (fun entry line => (entry.2 ≠ [] ∧ ∀ server ∈ entry.2, server.1 ≠ []) ∧
      Writes entry.1.toNat line.port ∧ List.Forall₂ (fun server field => ∃ number,
        field.port = some number ∧ Writes server.2.toNat number) entry.2 line.servers)
      entries (lines text) := by
  have value {port : UInt16} {number : Text} {k : ℤ} (writes : Writes port.toNat number)
      (converted : stoi number = .ok k) : UInt16.ofInt k = port := by
    rw [(begins _ _ writes).stoi_eq] at converted
    rw [← Except.ok.inj converted, ofInt_toNat]
  obtain ⟨⟨ports, distinct, numbers⟩, fits⟩ := well
  have numbered : ∀ line ∈ lines text, ∃ port : UInt16, Writes port.toNat line.port :=
    forall_of_forall₂ (numbers.imp fun port _ writes => ⟨port, writes⟩)
  refine (((List.forall₂_and_left _ _).mpr ⟨fun line member =>
    And.intro (numbered line member) (fits line member), read.flip⟩).imp ?_).flip
  rintro line entry ⟨⟨⟨port, writes⟩, some, complete⟩, done⟩
  obtain ⟨k, converted, first, servers⟩ := readLine_eq_ok done
  have fields := readServers_eq_ok servers
  have written := ((List.forall₂_and_left _ _).mpr ⟨complete, fields.flip⟩).flip
  refine ⟨⟨?_, ?_⟩, ?_, written.imp ?_⟩
  · intro none
    rw [none, List.forall₂_nil_left_iff] at fields
    exact some fields
  · refine forall_of_forall₂ (written.flip.imp ?_)
    rintro field server ⟨⟨named, -⟩, same, -⟩
    exact same ▸ named
  · rwa [first, value writes converted]
  · rintro server field ⟨⟨-, number, own, port', writes'⟩, -, stored⟩
    obtain ⟨k', converted', last⟩ := stored number own
    exact ⟨number, own, by rwa [last, value writes' converted']⟩

/-- What was written well is stored as it was written. -/
theorem WellWritten.usable (begins : ∀ k number, Writes k number → Begins k number)
    (well : WellWritten Writes text) :
    Usable Writes text (ParserConfigFile.empty.addEntries entries) := by
  have lineByLine := well.forall₂ read begins
  have unique : Relator.LeftUnique fun (port : UInt16) (line : Line) =>
      Writes port.toNat line.port := by
    intro port line port' writes writes'
    have same := (begins _ _ writes).stoi_eq.symm.trans (begins _ _ writes').stoi_eq
    rw [← ofInt_toNat port, Except.ok.inj same, ofInt_toNat]
  obtain ⟨ports, distinct, numbers⟩ := well.numbers
  have same : entries.map Prod.fst = ports :=
    List.left_unique_forall₂' unique
      ((List.forall₂_map_left_iff).mpr (lineByLine.imp fun _ _ all => all.2.1)) numbers
  rw [← same] at distinct
  have stored : ∀ entry ∈ entries,
      (ParserConfigFile.empty.addEntries entries).configMap entry.1 = some entry.2 :=
    fun entry member => ParserConfigFile.configMap_addEntries_of_mem _ distinct member
  have keys (port : UInt16) : port ∈ (ParserConfigFile.empty.addEntries entries).ports ↔
      ((ParserConfigFile.empty.addEntries entries).configMap port).isSome := by
    rw [ParserConfigFile.ports_addEntries_empty, ParserConfigFile.isSome_configMap_addEntries]
    exact (or_iff_left Bool.false_ne_true).symm
  have kept := forall_of_forall₂ (lineByLine.flip.imp fun _ _ all => all.1)
  have listed {port : UInt16} {servers : List PairAddr}
      (found : (ParserConfigFile.empty.addEntries entries).configMap port = some servers) :
      servers ≠ [] ∧ ∀ server ∈ servers, server.1 ≠ [] := by
    have member := (keys port).mpr (Option.isSome_of_eq_some found)
    rw [ParserConfigFile.ports_addEntries_empty] at member
    obtain ⟨entry, among, rfl⟩ := List.mem_map.mp member
    rw [stored entry among] at found
    exact Option.some.inj found ▸ kept entry among
  refine ⟨?_, keys, fun port servers found => (listed found).1, ?_,
    fun port servers found => (listed found).2, ?_⟩
  · rwa [ParserConfigFile.ports_addEntries_empty]
  · intro port member rand
    obtain ⟨servers, found⟩ := Option.isSome_iff_exists.mp ((keys port).mp member)
    rw [ParserConfigFile.servers, found]
    exact isSome_handleAccept (listed found).1 rand
  · rw [ParserConfigFile.ports_addEntries_empty, List.forall₂_map_left_iff]
    refine ((List.forall₂_and_left _ _).mpr ⟨stored, lineByLine⟩).imp ?_
    rintro entry line ⟨found, -, writes, servers⟩
    rw [ParserConfigFile.servers, found]
    exact ⟨writes, servers⟩

end Accepted

/-- Both for what a number begins with and for what a number is as a whole: the configuration of an
accepted text is usable exactly when the text is written well. -/
theorem usable_iff_wellWritten (text : Text) (file : ParserConfigFile)
    (accepted : parseConfigFile text = .ok file) :
    (Usable Begins text file ↔ WellWritten Begins text) ∧
      (Usable Decimal text file ↔ WellWritten Decimal text) := by
  obtain ⟨entries, read, rfl⟩ := parseConfigFile_eq_ok.mp accepted
  exact ⟨⟨Usable.wellWritten read, WellWritten.usable read fun _ _ begins => begins⟩,
    ⟨Usable.wellWritten read, WellWritten.usable read fun _ _ => Begins.of_decimal⟩⟩

/-- A line of a port and nothing else. -/
theorem parseConfigFile_bare : parseConfigFile ['8', '0'] =
    .ok (ParserConfigFile.empty.addEntries [(80, [])]) := by
  refine parseConfigFile_eq_ok.mpr ⟨[(80, [])], ?_, rfl⟩
  have cut : lines ['8', '0'] = [⟨['8', '0'], []⟩] := by decide
  rw [cut]
  exact .cons (by decide) .nil

theorem usable_iff_wellWritten_bare :
    (Usable Begins ['8', '0'] (ParserConfigFile.empty.addEntries [(80, [])]) ↔
        WellWritten Begins ['8', '0']) ∧
      (Usable Decimal ['8', '0'] (ParserConfigFile.empty.addEntries [(80, [])]) ↔
        WellWritten Decimal ['8', '0']) :=
  usable_iff_wellWritten _ _ parseConfigFile_bare

/-- Its port has no server to take. -/
theorem not_usable_bare : ¬ ∀ text file, parseConfigFile text = .ok file →
    Usable Begins text file := by
  intro all
  have served := (all _ _ parseConfigFile_bare).served 80 (by decide) 0
  exact absurd served (by decide)

/-! ## The format of the file -/

/-- An address that can be written. -/
structure Address where
  text : Text
  nonempty : text ≠ []
  clean : ∀ c ∈ text, isSpace c = false ∧ c ≠ ',' ∧ c ≠ ':'

/-- A listening port and the servers behind it. -/
structure Entry where
  port : UInt16
  servers : List (Address × UInt16)
  nonempty : servers ≠ []

def digits (port : UInt16) : Text := Nat.toDigits 10 port.toNat

def renderServer (server : Address × UInt16) : Text := server.1.text ++ ':' :: digits server.2

/-- `port,addr:port,…,addr:port`. -/
def Entry.render (entry : Entry) : Text :=
  digits entry.port ++ entry.servers.flatMap fun server => ',' :: renderServer server

/-- The list that is to be stored. -/
def Entry.stored (entry : Entry) : List PairAddr :=
  entry.servers.map fun server => (server.1.text, server.2)

def fieldOf (server : Address × UInt16) : Field := ⟨server.1.text, some (digits server.2)⟩

theorem isDigit_digits {port : UInt16} {c : Char} (member : c ∈ digits port) : c.isDigit = true :=
  Nat.isDigit_of_mem_toDigits (by omega) le_rfl member

theorem notMem_digits {delim : Char} (other : delim.isDigit = false) (port : UInt16) :
    delim ∉ digits port := by
  intro member
  rw [isDigit_digits member] at other
  cases other

theorem decimal_digits (port : UInt16) : Decimal port.toNat (digits port) := by
  refine ⟨[], digits port, rfl, Nat.toDigits_ne_nil, fun c => isDigit_digits,
    .inl ⟨.inl rfl, congrArg _ ?_⟩⟩
  rw [digits, digitsValue, ← Nat.ofDigitChars_eq_foldl, Nat.ofDigitChars_ten_toDigits]

theorem stoi_digits (port : UInt16) : stoi (digits port) = .ok port.toNat :=
  (Begins.of_decimal (decimal_digits port)).stoi_eq

/-- The fields of the servers that are written behind the first comma. -/
theorem fields_render (server : Address × UInt16) (servers : List (Address × UInt16)) :
    fields (renderServer server ++ servers.flatMap fun server => ',' :: renderServer server) =
      (server :: servers).map fieldOf := by
  have colon (server : Address × UInt16) : ':' ∉ server.1.text :=
    fun member => (server.1.clean _ member).2.2 rfl
  induction servers generalizing server with
  | nil =>
    rw [List.flatMap_nil, List.append_nil]
    exact fields_last (colon server) (notMem_digits rfl _)
  | cons next servers ih =>
    rw [List.flatMap_cons, renderServer, List.append_assoc, List.cons_append, List.cons_append,
      fields_cons (colon server) (notMem_digits rfl _), ih]
    rfl

theorem line_render (entry : Entry) :
    Line.of entry.render = ⟨digits entry.port, entry.servers.map fieldOf⟩ := by
  obtain ⟨server, servers, same⟩ := List.exists_cons_of_ne_nil entry.nonempty
  rw [Line.of, Entry.render, same, List.flatMap_cons, List.cons_append,
    cutAt_append (notMem_digits rfl _)]
  exact congrArg (Line.mk _) (fields_render server servers)

theorem readServers_fieldOf (last : Text) (servers : List (Address × UInt16)) :
    readServers last (servers.map fieldOf) =
      .ok (servers.map fun server => (server.1.text, server.2)) := by
  induction servers generalizing last with
  | nil => rfl
  | cons server servers ih =>
    rw [List.map_cons, readServers]
    simp only [fieldOf, Option.getD_some, stoi_digits, ih]
    exact congrArg (fun port => Except.ok ((_, port) :: _)) (ofInt_toNat server.2)

theorem readLine_render (entry : Entry) :
    readLine (.of entry.render) = .ok (entry.port, entry.stored) := by
  rw [line_render, readLine]
  simp only [stoi_digits, readServers_fieldOf]
  exact congrArg (fun port => Except.ok (port, _)) (ofInt_toNat entry.port)

theorem splitOn_unlines {lines : List Text} {last : Text}
    (newlines : ∀ line ∈ last :: lines, '\n' ∉ line) :
    (unlines lines ++ last).splitOn '\n' = lines ++ [last] := by
  rw [List.forall_mem_cons] at newlines
  induction lines with
  | nil => exact List.splitOn_eq_singleton newlines.1
  | cons line lines ih =>
    rw [List.forall_mem_cons] at newlines
    rw [unlines_cons, List.append_assoc, List.cons_append,
      List.splitOn_append_cons_self_of_not_mem newlines.2.1, ih ⟨newlines.1, newlines.2.2⟩,
      List.cons_append]

/-- A text whose lines, without their white space and without the blank ones, are entries written one
after the other, is read back: the ports in their order and with each of them its servers. -/
theorem parseConfigFile_render (entries : List Entry) (lines : List Text) (last : Text)
    (distinct : (entries.map Entry.port).Nodup)
    (newlines : ∀ line ∈ last :: lines, '\n' ∉ line)
    (written : ((lines ++ [last]).map unspaced).filter (fun line => line ≠ []) =
      entries.map Entry.render) :
    ∃ file, parseConfigFile (unlines lines ++ last) = .ok file ∧
      file.ports = entries.map Entry.port ∧
      (∀ entry ∈ entries, file.configMap entry.port = some entry.stored) ∧
      ∀ port ∉ entries.map Entry.port, file.configMap port = none := by
  have cut : Model.P3.lines (unlines lines ++ last) =
      entries.map fun entry => Line.of entry.render := by
    rw [Model.P3.lines, splitOn_unlines newlines]
    have kept : (fun line : Text => !line.isEmpty) = fun line => decide (line ≠ []) := by
      funext line
      cases line <;> rfl
    rw [kept, written, List.map_map]
    rfl
  have keys : (entries.map fun entry => (entry.port, entry.stored)).map Prod.fst =
      entries.map Entry.port := by
    rw [List.map_map]
    rfl
  refine ⟨_, parseConfigFile_eq_ok.mpr
    ⟨entries.map fun entry => (entry.port, entry.stored), ?_, rfl⟩, ?_, ?_, ?_⟩
  · rw [cut, List.forall₂_map_left_iff, List.forall₂_map_right_iff, List.forall₂_same]
    exact fun entry _ => readLine_render entry
  · rw [ParserConfigFile.ports_addEntries_empty, keys]
  · intro entry member
    exact ParserConfigFile.configMap_addEntries_of_mem _ (keys ▸ distinct)
      (List.mem_map_of_mem (f := fun entry : Entry => (entry.port, entry.stored)) member)
  · intro port absent
    exact ParserConfigFile.configMap_addEntries_of_notMem _ port (keys ▸ absent)

/-- Two lines with white space, a blank one between them and no newline at the end. -/
theorem parseConfigFile_render_two : ∃ file,
    parseConfigFile (unlines [['8', ',', ' ', 'a', ':', '1'], [' ']] ++
      ['9', ' ', ',', 'b', ':', '2', '\t', ',', 'c', ':', '3']) = .ok file ∧
    file.ports = [8, 9] ∧
    (∀ entry ∈ [(8, [(['a'], 1)]), (9, [(['b'], 2), (['c'], 3)])],
      file.configMap entry.1 = some entry.2) ∧
    ∀ port ∉ [8, 9], file.configMap port = none := by
  obtain ⟨file, parsed, ports, stored, others⟩ := parseConfigFile_render
    [⟨8, [(⟨['a'], by decide, by simp [isSpace]⟩, 1)], by decide⟩, ⟨9,
      [(⟨['b'], by decide, by simp [isSpace]⟩, 2), (⟨['c'], by decide, by simp [isSpace]⟩, 3)],
      by decide⟩]
    [['8', ',', ' ', 'a', ':', '1'], [' ']]
    ['9', ' ', ',', 'b', ':', '2', '\t', ',', 'c', ':', '3']
    (by decide) (by decide) (by decide)
  refine ⟨file, parsed, ports, fun entry member => ?_, others⟩
  rcases List.mem_pair.mp member with rfl | rfl
  · exact stored _ (List.mem_cons_self ..)
  · exact stored _ (List.mem_cons_of_mem _ (List.mem_cons_self ..))

end SphereMultithreading.Soundness.P3
