import SphereMultithreading.Model.Iostream

/-! # The configuration of the p3 proxy

A line of the file names a port to listen on and the servers behind it. The parser takes the lines
from one stream and the fields of a line from another, into strings that it declares once.
-/

namespace SphereMultithreading.Model.P3

open Scanf Iostream

/-- The address of a server and its port, an `unsigned short`. -/
abbrev PairAddr := Text × UInt16

/-- A `ParserConfigFile`. The map has a value at its keys only. -/
structure ParserConfigFile where
  configMap : UInt16 → Option (List PairAddr)
  ports : List UInt16

namespace ParserConfigFile

def empty : ParserConfigFile := ⟨fun _ => none, []⟩

/-- `operator[]`: a key that is missing has an empty list. -/
def servers (file : ParserConfigFile) (key : UInt16) : List PairAddr := (file.configMap key).getD []

/-- `ports.push_back(port)` and `config_map[port] = std::vector<pair_addr>()`. -/
def listen (file : ParserConfigFile) (port : UInt16) : ParserConfigFile where
  configMap := Function.update file.configMap port (some [])
  ports := file.ports ++ [port]

/-- `config_map[port].push_back(address)`. -/
def addServer (file : ParserConfigFile) (port : UInt16) (address : PairAddr) : ParserConfigFile :=
  { file with configMap :=
      Function.update file.configMap port (some (file.servers port ++ [address])) }

end ParserConfigFile

/-- The object and the strings of `parse_config_file`. -/
structure Parsing where
  file : ParserConfigFile
  strLine : Text
  strPort : Text
  strIp : Text

/-- The loop over the servers of a line. -/
def parseServers (port : UInt16) (streamline : Stream) (s : Parsing) : Except Thrown Parsing :=
  if streamline.eof = true then .ok s
  else
    let ip := getline ':' streamline s.strIp
    let number := getline ',' ip.1 s.strPort
    match stoi number.2 with
    | .error thrown => .error thrown
    | .ok value =>
        parseServers port number.1
          { s with
            file := s.file.addServer port (ip.2, UInt16.ofInt value)
            strPort := number.2
            strIp := ip.2 }
termination_by streamline.size
decreasing_by
  have more : streamline.eof = false := Bool.eq_false_of_not_eq_true ‹¬ streamline.eof = true›
  exact (size_getline_le ..).trans_lt (size_getline_lt _ more _)

/-- What is done with a line that is not empty. -/
def parseLine (s : Parsing) : Except Thrown Parsing :=
  let number := getline ',' (.reading s.strLine) s.strPort
  match stoi number.2 with
  | .error thrown => .error thrown
  | .ok value =>
      let port := UInt16.ofInt value
      parseServers port number.1 { s with file := s.file.listen port, strPort := number.2 }

/-- The loop over the lines. -/
def parseLines (config : Stream) (s : Parsing) : Except Thrown Parsing :=
  if config.eof = true then .ok s
  else
    let line := getline '\n' config s.strLine
    let s := { s with strLine := line.2.filter fun c => !isSpace c }
    if s.strLine.isEmpty then parseLines line.1 s
    else
      match parseLine s with
      | .error thrown => .error thrown
      | .ok s => parseLines line.1 s
termination_by config.size
decreasing_by
  all_goals exact size_getline_lt _ (Bool.eq_false_of_not_eq_true ‹¬ config.eof = true›) _

/-- `parse_config_file` of a new object. -/
def parseConfigFile (text : Text) : Except Thrown ParserConfigFile :=
  (parseLines (.reading text) ⟨.empty, [], [], []⟩).map Parsing.file

/-- The server that `handle_accept` takes; without a server the remainder is not defined. -/
def handleAccept (servers : List PairAddr) (rand : ℕ) : Option PairAddr :=
  if servers.length = 0 then none else servers[rand % servers.length]?

end SphereMultithreading.Model.P3
