import SphereMultithreading.Model.P4.Shell
import SphereMultithreading.Model.Scanf

/-! # The tokens of a p4 command line

The parser goes over a line once. It keeps a word, a run of operator characters and a quotation that
are not finished, and puts each of them among the operands when it is.
-/

namespace SphereMultithreading.Model.P4

open Scanf (isSpace)

/-- A parser object keeps the tokens of its last line. -/
structure Parser where
  operands : List Word
deriving DecidableEq, Repr

/-- The object and the strings of `parse`. -/
structure Parsing where
  operands : List Word
  cmd : Word
  op : Word
  quote : Word
deriving DecidableEq, Repr

/-- `drop_string_to_buffer`: the operands and the string behind the call. -/
def dropStringToBuffer (operands : List Word) (s : Word) : List Word × Word :=
  if s.length > 0 then (operands ++ [s], []) else (operands, s)

namespace Parsing

def dropCmd (s : Parsing) : Parsing :=
  { s with
    operands := (dropStringToBuffer s.operands s.cmd).1
    cmd := (dropStringToBuffer s.operands s.cmd).2 }

def dropOp (s : Parsing) : Parsing :=
  { s with
    operands := (dropStringToBuffer s.operands s.op).1
    op := (dropStringToBuffer s.operands s.op).2 }

def dropQuote (s : Parsing) : Parsing :=
  { s with
    operands := (dropStringToBuffer s.operands s.quote).1
    quote := (dropStringToBuffer s.operands s.quote).2 }

/-- The body of the loop. -/
def parseChar (s : Parsing) (c : Char) : Parsing :=
  if s.quote.length > 0 then
    let s := { s with quote := s.quote ++ [c] }
    if s.quote.head? = some c then s.dropQuote else s
  else if isSpace c then s.dropCmd.dropOp
  else if c = '<' ∨ c = '>' ∨ c = ';' then
    let s := s.dropCmd.dropOp
    { s with operands := s.operands ++ [[c]] }
  else if c = '&' ∨ c = '|' then
    let s := s.dropCmd
    { s with op := s.op ++ [c] }
  else if c = '\'' ∨ c = '"' then
    let s := s.dropCmd.dropOp
    { s with quote := s.quote ++ [c] }
  else
    let s := s.dropOp
    { s with cmd := s.cmd ++ [c] }

end Parsing

/-- `parse`: the object behind the call, whose operands are returned. -/
def Parser.parse (_ : Parser) (command : List Char) : Parser :=
  ⟨(command.foldl Parsing.parseChar ⟨[], [], [], []⟩).dropCmd.dropOp.operands⟩

end SphereMultithreading.Model.P4
