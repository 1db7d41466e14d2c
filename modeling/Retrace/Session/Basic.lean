import Retrace.Error
import Retrace.File.Path
import Retrace.Log
import Retrace.Symbols
import Retrace.Syntax.Enclosing

/-!
# Sessions

The *authored* source of a binary is what it was compiled from; the *reconstructed* source is what a
decompiler makes of it. A session is about one binary: its reconstructed source (`Frontend`), its
debug symbols, which know the authored source, and the directory that the reconstructed source is
written to. The streams of functions are asked for when they are needed and then kept, whether the
answer was a stream, nothing or a failure. `Inquiries` records what was asked.
-/

namespace Retrace

/-- A file of reconstructed source. -/
structure SourceUnit where
  name : String
  text : String
deriving DecidableEq

/-- Whether a character is a control character. -/
def isControl (c : Char) : Bool := c.toNat < 0x20 || (0x7F ≤ c.toNat && c.toNat < 0xA0)

/-- What stands for a character in the name of a file. -/
def fileNameChar (c : Char) : Char :=
  match c with
  | '<' => '('
  | '>' => ')'
  | '\x22' => '_'
  | '|' => '_'
  | c => if isControl c then '_' else c

/-- The unit's name as the name of a file. -/
def SourceUnit.fileName (u : SourceUnit) : String := String.ofList (u.name.toList.map fileNameChar)

/-- A function of the reconstructed source. -/
structure FunctionInfo where
  /-- The function's token, if it has one. -/
  token : Option Token
  /-- The offsets at which its instructions start. -/
  instructions : List Nat

/-- The reconstructed source of a binary, with syntax nodes of type `ν`. -/
structure Frontend (ν : Type) where
  units : List SourceUnit
  /-- The innermost node of a unit around a span, whose lines count from one. -/
  nodeAt : Nat → LineSpan → Option ν
  parent : ν → Option ν
  /-- The function that a node is annotated with. -/
  functionOf : ν → Option FunctionInfo
  /-- The streams of the functions of a unit. -/
  streams : Nat → Except Error (Table Token Stream)

/-- The function around a span of a unit. -/
def Frontend.functionAt? {ν : Type} (f : Frontend ν) (unit : Nat) (span : LineSpan) :
    Option FunctionInfo :=
  (f.nodeAt unit span).bind fun node => (Syntax.enclosingFunction f.parent f.functionOf node).1

/-- What a session has asked its collaborators, oldest first. -/
structure Inquiries where
  /-- The units whose streams the frontend was asked for. -/
  units : List Nat := []
  /-- The tokens whose streams the symbols were asked for. -/
  tokens : List Token := []
  /-- How often the frontend was asked for a node. -/
  nodes : Nat := 0

/-- The streams known so far. -/
structure StreamCache where
  /-- The reconstructed streams of the units that were asked for. -/
  reconstructed : Table Nat (Table Token Stream) := {}
  /-- The functions whose reconstructed stream is sanitized already. -/
  sanitized : List (Nat × Token) := []
  /-- The visible authored streams of the functions that were asked for. -/
  authored : Table Token (Option Stream) := {}

/-- The state of the work on one binary. -/
structure Session (ν : Type) where
  /-- The binary. -/
  fileName : Path
  frontend : Frontend ν
  symbols : Option SymbolProvider
  /-- Where reconstructed source is written to, if it is written. -/
  dumpSource : Option Path
  cache : StreamCache := {}
  inquiries : Inquiries := {}
  log : Log := {}

namespace Session

variable {ν : Type}

/-- The reconstructed files. -/
def units (s : Session ν) : List SourceUnit := s.frontend.units

/-- Whether there are debug symbols. -/
def hasSymbols (s : Session ν) : Bool := s.symbols.isSome

/-- The index of the first unit of that name. -/
def unitIndex? (s : Session ν) (name : String) : Option Nat :=
  s.units.findIdx? fun u => u.name == name

/-- Adds entries to the log. -/
def note (s : Session ν) (entries : List LogEntry) : Session ν :=
  { s with log := s.log.addAll entries }

end Session

end Retrace
