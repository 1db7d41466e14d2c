import Retrace.Error
import Retrace.SequencePoint.Blob
import Retrace.Table
import Retrace.Token

/-!
# Debug symbols

A symbol provider answers one question: which sequence points the debug symbols hold for a method.
`PortableSymbols` answers it from decoded tables.
-/

namespace Retrace

/-- The points of a method; nothing for a method that the symbols do not describe. -/
abbrev SymbolProvider := Token → Except Error (Option Stream)

/-- The debug information of one method. -/
structure MethodDebugInfo where
  /-- The method's row of the document table, zero if its blob names the document. -/
  document : Nat
  blob : List UInt8
  codeSize : Nat

/-- The tables of portable debug symbols. -/
structure PortableSymbols where
  documents : List String
  methods : Table Token MethodDebugInfo := {}

namespace PortableSymbols

/-- Sets the debug information of a method. -/
def addMethod (s : PortableSymbols) (token : Token) (info : MethodDebugInfo) : PortableSymbols :=
  { s with methods := s.methods.insert token info }

/-- The number of methods with debug information. -/
def methodCount (s : PortableSymbols) : Nat := s.methods.size

/-- The points of a method. An empty blob counts as no information. -/
def points (s : PortableSymbols) : SymbolProvider := fun token =>
  match s.methods.get? token with
  | none => .ok none
  | some info =>
    match info.blob with
    | [] => .ok none
    | _ :: _ =>
      match Blob.points ⟨s.documents, info.codeSize⟩ info.document info.blob with
      | .error e => .error e.toError
      | .ok points => .ok (some points)

end PortableSymbols

end Retrace
