/-!
# Paths

A path is the text it was given as; it is printed unchanged. Its components are what the text means:
slashes separate them, repeated slashes and inner `.` are skipped, and `..` is kept.
-/

namespace Retrace

/-- The path of a file or directory. -/
structure Path where
  text : String
deriving DecidableEq

namespace Path

/-- A step of a path. -/
inductive Component
  /-- The slash that an absolute path starts with. -/
  | root
  /-- A `.` at the start of a relative path. -/
  | current
  | parent
  | name (text : String)
deriving DecidableEq

/-- The parts of a text between slashes; `n` slashes make `n + 1` parts. -/
def segmentsOf : List Char → List (List Char)
  | [] => [[]]
  | '/' :: rest => [] :: segmentsOf rest
  | c :: rest =>
    match segmentsOf rest with
    | [] => [[c]]
    | segment :: segments => (c :: segment) :: segments

/-- The parts of the path between slashes. -/
def segments (p : Path) : List String := (segmentsOf p.text.toList).map String.ofList

/-- Whether the path starts at the root. -/
def isAbsolute (p : Path) : Bool := p.text.toList.head? = some '/'

/-- What a segment means behind the first one. -/
def componentOf? : String → Option Component
  | "" => none
  | "." => none
  | ".." => some .parent
  | other => some (.name other)

/-- What the path means, step by step. -/
def components (p : Path) : List Component :=
  if p.isAbsolute then
    .root :: p.segments.filterMap componentOf?
  else
    match p.segments with
    | "." :: rest => .current :: rest.filterMap componentOf?
    | segments => segments.filterMap componentOf?

/-- How a component is written. -/
def Component.render : Component → String
  | .root => "/"
  | .current => "."
  | .parent => ".."
  | .name text => text

/-- The path of a list of components. -/
def ofComponents : List Component → Path
  | .root :: rest => ⟨"/" ++ String.intercalate "/" (rest.map Component.render)⟩
  | components => ⟨String.intercalate "/" (components.map Component.render)⟩

/-- The path of `q` as seen from `p`. An absolute path is seen the same from everywhere. -/
def join (p q : Path) : Path :=
  if q.isAbsolute then q
  else if p.text.isEmpty || p.text.toList.getLast? = some '/' then ⟨p.text ++ q.text⟩
  else ⟨p.text ++ "/" ++ q.text⟩

/-- The name that the path ends in, if it ends in one. -/
def fileName? (p : Path) : Option String :=
  match p.components.getLast? with
  | some (.name text) => some text
  | _ => none

/-- The components above the last one, for a path that is neither empty nor the root. -/
def parentComponents? (p : Path) : Option (List Component) :=
  match p.components.getLast? with
  | none => none
  | some .root => none
  | some _ => some p.components.dropLast

/-- The path without its last component. -/
def parent? (p : Path) : Option Path := p.parentComponents?.map ofComponents

/-- The nonempty beginnings of a list, longest first. -/
def beginnings {α : Type} (l : List α) : List (List α) :=
  ((List.range l.length).map fun n => l.take (n + 1)).reverse

/-- The path and the paths above it, up to but not including the root or the empty path. -/
def ancestors (p : Path) : List Path :=
  match p.parentComponents? with
  | none => []
  | some above => p :: ((beginnings above).filter (· != [.root])).map ofComponents

/-- The part of the file name behind its last dot. A dot at the start of the name begins none. -/
def extension? (p : Path) : Option String :=
  match p.fileName? with
  | none => none
  | some name =>
    let reversed := name.toList.reverse
    match reversed.dropWhile (· != '.') with
    | [] => none
    | [_] => none
    | _ => some (String.ofList (reversed.takeWhile (· != '.')).reverse)

end Path

end Retrace
