import Retrace.File.Storage
import Retrace.Table

/-!
# File trees

A file system in memory: the entries by their absolute location, and a working directory that
relative paths start from. A path is followed one segment at a time, and whatever is passed through
has to be an existing directory.
-/

namespace Retrace

/-- What is at a location. -/
inductive FileEntry
  | directory
  | file (content : ByteArray)

/-- The names from the root to an entry. -/
abbrev FileLocation := List String

/-- The entries below the root, and the directory that relative paths start from. -/
structure FileTree where
  entries : Table FileLocation FileEntry := {}
  workingDirectory : FileLocation := []

namespace FileTree

/-- The tree that holds the working directory and nothing else. -/
def ofWorkingDirectory (location : FileLocation) : FileTree :=
  ⟨Table.ofList ((Path.beginnings location).reverse.map fun l => (l, .directory)), location⟩

/-- What is at a location; the root always is a directory. -/
def entry? (t : FileTree) (location : FileLocation) : Option FileEntry :=
  match location with
  | [] => some .directory
  | _ => t.entries.get? location

/-- Succeeds at an existing directory. -/
def directoryAt (t : FileTree) (location : FileLocation) : Except FileError Unit :=
  match t.entry? location with
  | some .directory => .ok ()
  | some (.file _) => .error .notADirectory
  | none => .error .notFound

/-- The location reached by following segments from a location. -/
def follow (t : FileTree) (location : FileLocation) : List String → Except FileError FileLocation
  | [] => .ok location
  | segment :: rest =>
    match t.directoryAt location with
    | .error e => .error e
    | .ok () =>
      match segment with
      | "" => follow t location rest
      | "." => follow t location rest
      | ".." => follow t location.dropLast rest
      | name => follow t (location ++ [name]) rest

/-- Where the segments of a path start from. -/
def origin (t : FileTree) (p : Path) : FileLocation :=
  if p.isAbsolute then [] else t.workingDirectory

/-- What a path leads to. -/
def find (t : FileTree) (p : Path) : Except FileError FileEntry :=
  if p.text.isEmpty then .error .notFound
  else
    match t.follow (t.origin p) p.segments with
    | .error e => .error e
    | .ok location =>
      match t.entry? location with
      | some entry => .ok entry
      | none => .error .notFound

/-- Whether a path leads to a file. -/
def isFile (t : FileTree) (p : Path) : Bool :=
  match t.find p with
  | .ok (.file _) => true
  | _ => false

/-- Whether a path leads to a directory. -/
def isDirectory (t : FileTree) (p : Path) : Bool :=
  match t.find p with
  | .ok .directory => true
  | _ => false

/-- The names in the directory that a path leads to. -/
def names (t : FileTree) (p : Path) : Except FileError (List String) :=
  match t.follow (t.origin p) p.segments with
  | .error e => .error e
  | .ok location =>
    match t.directoryAt location with
    | .error e => .error e
    | .ok () => .ok (t.entries.keys.filterMap fun key =>
        if key.dropLast = location then key.getLast? else none)

/-- The text of the file that a path leads to. -/
def readText (t : FileTree) (p : Path) : Except FileError String :=
  match t.find p with
  | .error e => .error e
  | .ok .directory => .error .isADirectory
  | .ok (.file content) =>
    match String.fromUTF8? content with
    | some text => .ok text
    | none => .error .notText

/-! ## Creating and removing entries -/

/-- The location that a path would create an entry at: an existing directory, and a name in it.
There is no name if the path ends in `.`, `..` or at the root. -/
def creation (t : FileTree) (p : Path) : Except FileError (FileLocation × Option String) :=
  if p.text.isEmpty then .error .notFound
  else
    let segments := (p.segments.reverse.dropWhile (·.isEmpty)).reverse
    match t.follow (t.origin p) segments.dropLast with
    | .error e => .error e
    | .ok location =>
      match t.directoryAt location with
      | .error e => .error e
      | .ok () =>
        match segments.getLast? with
        | none => .ok (location, none)
        | some "." => .ok (location, none)
        | some ".." => .ok (location, none)
        | some name => .ok (location, some name)

/-- Sets the entry at a location. -/
def set (t : FileTree) (location : FileLocation) (entry : FileEntry) : FileTree :=
  { t with entries := t.entries.insert location entry }

/-- Creates one directory in an existing one. -/
def createDirectory (t : FileTree) (p : Path) : Except FileError FileTree :=
  match t.creation p with
  | .error e => .error e
  | .ok (_, none) => .error .alreadyExists
  | .ok (location, some name) =>
    match t.entry? (location ++ [name]) with
    | some _ => .error .alreadyExists
    | none => .ok (t.set (location ++ [name]) .directory)

/-- Creates the first directory of the list, and for that as many of the others, which lie above it,
as are missing. -/
def createFrom (t : FileTree) : List Path → Except FileError Unit × FileTree
  | [] => (.ok (), t)
  | p :: above =>
    match t.createDirectory p with
    | .ok t => (.ok (), t)
    | .error .alreadyExists => (if t.isDirectory p then .ok () else .error .alreadyExists, t)
    | .error .notFound =>
      match createFrom t above with
      | (.error e, t) => (.error e, t)
      | (.ok (), t) =>
        match t.createDirectory p with
        | .ok t => (.ok (), t)
        | .error .alreadyExists => (if t.isDirectory p then .ok () else .error .alreadyExists, t)
        | .error e => (.error e, t)
    | .error e => (.error e, t)

/-- Creates a directory and those above it, unless they exist. -/
def createDirectories (t : FileTree) (p : Path) : Except FileError Unit × FileTree :=
  t.createFrom p.ancestors

/-- Creates a file in an existing directory, or replaces the content of a file. -/
def write (t : FileTree) (p : Path) (content : ByteArray) : Except FileError Unit × FileTree :=
  match t.creation p with
  | .error e => (.error e, t)
  | .ok (_, none) => (.error .isADirectory, t)
  | .ok (location, some name) =>
    if p.text.toList.getLast? = some '/' then (.error .isADirectory, t)
    else
      match t.entry? (location ++ [name]) with
      | some .directory => (.error .isADirectory, t)
      | _ => (.ok (), t.set (location ++ [name]) (.file content))

/-- Removes a file. -/
def remove (t : FileTree) (p : Path) : Except FileError FileTree :=
  match t.creation p with
  | .error e => .error e
  | .ok (_, none) => .error .isADirectory
  | .ok (location, some name) =>
    match t.entry? (location ++ [name]) with
    | none => .error .notFound
    | some .directory => .error .isADirectory
    | some (.file _) =>
      if p.text.toList.getLast? = some '/' then .error .notADirectory
      else .ok { t with entries := t.entries.erase (location ++ [name]) }

/-- File trees as storage. -/
def storage : Storage FileTree where
  isFile p t := t.isFile p
  isDirectory p t := t.isDirectory p
  names p t := t.names p
  readText p t := t.readText p
  createDirectories p t := t.createDirectories p
  writeText p text t := t.write p text.toUTF8

end FileTree

end Retrace
