import Retrace.Error
import Retrace.File.Path

/-!
# Storage

What the library needs from a file system whose state is a value of type `σ`. Nothing is assumed
about how the operations relate to each other; any of them may fail at any time.
-/

namespace Retrace

/-- The file operations over states of type `σ`. -/
structure Storage (σ : Type) where
  /-- Whether a path names an existing file. -/
  isFile : Path → σ → Bool
  /-- Whether a path names an existing directory. -/
  isDirectory : Path → σ → Bool
  /-- The names in a directory, in any order. -/
  names : Path → σ → Except FileError (List String)
  /-- The text of a file. -/
  readText : Path → σ → Except FileError String
  /-- Creates a directory and those above it, unless they exist. -/
  createDirectories : Path → σ → Except FileError Unit × σ
  /-- Creates a file with a text, or replaces the text of an existing one. -/
  writeText : Path → String → σ → Except FileError Unit × σ

end Retrace
