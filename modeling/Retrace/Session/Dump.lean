import Retrace.File.Storage
import Retrace.Session.Basic

/-!
# Written copies of reconstructed source

The units of a session can be written to files, one directory per binary. The paths of these files
also serve as the place of diagnostics that have no other.
-/

namespace Retrace

/-- The directory below the dump directory that a binary's units are written to. -/
def dumpDirectory (fileName dump : Path) : Path :=
  match fileName.fileName? with
  | some name => dump.join ⟨name⟩
  | none => dump.join fileName

namespace Session

variable {ν σ : Type}

/-- The file that a unit is written to below a dump directory. -/
def dumpPathIn (s : Session ν) (dump : Path) (u : SourceUnit) : Path :=
  (dumpDirectory s.fileName dump).join ⟨u.fileName⟩

/-- The file that a unit is or would be written to. -/
def dumpPath? (s : Session ν) (unit : Nat) : Option Path :=
  match s.dumpSource, s.units[unit]? with
  | some dump, some u => some (s.dumpPathIn dump u)
  | _, _ => none

/-- Writes texts to files, creating the directories above them, up to the first failure. -/
def writeAll (disk : Storage σ) : List (Path × String) → σ → Except FileError Unit × σ
  | [], files => (.ok (), files)
  | (path, text) :: rest, files =>
    match path.parent?.elim (.ok (), files) fun above => disk.createDirectories above files with
    | (.error e, files) => (.error e, files)
    | (.ok (), files) =>
      match disk.writeText path text files with
      | (.error e, files) => (.error e, files)
      | (.ok (), files) => writeAll disk rest files

/-- Creates the directory of the binary and writes its units. -/
def writeUnits (disk : Storage σ) (s : Session ν) (dump : Path) (files : σ) :
    Except FileError Unit × σ :=
  match disk.createDirectories (dumpDirectory s.fileName dump) files with
  | (.error e, files) => (.error e, files)
  | (.ok (), files) => writeAll disk (s.units.map fun u => (s.dumpPathIn dump u, u.text)) files

/-- Writes the units, if the session has a dump directory. If a file is in its place, the session
goes on without one. -/
def dumpUnits (disk : Storage σ) (s : Session ν) (files : σ) : Except Error Unit × Session ν × σ :=
  match s.dumpSource with
  | none => (.ok (), s, files)
  | some dump =>
    if disk.isFile dump files then
      let s := s.note
        [⟨.error, s!"Decompiled source will not be dumped to {dump.text} " ++
          "because a file exists with that name"⟩]
      (.ok (), { s with dumpSource := none }, files)
    else
      match s.writeUnits disk dump files with
      | (.error e, files) => (.error (.file e), s, files)
      | (.ok (), files) =>
        let count := s.units.length
        let s := s.note
          [⟨.debug, s!"Dumped {count} unit(s) of {s.fileName.text} to {dump.text}"⟩]
        (.ok (), s, files)

end Session

end Retrace
