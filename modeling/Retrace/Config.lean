import Retrace.File.Storage
import Retrace.Log

/-!
# Configuration of a batch

Which binaries to process, how, and where the results go. Analyzers are given as files or found
below package directories.
-/

namespace Retrace

/-- The configuration of a batch. -/
structure Config where
  /-- The binaries to process. -/
  targets : List Path := []
  /-- The rule set files, later ones overriding earlier ones. -/
  ruleSets : List Path := []
  /-- The analyzers given as files. -/
  analyzers : List Path := []
  /-- The packages in which analyzers are looked for. -/
  analyzerPackages : List Path := []
  /-- The directory for the reports. -/
  output : Path := ⟨"PeekerResults"⟩
  /-- Whether the compiler's own diagnostics are reported too. -/
  compilerDiagnostics : Bool := false
  threshold : LogThreshold := .upTo .info
  /-- Whether reports are indented. -/
  prettyPrint : Bool := false
  /-- Whether a binary is reconstructed as one file per type. -/
  oneFilePerType : Bool := false
  /-- The directory that reconstructed source is written to, if it is written at all. -/
  dumpSource : Option Path := none

namespace Config

/-- The threshold of a name. -/
def logThreshold (name : String) : Except Error LogThreshold :=
  match LogThreshold.ofName? name with
  | some threshold => .ok threshold
  | none => .error (.config s!"unknown log level - {name}")

/-- The configuration with the threshold of a name. -/
def withLogLevel (c : Config) (name : String) : Except Error Config :=
  (logThreshold name).map fun threshold => { c with threshold }

/-- Succeeds if there is anything to process. -/
def validate (c : Config) : Except Error Unit :=
  match c.targets with
  | [] => .error (.config "no target binaries provided")
  | _ :: _ => .ok ()

/-- Where a package keeps its analyzers. -/
def analyzerDirectory (package : Path) : Path :=
  ((package.join ⟨"analyzers"⟩).join ⟨"dotnet"⟩).join ⟨"cs"⟩

/-- Whether a path has the extension of an analyzer, in any case of its ASCII letters. -/
def isAnalyzerPath (p : Path) : Bool := p.extension?.any fun e => e.toLower == "dll"

/-- The analyzers of a package, in the order of their names, and what the log says about it. -/
def analyzersIn {σ : Type} (disk : Storage σ) (files : σ) (package : Path) :
    Except Error (List Path) × List LogEntry :=
  let directory := analyzerDirectory package
  if disk.isDirectory directory files then
    match disk.names directory files with
    | .error e => (.error (.file e), [])
    | .ok names =>
      let paths := (names.mergeSort fun a b => a ≤ b).map fun name => directory.join ⟨name⟩
      (.ok (paths.filter fun p => isAnalyzerPath p && disk.isFile p files), [])
  else
    (.ok [], [⟨.debug, s!"No analyzers found below {package.text}"⟩])

/-- The analyzers of packages, in order, up to the first one that cannot be searched. -/
def analyzersInAll {σ : Type} (disk : Storage σ) (files : σ) :
    List Path → Except Error (List Path) × List LogEntry
  | [] => (.ok [], [])
  | package :: rest =>
    match analyzersIn disk files package with
    | (.error e, notes) => (.error e, notes)
    | (.ok found, notes) =>
      let (others, otherNotes) := analyzersInAll disk files rest
      (others.map (found ++ ·), notes ++ otherNotes)

/-- Succeeds if there are analyzers and all of them are files. -/
def checkAnalyzers {σ : Type} (disk : Storage σ) (files : σ) (paths : List Path) :
    Except Error (List Path) :=
  if paths.isEmpty then
    .error (.config "no code analyzers provided")
  else
    match paths.filter fun p => !disk.isFile p files with
    | [] => .ok paths
    | missing =>
      let listed := String.intercalate ", " (missing.map (·.text))
      .error (.config s!"analyzer files not found: {listed}")

/-- The analyzers to use, those given as files first, and what the log says about the search. -/
def analyzerPaths {σ : Type} (disk : Storage σ) (files : σ) (c : Config) :
    Except Error (List Path) × List LogEntry :=
  match analyzersInAll disk files c.analyzerPackages with
  | (.error e, notes) => (.error e, notes)
  | (.ok found, notes) => (checkAnalyzers disk files (c.analyzers ++ found), notes)

end Config

end Retrace
