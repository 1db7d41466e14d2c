import Retrace.Config
import Retrace.Report.Results
import Retrace.RuleSet.Document

/-!
# Batches

Many binaries, one report each. A binary that fails is noted and passed over, and the next one is
processed. What happened to each target is kept as an outcome; the summary is read off the outcomes.

Everything outside of the library is a `Host` over states of type `σ`: files, the loading of
binaries, and the engine that finds diagnostics. Nothing is assumed about how it behaves.
-/

namespace Retrace

/-- A binary that has been loaded. -/
structure Binary (ν : Type) where
  frontend : Frontend ν
  symbols : Option SymbolProvider

/-- What a batch works with. -/
structure Host (σ ν : Type) where
  storage : Storage σ
  /-- Loads a binary, reconstructed as one file per type or not. -/
  load : Path → Bool → σ → Except Error (Binary ν) × σ
  /-- The findings of analyzers about reconstructed source. -/
  analyze : List SourceUnit → List Path → σ → Except Error (List Diagnostic) × σ
  /-- The findings of the compiler about reconstructed source. -/
  compile : List SourceUnit → σ → Except Error (List Diagnostic) × σ
  /-- The time since the batch started, in seconds. -/
  elapsed : σ → String

/-- The state of a batch. -/
structure BatchState (σ : Type) where
  log : Log
  host : σ

/-- The state of the work on one binary of a batch. -/
structure TargetState (σ ν : Type) where
  session : Session ν
  host : σ

/-- A step of a batch, which may fail and keeps what it did until then. -/
abbrev BatchStep (σ : Type) := EStateM Error (BatchState σ)

/-- A step of the work on one binary. -/
abbrev TargetStep (σ ν : Type) := EStateM Error (TargetState σ ν)

namespace Batch

variable {σ ν : Type}

/-- Where the report on a target goes. -/
def reportPath (output target : Path) : Except Error Path :=
  match target.fileName? with
  | some name => .ok (output.join ⟨name ++ ".sarif"⟩)
  | none => .error (.config s!"target has no file name - {target.text}")

/-- How reports are laid out. -/
def layout (config : Config) : Json.Layout := if config.prettyPrint then .indented else .compact

/-! ## One target -/

/-- Uses the host. -/
def TargetStep.useHost {α : Type} (f : σ → Except Error α × σ) : TargetStep σ ν α := fun t =>
  match f t.host with
  | (.ok a, host) => .ok a { t with host }
  | (.error e, host) => .error e { t with host }

/-- Uses the session. -/
def TargetStep.useSession {α : Type} (f : Session ν → α × Session ν) : TargetStep σ ν α := fun t =>
  let (a, session) := f t.session
  .ok a { t with session }

/-- Adds an entry to the log. -/
def TargetStep.note (level : LogLevel) (text : String) : TargetStep σ ν Unit :=
  TargetStep.useSession fun s => ((), s.note [⟨level, text⟩])

/-- Writes the units of the session. -/
def dump (host : Host σ ν) : TargetStep σ ν Unit := fun t =>
  match t.session.dumpUnits host.storage t.host with
  | (.ok (), session, state) => .ok () ⟨session, state⟩
  | (.error e, session, state) => .error e ⟨session, state⟩

/-- The findings about a binary that the rules let pass. -/
def findings (host : Host σ ν) (config : Config) (analyzers : List Path) (rules : RuleSet) :
    TargetStep σ ν (List Diagnostic) := do
  let units := (← get).session.units
  let found ← TargetStep.useHost (host.analyze units analyzers)
  let more ← if config.compilerDiagnostics then TargetStep.useHost (host.compile units) else pure []
  return (found ++ more).filterMap rules.apply

/-- Describes diagnostics in the log. Nothing is described, and no place looked for, if the log
would drop it. -/
def describeAll : List Diagnostic → Session ν → Session ν
  | [], s => s
  | d :: rest, s =>
    if s.log.threshold.admits .info then
      let (text, s) := s.describe d
      describeAll rest (s.note [⟨.info, text⟩])
    else
      describeAll rest s

/-- The work on a loaded binary, up to its report. -/
def examine (host : Host σ ν) (config : Config) (analyzers : List Path) (rules : RuleSet)
    (target : Path) : TargetStep σ ν Path := do
  if !(← get).session.hasSymbols then
    TargetStep.note .debug s!"No debug symbols for {target.text}"
  dump host
  let diagnostics ← findings host config analyzers rules
  TargetStep.useSession fun s => ((), describeAll diagnostics s)
  let log ← TargetStep.useSession fun s => Report.process s diagnostics
  TargetStep.note .info s!"{diagnostics.length} diagnostic(s) reported for {target.text}"
  let path ← MonadExcept.ofExcept (reportPath config.output target)
  TargetStep.useHost (Report.write host.storage (layout config) log path)
  return path

/-- Adds an entry to the log. -/
def BatchStep.note (level : LogLevel) (text : String) : BatchStep σ Unit :=
  modify fun b => { b with log := b.log.add ⟨level, text⟩ }

/-- The work on one target: loads it, examines it and writes its report. -/
def processTarget (host : Host σ ν) (config : Config) (analyzers : List Path) (rules : RuleSet)
    (target : Path) : BatchStep σ Path := do
  BatchStep.note .info s!"Processing {target.text}"
  fun b =>
    match host.load target config.oneFilePerType b.host with
    | (.error e, state) => .error e { b with host := state }
    | (.ok binary, state) =>
      let session : Session ν :=
        { fileName := target, frontend := binary.frontend, symbols := binary.symbols,
          dumpSource := config.dumpSource, log := b.log }
      match examine host config analyzers rules target ⟨session, state⟩ with
      | .ok path t => .ok path ⟨t.session.log, t.host⟩
      | .error e t => .error e ⟨t.session.log, t.host⟩

/-! ## All targets -/

/-- What happened to a target: where its report is, or why there is none. -/
structure Outcome where
  target : Path
  report : Except Error Path

/-- What the log says about an outcome. -/
def Outcome.note (o : Outcome) : LogEntry :=
  match o.report with
  | .ok path => ⟨.info, s!"Report written to {path.text}"⟩
  | .error .notSupported => ⟨.info, s!"Binary {o.target.text} is not a .NET assembly."⟩
  | .error e => ⟨.error, s!"Failed to process {o.target.text}: {e.message}"⟩

/-- Whether a report was written. -/
def Outcome.isProcessed (o : Outcome) : Bool :=
  match o.report with
  | .ok _ => true
  | .error _ => false

/-- Whether the target failed. A binary that is not of the supported kind does not count. -/
def Outcome.isSkipped (o : Outcome) : Bool :=
  match o.report with
  | .ok _ => false
  | .error .notSupported => false
  | .error _ => true

/-- Processes the targets in order, whatever happens to each. -/
def processAll (host : Host σ ν) (config : Config) (analyzers : List Path) (rules : RuleSet) :
    List Path → BatchState σ → List Outcome × BatchState σ
  | [], b => ([], b)
  | target :: rest, b =>
    let (outcome, b) :=
      match processTarget host config analyzers rules target b with
      | .ok path b => (Outcome.mk target (.ok path), b)
      | .error e b => (Outcome.mk target (.error e), b)
    let b := { b with log := b.log.add outcome.note }
    let (others, b) := processAll host config analyzers rules rest b
    (outcome :: others, b)

/-- What a batch came to. -/
structure Summary where
  /-- How many reports were written. -/
  processed : Nat
  /-- The targets that failed. -/
  skipped : List Path

/-- The summary of outcomes. -/
def Summary.ofOutcomes (outcomes : List Outcome) : Summary where
  processed := outcomes.countP Outcome.isProcessed
  skipped := (outcomes.filter Outcome.isSkipped).map Outcome.target

/-- What the log says at the end. -/
def Summary.notes (elapsed : String) (s : Summary) : List LogEntry :=
  ⟨.info, s!"Processing took {elapsed}s."⟩ ::
    match s.skipped with
    | [] => []
    | skipped =>
      let listed := String.intercalate ", " (skipped.map (·.text))
      [⟨.error, s!"Skipped binaries: {listed}"⟩]

/-- What has to succeed before the first target: the analyzers, the output directory and the rules.
-/
def prepare (host : Host σ ν) (config : Config) : BatchStep σ (List Path × RuleSet) := do
  MonadExcept.ofExcept config.validate
  let (analyzers, notes) := config.analyzerPaths host.storage (← get).host
  modify fun b => { b with log := b.log.addAll notes }
  let analyzers ← MonadExcept.ofExcept analyzers
  fun b =>
    match host.storage.createDirectories config.output b.host with
    | (.error e, state) => .error (.file e) { b with host := state }
    | (.ok (), state) =>
      match RuleSet.ofFiles host.storage state config.ruleSets with
      | .error e => .error e { b with host := state }
      | .ok rules => .ok (analyzers, rules) { b with host := state }

/-- Runs a batch. -/
def run (host : Host σ ν) (config : Config) : BatchStep σ Summary := do
  modify fun b => { b with log := { b.log with threshold := config.threshold } }
  let (analyzers, rules) ← prepare host config
  fun b =>
    let (outcomes, b) := processAll host config analyzers rules config.targets b
    let summary := Summary.ofOutcomes outcomes
    .ok summary { b with log := b.log.addAll (summary.notes (host.elapsed b.host)) }

end Batch

end Retrace
