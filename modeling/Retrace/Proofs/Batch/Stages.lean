import Retrace.Batch

/-!
# The stages of a batch

What each stage of a batch comes to, given how the stages in it turn out. A batch is prepared, and
then its targets are processed one after another (`run_of_error`, `run_of_ok`, `processAll_cons`). A
target is loaded, and what was loaded is examined (`processTarget_of_error`, `processTarget_of_ok`).
To examine a binary is to write its units, to ask for findings and to `publish` these (`examine_eq`).
-/

namespace Retrace

/-! ## Results of stages -/

/-- The result with another view of the state it leaves behind. -/
def mapState {ε σ τ α : Type} (f : σ → τ) : EStateM.Result ε σ α → EStateM.Result ε τ α
  | .ok a s => .ok a (f s)
  | .error e s => .error e (f s)

/-- What a result says, without the state it leaves behind. -/
def toExcept {ε σ α : Type} : EStateM.Result ε σ α → Except ε α
  | .ok a _ => .ok a
  | .error e _ => .error e

/-- The state that a result leaves behind. -/
def stateOf {ε σ α : Type} : EStateM.Result ε σ α → σ
  | .ok _ s => s
  | .error _ s => s

/-- A success leaves some state behind. -/
theorem exists_of_toExcept {ε σ α : Type} {r : EStateM.Result ε σ α} {a : α}
    (h : toExcept r = .ok a) : ∃ s, r = .ok a s := by
  cases r with
  | ok a' s =>
    cases h
    exact ⟨s, rfl⟩
  | error e s => cases h

@[simp] theorem toExcept_mapState {ε σ τ α : Type} (f : σ → τ) (r : EStateM.Result ε σ α) :
    toExcept (mapState f r) = toExcept r := by
  cases r with
  | ok a s => rfl
  | error e s => rfl

@[simp] theorem stateOf_mapState {ε σ τ α : Type} (f : σ → τ) (r : EStateM.Result ε σ α) :
    stateOf (mapState f r) = f (stateOf r) := by
  cases r with
  | ok a s => rfl
  | error e s => rfl

/-- Two views of a state, one after the other, are one. -/
theorem mapState_mapState {ε σ τ υ α : Type} (g : τ → υ) (f : σ → τ) (r : EStateM.Result ε σ α) :
    mapState g (mapState f r) = mapState (fun s => g (f s)) r := by
  cases r with
  | ok a s => rfl
  | error e s => rfl

namespace Batch

variable {σ ν : Type} {host : Host σ ν} {config : Config} {analyzers : List Path} {rules : RuleSet}
  {target : Path}

/-! ## The work on a target -/

/-- The report on the findings about a binary. -/
def publish (host : Host σ ν) (config : Config) (target : Path) (diagnostics : List Diagnostic) :
    TargetStep σ ν Path := do
  TargetStep.useSession fun s => ((), describeAll diagnostics s)
  let log ← TargetStep.useSession fun s => Report.process s diagnostics
  TargetStep.note .info s!"{diagnostics.length} diagnostic(s) reported for {target.text}"
  let path ← MonadExcept.ofExcept (reportPath config.output target)
  TargetStep.useHost (Report.write host.storage (layout config) log path)
  return path

/-- A binary is examined by writing its units, asking for findings and reporting them. -/
theorem examine_eq (host : Host σ ν) (config : Config) (analyzers : List Path) (rules : RuleSet)
    (target : Path) :
    examine host config analyzers rules target = (do
      if !(← get).session.hasSymbols then
        TargetStep.note .debug s!"No debug symbols for {target.text}"
      dump host
      findings host config analyzers rules >>= publish host config target) := rfl

/-- The session on a binary that has been loaded, before any work on it. -/
def opened (config : Config) (target : Path) (log : Log) (binary : Binary ν) : Session ν where
  fileName := target
  frontend := binary.frontend
  symbols := binary.symbols
  dumpSource := config.dumpSource
  log := log.add ⟨.info, s!"Processing {target.text}"⟩

/-- An entry of the log is noted without a failure, and without a use of the host. -/
theorem note_eq (level : LogLevel) (text : String) (b : BatchState σ) :
    BatchStep.note level text b = .ok () ⟨b.log.add ⟨level, text⟩, b.host⟩ := rfl

/-- The work on a target fails with the error that loading it fails with. -/
theorem processTarget_of_error {b : BatchState σ} {e : Error} {state : σ}
    (h : host.load target config.oneFilePerType b.host = (.error e, state)) :
    processTarget host config analyzers rules target b =
      .error e ⟨b.log.add ⟨.info, s!"Processing {target.text}"⟩, state⟩ := by
  simp only [processTarget, Bind.bind, EStateM.bind, note_eq, h]

/-- The work on a target that can be loaded is the work on what was loaded. -/
theorem processTarget_of_ok {b : BatchState σ} {binary : Binary ν} {state : σ}
    (h : host.load target config.oneFilePerType b.host = (.ok binary, state)) :
    processTarget host config analyzers rules target b =
      mapState (fun t => ⟨t.session.log, t.host⟩)
        (examine host config analyzers rules target ⟨opened config target b.log binary, state⟩) := by
  simp only [processTarget, Bind.bind, EStateM.bind, note_eq, h, opened]
  cases examine host config analyzers rules target _ with
  | ok path t => rfl
  | error e t => rfl

/-! ## The targets of a batch -/

/-- What happens to a target. -/
def outcomeAt (host : Host σ ν) (config : Config) (analyzers : List Path) (rules : RuleSet)
    (target : Path) (b : BatchState σ) : Outcome :=
  ⟨target, toExcept (processTarget host config analyzers rules target b)⟩

/-- The state in which a target leaves the batch. -/
def stateAfter (host : Host σ ν) (config : Config) (analyzers : List Path) (rules : RuleSet)
    (target : Path) (b : BatchState σ) : BatchState σ :=
  let after := stateOf (processTarget host config analyzers rules target b)
  { after with log := after.log.add (outcomeAt host config analyzers rules target b).note }

/-- A batch goes on behind a target in the state that the target leaves, whatever happened to it. -/
theorem processAll_cons (rest : List Path) (b : BatchState σ) :
    processAll host config analyzers rules (target :: rest) b =
      let later := processAll host config analyzers rules rest
        (stateAfter host config analyzers rules target b)
      (outcomeAt host config analyzers rules target b :: later.1, later.2) := by
  rw [processAll]
  cases hresult : processTarget host config analyzers rules target b with
  | ok path b => simp only [stateAfter, outcomeAt, hresult, toExcept, stateOf]
  | error e b => simp only [stateAfter, outcomeAt, hresult, toExcept, stateOf]

/-- The state with the threshold of a configuration. -/
def configured (config : Config) (b : BatchState σ) : BatchState σ :=
  { b with log := { b.log with threshold := config.threshold } }

/-- The state with a summary in its log. -/
def concluded (host : Host σ ν) (summary : Summary) (b : BatchState σ) : BatchState σ :=
  { b with log := b.log.addAll (summary.notes (host.elapsed b.host)) }

/-- A batch whose preparation fails processes nothing. -/
theorem run_of_error {b b' : BatchState σ} {e : Error}
    (h : prepare host config (configured config b) = .error e b') :
    run host config b = .error e b' := by
  change EStateM.bind (prepare host config) _ (configured config b) = _
  simp only [EStateM.bind, h]

/-- A batch whose preparation succeeds comes to what happens to its targets. -/
theorem run_of_ok {b b' : BatchState σ}
    (h : prepare host config (configured config b) = .ok (analyzers, rules) b') :
    run host config b =
      let (outcomes, last) := processAll host config analyzers rules config.targets b'
      .ok (.ofOutcomes outcomes) (concluded host (.ofOutcomes outcomes) last) := by
  change EStateM.bind (prepare host config) _ (configured config b) = _
  simp only [EStateM.bind, h]
  rfl

/-- A batch that does not fail has been prepared, and ends in the state that its targets leave, with
the summary in the log. -/
theorem exists_prepared_of_run {b last : BatchState σ} {summary : Summary}
    (h : run host config b = .ok summary last) :
    ∃ (analyzers : List Path) (rules : RuleSet) (first : BatchState σ),
      prepare host config (configured config b) = .ok (analyzers, rules) first ∧
      summary = .ofOutcomes (processAll host config analyzers rules config.targets first).1 ∧
      last = concluded host summary
        (processAll host config analyzers rules config.targets first).2 := by
  cases hprepared : prepare host config (configured config b) with
  | error e first =>
    rw [run_of_error hprepared] at h
    cases h
  | ok prepared first =>
    obtain ⟨analyzers, rules⟩ := prepared
    rw [run_of_ok hprepared] at h
    cases h
    exact ⟨analyzers, rules, first, rfl, rfl, rfl⟩

end Batch

end Retrace
