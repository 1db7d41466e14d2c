import Retrace.Proofs.Batch.Stages
import Retrace.Proofs.Session.Files

/-!
# Which binaries a batch loads

A host does not say what it was asked for. `Host.tracked` is the same host with a list of the
binaries that were loaded, and nothing but the list tells the two apart: every step does over the
tracked host what it does over the host (`Tracks`). The work on a loaded binary leaves the list
alone, the work on a target adds the target (`processTarget_tracked`), and so a batch that gets as
far as its targets adds all of them, in order (`processAll_tracked`), whatever happens to each.
-/

namespace Retrace

variable {σ ν : Type}

/-! ## Tracked hosts -/

/-- The state of a host, and the binaries that were loaded, oldest first. -/
structure Tracked (σ : Type) where
  host : σ
  loads : List Path

/-- An operation of a host that loads nothing. -/
def Tracked.lift {α : Type} (f : σ → α × σ) (t : Tracked σ) : α × Tracked σ :=
  ((f t.host).1, ⟨(f t.host).2, t.loads⟩)

/-- The same files. -/
def Storage.tracked (disk : Storage σ) : Storage (Tracked σ) where
  isFile path t := disk.isFile path t.host
  isDirectory path t := disk.isDirectory path t.host
  names path t := disk.names path t.host
  readText path t := disk.readText path t.host
  createDirectories path := Tracked.lift (disk.createDirectories path)
  writeText path text := Tracked.lift (disk.writeText path text)

/-- The same host, which keeps what it was asked to load. -/
def Host.tracked (host : Host σ ν) : Host (Tracked σ) ν where
  storage := host.storage.tracked
  load target oneFilePerType t :=
    ((host.load target oneFilePerType t.host).1,
      ⟨(host.load target oneFilePerType t.host).2, t.loads ++ [target]⟩)
  analyze units analyzers := Tracked.lift (host.analyze units analyzers)
  compile units := Tracked.lift (host.compile units)
  elapsed t := host.elapsed t.host

/-- The state with a list of loaded binaries. -/
def BatchState.under (b : BatchState σ) (loads : List Path) : BatchState (Tracked σ) :=
  ⟨b.log, ⟨b.host, loads⟩⟩

/-- The state with a list of loaded binaries. -/
def TargetState.under (t : TargetState σ ν) (loads : List Path) : TargetState (Tracked σ) ν :=
  ⟨t.session, ⟨t.host, loads⟩⟩

/-! ## Written copies and reports -/

/-- One operation behind another one is tracked like both of them. -/
theorem Tracked.andThen_lift (f g : σ → Except FileError Unit × σ) :
    Storage.andThen (Tracked.lift f) (Tracked.lift g) = Tracked.lift (Storage.andThen f g) := by
  funext t
  rcases hf : f t.host with ⟨_ | _, files⟩
  · simp only [Storage.andThen, Tracked.lift, hf]
  · simp only [Storage.andThen, Tracked.lift, hf]

namespace Session

variable (disk : Storage σ) (s : Session ν)

/-- Tracking does not show in the creation of directories. -/
theorem createParent_tracked (path : Path) :
    createParent disk.tracked path = Tracked.lift (createParent disk path) := by
  funext t
  unfold createParent Tracked.lift
  cases path.parent? with
  | none => rfl
  | some above => rfl

/-- Tracking does not show in the writing of files. -/
theorem writeAll_tracked (files : List (Path × String)) :
    writeAll disk.tracked files = Tracked.lift (writeAll disk files) := by
  induction files with
  | nil => rfl
  | cons file rest ih =>
    obtain ⟨path, text⟩ := file
    have htext : disk.tracked.writeText path text = Tracked.lift (disk.writeText path text) := rfl
    rw [writeAll_cons, writeAll_cons, createParent_tracked, ih, htext]
    rw [Tracked.andThen_lift, Tracked.andThen_lift]

/-- Tracking does not show in the writing of units. -/
theorem writeUnits_tracked (dump : Path) :
    s.writeUnits disk.tracked dump = Tracked.lift (s.writeUnits disk dump) := by
  rw [writeUnits_eq, writeUnits_eq, writeAll_tracked]
  exact Tracked.andThen_lift _ _

/-- A session that writes its units loads nothing. -/
theorem dumpUnits_tracked (t : Tracked σ) :
    s.dumpUnits disk.tracked t = ((s.dumpUnits disk t.host).1, (s.dumpUnits disk t.host).2.1,
      ⟨(s.dumpUnits disk t.host).2.2, t.loads⟩) := by
  unfold dumpUnits
  cases s.dumpSource with
  | none => rfl
  | some dump =>
    by_cases hfile : disk.isFile dump t.host
    · have hfile' : disk.tracked.isFile dump t := hfile
      simp only [hfile, hfile', if_true]
    · have hfile' : ¬ disk.tracked.isFile dump t := hfile
      simp only [hfile, hfile', writeUnits_tracked, Tracked.lift]
      rcases s.writeUnits disk dump t.host with ⟨_ | _, files⟩
      · rfl
      · rfl

end Session

/-- Tracking does not show in the writing of a report. -/
theorem Report.write_tracked (disk : Storage σ) (layout : Json.Layout) (log : Sarif.Log)
    (path : Path) :
    write disk.tracked layout log path = Tracked.lift (write disk layout log path) := by
  funext t
  have htext : ∀ text,
      disk.tracked.writeText path text = Tracked.lift (disk.writeText path text) := fun _ => rfl
  rcases hwritten : disk.writeText path (log.render layout) t.host with ⟨_ | _, files⟩
  · simp only [write, htext, Tracked.lift, hwritten]
  · simp only [write, htext, Tracked.lift, hwritten]

namespace Batch

variable {α β : Type} {host : Host σ ν} {config : Config} {analyzers : List Path} {rules : RuleSet}
  {target : Path}

/-! ## Steps that load nothing -/

section Tracks

variable {S T : Type} {under : S → List Path → T}

/-- The first step does over a tracked host what the second one does over the host, and leaves alone
what was loaded; `under` adds the loaded binaries to a state. -/
def Tracks (under : S → List Path → T) (x' : EStateM Error T α) (x : EStateM Error S α) : Prop :=
  ∀ s loads, x' (under s loads) = mapState (under · loads) (x s)

theorem Tracks.pure (a : α) : Tracks under (Pure.pure a) (Pure.pure a) := fun _ _ => rfl

/-- Steps that load nothing load nothing together. -/
theorem Tracks.bind {x' : EStateM Error T α} {x : EStateM Error S α} {f' : α → EStateM Error T β}
    {f : α → EStateM Error S β} (hx : Tracks under x' x) (hf : ∀ a, Tracks under (f' a) (f a)) :
    Tracks under (x' >>= f') (x >>= f) := by
  intro s loads
  simp only [Bind.bind, EStateM.bind, hx s loads]
  cases x s with
  | ok a s => exact hf a s loads
  | error e s => rfl

/-- To look at the state first loads nothing. -/
theorem Tracks.get_bind {f' : T → EStateM Error T β} {f : S → EStateM Error S β}
    (hf : ∀ s loads, Tracks under (f' (under s loads)) (f s)) :
    Tracks under (get >>= f') (get >>= f) :=
  fun s loads => hf s loads s loads

/-- A value that may be an error loads nothing. -/
theorem tracks_ofExcept (x : Except Error α) :
    Tracks under (MonadExcept.ofExcept x) (MonadExcept.ofExcept x) := by
  cases x with
  | ok a => exact .pure a
  | error e => exact fun _ _ => rfl

end Tracks

/-- A use of the host other than loading loads nothing. -/
theorem tracks_useHost (f : σ → Except Error α × σ) :
    Tracks TargetState.under (TargetStep.useHost (Tracked.lift f) : TargetStep (Tracked σ) ν α)
      (TargetStep.useHost f) := by
  intro t loads
  unfold TargetStep.useHost Tracked.lift TargetState.under
  dsimp only
  rcases f t.host with ⟨_ | _, host⟩
  · rfl
  · rfl

/-- A use of the session loads nothing. -/
theorem tracks_useSession (f : Session ν → α × Session ν) :
    Tracks TargetState.under (TargetStep.useSession f : TargetStep (Tracked σ) ν α)
      (TargetStep.useSession f) :=
  fun _ _ => rfl

/-- An entry of the log loads nothing. -/
theorem tracks_note (level : LogLevel) (text : String) :
    Tracks TargetState.under (TargetStep.note level text : TargetStep (Tracked σ) ν Unit)
      (TargetStep.note level text) :=
  tracks_useSession _

/-- Writing the units loads nothing. -/
theorem tracks_dump (host : Host σ ν) :
    Tracks TargetState.under (dump host.tracked) (dump host) := by
  intro t loads
  have hdump := t.session.dumpUnits_tracked host.storage (t.under loads).host
  unfold dump
  simp only [TargetState.under] at hdump ⊢
  rw [show host.tracked.storage = host.storage.tracked from rfl, hdump]
  rcases t.session.dumpUnits host.storage t.host with ⟨_ | _, session, host⟩
  · rfl
  · rfl

/-- Asking for findings loads nothing. -/
theorem tracks_findings : Tracks TargetState.under
    (findings host.tracked config analyzers rules) (findings host config analyzers rules) := by
  refine .get_bind fun t loads => ?_
  refine (tracks_useHost _).bind fun found => ?_
  dsimp only
  split
  · exact (tracks_useHost _).bind fun more => .pure _
  · exact .pure _

/-- Publishing a report loads nothing. -/
theorem tracks_publish (diagnostics : List Diagnostic) :
    Tracks TargetState.under (publish host.tracked config target diagnostics)
      (publish host config target diagnostics) := by
  unfold publish
  refine (tracks_useSession _).bind fun _ => ?_
  refine (tracks_useSession _).bind fun log => ?_
  refine (tracks_note _ _).bind fun _ => ?_
  refine (tracks_ofExcept _).bind fun path => ?_
  have hwrite : Report.write host.tracked.storage (layout config) log path =
      Tracked.lift (Report.write host.storage (layout config) log path) :=
    Report.write_tracked host.storage (layout config) log path
  rw [hwrite]
  exact (tracks_useHost _).bind fun _ => .pure path

/-- The work on a loaded binary loads no other one. -/
theorem tracks_examine : Tracks TargetState.under
    (examine host.tracked config analyzers rules target)
    (examine host config analyzers rules target) := by
  have hwork : Tracks TargetState.under
      (do dump host.tracked
          findings host.tracked config analyzers rules >>= publish host.tracked config target)
      (do dump host
          findings host config analyzers rules >>= publish host config target) :=
    (tracks_dump host).bind fun _ => tracks_findings.bind fun ds => tracks_publish ds
  rw [examine_eq, examine_eq]
  refine .get_bind fun t loads => ?_
  dsimp only [TargetState.under]
  split
  · exact (tracks_note _ _).bind fun _ => hwork
  · exact hwork

/-! ## Targets -/

/-- The work on a target loads it, and nothing else. -/
theorem processTarget_tracked (b : BatchState σ) (loads : List Path) :
    processTarget host.tracked config analyzers rules target (b.under loads) =
      mapState (·.under (loads ++ [target])) (processTarget host config analyzers rules target b) := by
  rcases hload : host.load target config.oneFilePerType b.host with ⟨e | binary, state⟩
  · have hload' : host.tracked.load target config.oneFilePerType (b.under loads).host =
        (.error e, ⟨state, loads ++ [target]⟩) := by
      simp only [Host.tracked, BatchState.under, hload]
    rw [processTarget_of_error hload, processTarget_of_error hload']
    rfl
  · have hload' : host.tracked.load target config.oneFilePerType (b.under loads).host =
        (.ok binary, ⟨state, loads ++ [target]⟩) := by
      simp only [Host.tracked, BatchState.under, hload]
    -- a session is opened without a look at the host
    have hopened : (⟨opened config target (b.under loads).log binary,
        ⟨state, loads ++ [target]⟩⟩ : TargetState (Tracked σ) ν) =
        TargetState.under ⟨opened config target b.log binary, state⟩ (loads ++ [target]) := rfl
    rw [processTarget_of_ok hload, processTarget_of_ok hload', hopened, tracks_examine,
      mapState_mapState, mapState_mapState]
    rfl

/-- However the targets turn out, they are all loaded, in order. -/
theorem processAll_tracked (targets : List Path) (b : BatchState σ) (loads : List Path) :
    processAll host.tracked config analyzers rules targets (b.under loads) =
      ((processAll host config analyzers rules targets b).1,
        (processAll host config analyzers rules targets b).2.under (loads ++ targets)) := by
  induction targets generalizing b loads with
  | nil => simp only [processAll, List.append_nil]
  | cons target rest ih =>
    -- the other targets start from a tracked state again, with one more load behind it
    have houtcome : outcomeAt host.tracked config analyzers rules target (b.under loads) =
        outcomeAt host config analyzers rules target b := by
      simp only [outcomeAt, processTarget_tracked, toExcept_mapState]
    have hafter : stateAfter host.tracked config analyzers rules target (b.under loads) =
        (stateAfter host config analyzers rules target b).under (loads ++ [target]) := by
      simp only [stateAfter, houtcome, processTarget_tracked, stateOf_mapState]
      rfl
    rw [processAll_cons, processAll_cons, houtcome, hafter, ih, List.append_assoc]
    rfl

/-! ## Whole batches -/

/-- Tracking does not show in the search for analyzers. -/
theorem analyzersInAll_tracked (disk : Storage σ) (t : Tracked σ) (packages : List Path) :
    Config.analyzersInAll disk.tracked t packages = Config.analyzersInAll disk t.host packages := by
  induction packages with
  | nil => rfl
  | cons package rest ih =>
    have hin : Config.analyzersIn disk.tracked t package =
        Config.analyzersIn disk t.host package := rfl
    rw [Config.analyzersInAll, Config.analyzersInAll, hin, ih]

/-- Tracking does not show in the paths of the analyzers. -/
theorem analyzerPaths_tracked (disk : Storage σ) (t : Tracked σ) :
    config.analyzerPaths disk.tracked t = config.analyzerPaths disk t.host := by
  unfold Config.analyzerPaths
  rw [analyzersInAll_tracked]
  rfl

/-- What has to succeed before the first target loads nothing. -/
theorem tracks_prepare :
    Tracks BatchState.under (prepare host.tracked config) (prepare host config) := by
  unfold prepare
  refine (tracks_ofExcept _).bind fun _ => ?_
  refine .get_bind fun b loads => ?_
  have hpaths : config.analyzerPaths host.tracked.storage (b.under loads).host =
      config.analyzerPaths host.storage b.host :=
    analyzerPaths_tracked host.storage (b.under loads).host
  rw [hpaths]
  dsimp only
  refine .bind (fun _ _ => rfl) fun _ => ?_
  refine (tracks_ofExcept _).bind fun paths => ?_
  intro b loads
  have hrules : ∀ state, RuleSet.ofFiles host.tracked.storage ⟨state, loads⟩ config.ruleSets =
      RuleSet.ofFiles host.storage state config.ruleSets := fun _ => rfl
  have hcreate : host.tracked.storage.createDirectories config.output (b.under loads).host =
      Tracked.lift (host.storage.createDirectories config.output) ⟨b.host, loads⟩ := rfl
  rcases hcreated : host.storage.createDirectories config.output b.host with ⟨_ | _, state⟩
  · simp only [hcreate, Tracked.lift, hcreated]
    rfl
  · simp only [hcreate, Tracked.lift, hcreated, hrules]
    cases RuleSet.ofFiles host.storage state config.ruleSets with
    | error e => rfl
    | ok rules => rfl

/-- The preparation of a batch loads nothing. -/
theorem prepare_tracked (b : BatchState σ) (loads : List Path) :
    prepare host.tracked config (configured config (b.under loads)) =
      mapState (·.under loads) (prepare host config (configured config b)) :=
  tracks_prepare (configured config b) loads

/-- A batch that fails has loaded nothing. -/
theorem run_tracked_of_error {b last : BatchState σ} {e : Error}
    (h : run host config b = .error e last) (loads : List Path) :
    run host.tracked config (b.under loads) = .error e (last.under loads) := by
  have hprepare : prepare host.tracked config (configured config (b.under loads)) = _ :=
    prepare_tracked b loads
  cases hprepared : prepare host config (configured config b) with
  | error e' first =>
    rw [run_of_error hprepared] at h
    cases h
    rw [hprepared] at hprepare
    exact run_of_error hprepare
  | ok prepared first =>
    rw [run_of_ok hprepared] at h
    cases h

/-- A batch that does not fail has loaded all of its targets, in order. -/
theorem run_tracked_of_ok {b last : BatchState σ} {summary : Summary}
    (h : run host config b = .ok summary last) (loads : List Path) :
    run host.tracked config (b.under loads) = .ok summary (last.under (loads ++ config.targets)) := by
  have hprepare : prepare host.tracked config (configured config (b.under loads)) = _ :=
    prepare_tracked b loads
  obtain ⟨analyzers, rules, first, hprepared, rfl, rfl⟩ := exists_prepared_of_run h
  rw [hprepared] at hprepare
  rw [run_of_ok hprepare, processAll_tracked]
  rfl

end Batch

end Retrace
