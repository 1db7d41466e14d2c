import Retrace.Proofs.Batch.Accounting
import Retrace.Proofs.Session.Selection

/-!
# Targets that a summary leaves out

A summary says nothing about targets of an unsupported kind. The error that stands for this kind is
the same whoever reports it, and the batch does not ask where it comes from.

* `run_leaves_out_iff` : a target is left out exactly if it is `Rejected`: loading it reports that it
  is not supported, or it was loaded and its units written, and then the analyzers or the compiler
  report the same. No failure to write the units or the report leaves a target out;
* `not_forall_loaded_counted` : so a target may be missing from the summary although it was loaded.
-/

namespace Retrace

namespace Batch

variable {σ ν α β : Type} {host : Host σ ν} {config : Config} {analyzers : List Path}
  {rules : RuleSet} {target : Path}

/-! ## Steps that report something as unsupported -/

/-- The step fails with the error for what is not supported. -/
def Rejects (x : TargetStep σ ν α) (t : TargetState σ ν) : Prop :=
  ∃ t', x t = .error .notSupported t'

section Steps

variable {x : TargetStep σ ν α} {f : α → TargetStep σ ν β} {t t' : TargetState σ ν} {a : α}
  {e : Error}

/-- A step rejects a binary if and only if it fails in the one way that says so. -/
theorem rejects_iff : Rejects x t ↔ toExcept (x t) = .error .notSupported := by
  unfold Rejects
  cases x t with
  | ok a t' => simp [toExcept]
  | error e t' => simp [toExcept]

/-- A step that succeeds rejects nothing. -/
theorem not_rejects_of_ok (h : x t = .ok a t') : ¬ Rejects x t := by
  rintro ⟨t'', ht⟩
  cases h.symm.trans ht

/-- A step that fails rejects the binary if and only if its error says so. -/
theorem rejects_of_error (h : x t = .error e t') : Rejects x t ↔ e = .notSupported := by
  simp [Rejects, h]

/-- To look at the state first rejects nothing. -/
theorem rejects_get_bind {f : TargetState σ ν → TargetStep σ ν β} :
    Rejects (get >>= f) t ↔ Rejects (f t) t := .rfl

/-- Behind a step that succeeds, it is the next one that may reject. -/
theorem rejects_bind_of_ok (h : x t = .ok a t') : Rejects (x >>= f) t ↔ Rejects (f a) t' := by
  simp only [Rejects, Bind.bind, EStateM.bind, h]

/-- Behind a step that fails there is none that could reject. -/
theorem rejects_bind_of_error (h : x t = .error e t') : Rejects (x >>= f) t ↔ Rejects x t := by
  rw [rejects_of_error h]
  simp [Rejects, Bind.bind, EStateM.bind, h]

/-- What comes behind a step does not matter if it rejects nothing. -/
theorem rejects_bind_iff (hf : ∀ a t, ¬ Rejects (f a) t) : Rejects (x >>= f) t ↔ Rejects x t := by
  cases hx : x t with
  | ok a t' =>
    rw [rejects_bind_of_ok hx]
    exact iff_of_false (hf a t') (not_rejects_of_ok hx)
  | error e t' => exact rejects_bind_of_error hx

/-- Steps that never reject do not reject together. -/
theorem not_rejects_bind (hx : ∀ t, ¬ Rejects x t) (hf : ∀ a t, ¬ Rejects (f a) t)
    (t : TargetState σ ν) : ¬ Rejects (x >>= f) t :=
  mt (rejects_bind_iff hf).1 (hx t)

/-- A step that does nothing rejects nothing. -/
theorem not_rejects_pure (a : α) (t : TargetState σ ν) :
    ¬ Rejects (pure a : TargetStep σ ν α) t :=
  not_rejects_of_ok rfl

/-- A use of the session rejects nothing. -/
theorem not_rejects_useSession (g : Session ν → α × Session ν) (t : TargetState σ ν) :
    ¬ Rejects (TargetStep.useSession g) t :=
  not_rejects_of_ok rfl

/-- A value that is another error rejects nothing. -/
theorem not_rejects_ofExcept {r : Except Error α} (h : r ≠ .error .notSupported)
    (t : TargetState σ ν) : ¬ Rejects (MonadExcept.ofExcept r : TargetStep σ ν α) t := by
  rintro ⟨t', ht⟩
  cases r with
  | ok a => cases ht
  | error e =>
    cases ht
    exact h rfl

/-- A use of the host succeeds with what the host gives. -/
theorem useHost_of_ok {g : σ → Except Error α × σ} {state : σ} (h : g t.host = (.ok a, state)) :
    TargetStep.useHost g t = .ok a { t with host := state } := by
  simp only [TargetStep.useHost, h]

/-- A use of the host fails with the error of the host. -/
theorem useHost_of_error {g : σ → Except Error α × σ} {state : σ} (h : g t.host = (.error e, state)) :
    TargetStep.useHost g t = .error e { t with host := state } := by
  simp only [TargetStep.useHost, h]

/-- A use of the host rejects the binary if and only if the host does. -/
theorem rejects_useHost {g : σ → Except Error α × σ} :
    Rejects (TargetStep.useHost g) t ↔ (g t.host).1 = .error .notSupported := by
  simp only [Rejects, TargetStep.useHost]
  rcases g t.host with ⟨e | a, state⟩
  · simp
  · simp

end Steps

/-! ## The work on a binary -/

/-- Writing the units fails with errors about files only. -/
theorem dumpUnits_ne {disk : Storage σ} {s session : Session ν} {files files' : σ} {e : Error}
    (h : s.dumpUnits disk files = (.error e, session, files')) : e ≠ .notSupported := by
  unfold Session.dumpUnits at h
  split at h
  · cases h
  · split at h
    · cases h
    · split at h
      · cases h
        intro hrejected
        cases hrejected
      · cases h

/-- Publishing a report rejects nothing: a missing file name and a failing disk are other errors. -/
theorem not_rejects_publish (diagnostics : List Diagnostic) (t : TargetState σ ν) :
    ¬ Rejects (publish host config target diagnostics) t := by
  unfold publish
  refine not_rejects_bind (not_rejects_useSession _) (fun _ => ?_) t
  refine not_rejects_bind (not_rejects_useSession _) (fun log => ?_)
  refine not_rejects_bind (not_rejects_useSession _) (fun _ => ?_)
  refine not_rejects_bind (not_rejects_ofExcept ?_) (fun path => ?_)
  · intro hpath
    unfold reportPath at hpath
    split at hpath
    · cases hpath
    · cases hpath
  · refine not_rejects_bind (fun t => ?_) (fun _ => not_rejects_pure path)
    rw [rejects_useHost]
    intro hwrite
    unfold Report.write at hwrite
    split at hwrite
    · cases hwrite
    · cases hwrite

/-- The engine reports units as unsupported: the analyzers do, or the compiler after them. -/
inductive EngineRejects (host : Host σ ν) (config : Config) (analyzers : List Path)
    (units : List SourceUnit) (state : σ) : Prop
  | analyzers (h : (host.analyze units analyzers state).1 = .error .notSupported)
  | compiler {found : List Diagnostic} {after : σ}
    (analyzed : host.analyze units analyzers state = (.ok found, after))
    (asked : config.compilerDiagnostics = true)
    (h : (host.compile units after).1 = .error .notSupported)

/-- If the analyzers answer, only the compiler can reject, and only if it is asked. -/
theorem EngineRejects.iff_of_ok {units : List SourceUnit} {state after : σ} {found : List Diagnostic}
    (h : host.analyze units analyzers state = (.ok found, after)) :
    EngineRejects host config analyzers units state ↔
      config.compilerDiagnostics = true ∧ (host.compile units after).1 = .error .notSupported := by
  constructor
  · rintro (hanalyzers | ⟨hanalyzed, hasked, hcompiler⟩)
    · rw [h] at hanalyzers
      cases hanalyzers
    · cases h.symm.trans hanalyzed
      exact ⟨hasked, hcompiler⟩
  · rintro ⟨hasked, hcompiler⟩
    exact .compiler h hasked hcompiler

/-- If the analyzers fail, it is by their error. -/
theorem EngineRejects.iff_of_error {units : List SourceUnit} {state after : σ} {e : Error}
    (h : host.analyze units analyzers state = (.error e, after)) :
    EngineRejects host config analyzers units state ↔ e = .notSupported := by
  constructor
  · rintro (hanalyzers | ⟨hanalyzed, -, -⟩)
    · rw [h] at hanalyzers
      exact Except.error.inj hanalyzers
    · cases h.symm.trans hanalyzed
  · rintro rfl
    exact .analyzers (congrArg Prod.fst h)

/-- Asking for findings rejects a binary if and only if the engine does. -/
theorem rejects_findings {t : TargetState σ ν} : Rejects (findings host config analyzers rules) t ↔
    EngineRejects host config analyzers t.session.units t.host := by
  unfold findings
  rw [rejects_get_bind]
  -- the compiler is asked only behind analyzers that succeed
  rcases hanalyzed : host.analyze t.session.units analyzers t.host with ⟨e | found, state⟩
  · rw [rejects_bind_of_error (useHost_of_error hanalyzed), rejects_useHost, hanalyzed,
      EngineRejects.iff_of_error hanalyzed]
    simp
  · rw [rejects_bind_of_ok (useHost_of_ok hanalyzed), EngineRejects.iff_of_ok hanalyzed]
    dsimp only
    split
    · next hasked =>
      rw [rejects_bind_iff fun _ => not_rejects_pure _, rejects_useHost]
      simp [hasked]
    · next hasked => simp [not_rejects_pure, hasked]

/-- How writing the units turns out does not depend on the log. -/
theorem dumpUnits_note (disk : Storage σ) (s : Session ν) (entries : List LogEntry) (files : σ) :
    ((s.note entries).dumpUnits disk files).1 = (s.dumpUnits disk files).1 ∧
      ((s.note entries).dumpUnits disk files).2.2 = (s.dumpUnits disk files).2.2 := by
  have hunits : ∀ dump, (s.note entries).writeUnits disk dump = s.writeUnits disk dump :=
    fun _ => rfl
  have hdump : (s.note entries).dumpSource = s.dumpSource := rfl
  unfold Session.dumpUnits
  rw [hdump]
  cases s.dumpSource with
  | none => exact ⟨rfl, rfl⟩
  | some dump =>
    dsimp only
    split
    · exact ⟨rfl, rfl⟩
    · rw [hunits]
      rcases s.writeUnits disk dump files with ⟨_ | _, files⟩
      · exact ⟨rfl, rfl⟩
      · exact ⟨rfl, rfl⟩

/-- The units are written, and then the engine reports them as unsupported. -/
def WorkRejects (host : Host σ ν) (config : Config) (analyzers : List Path) (s : Session ν)
    (state : σ) : Prop :=
  (s.dumpUnits host.storage state).1 = .ok () ∧
    EngineRejects host config analyzers s.units (s.dumpUnits host.storage state).2.2

/-- The work on a loaded binary rejects it if and only if its units are written and the engine then
rejects them. -/
theorem rejects_work {t : TargetState σ ν} :
    Rejects (dump host >>= fun _ =>
        findings host config analyzers rules >>= publish host config target) t ↔
      WorkRejects host config analyzers t.session t.host := by
  unfold WorkRejects
  rcases hdumped : t.session.dumpUnits host.storage t.host with ⟨e | _, session, state⟩
  · have hdump : dump host t = .error e ⟨session, state⟩ := by simp only [dump, hdumped]
    rw [rejects_bind_of_error hdump, rejects_of_error hdump]
    simp [dumpUnits_ne hdumped]
  · have hdump : dump host t = .ok () ⟨session, state⟩ := by simp only [dump, hdumped]
    have hunits : session.units = t.session.units := by
      have hfrontend := (t.session.dumpUnits_collaborators host.storage t.host).2.1
      rw [hdumped] at hfrontend
      exact congrArg Frontend.units hfrontend
    rw [rejects_bind_of_ok hdump, rejects_bind_iff not_rejects_publish, rejects_findings, hunits]
    simp

/-- Of the work on a loaded binary, only the engine can report it as unsupported. -/
theorem rejects_examine {t : TargetState σ ν} :
    Rejects (examine host config analyzers rules target) t ↔
      WorkRejects host config analyzers t.session t.host := by
  rw [examine_eq, rejects_get_bind]
  dsimp only
  split
  · have hnote : TargetStep.note .debug s!"No debug symbols for {target.text}" t =
        .ok () ⟨t.session.note [⟨.debug, s!"No debug symbols for {target.text}"⟩], t.host⟩ := rfl
    obtain ⟨hresult, hfiles⟩ := dumpUnits_note host.storage t.session
      [⟨.debug, s!"No debug symbols for {target.text}"⟩] t.host
    rw [rejects_bind_of_ok hnote, rejects_work]
    simp only [WorkRejects, hresult, hfiles]
    rfl
  · exact rejects_work

/-! ## Targets that are left out -/

/-- A target is reported as unsupported, by the loading of it or by the engine. -/
inductive Rejected (host : Host σ ν) (config : Config) (analyzers : List Path) (target : Path)
    (b : BatchState σ) : Prop
  | load (h : (host.load target config.oneFilePerType b.host).1 = .error .notSupported)
  | engine {binary : Binary ν} {state : σ}
    (loaded : host.load target config.oneFilePerType b.host = (.ok binary, state))
    (h : WorkRejects host config analyzers (opened config target b.log binary) state)

/-- A target is of an unsupported kind if the frontend or the engine says so. -/
theorem isUnsupported_outcomeAt_iff {b : BatchState σ} :
    (outcomeAt host config analyzers rules target b).IsUnsupported ↔
      Rejected host config analyzers target b := by
  unfold Outcome.IsUnsupported outcomeAt
  dsimp only
  rcases hload : host.load target config.oneFilePerType b.host with ⟨e | binary, state⟩
  · rw [processTarget_of_error hload]
    constructor
    · rintro ⟨⟩
      exact .load (congrArg Prod.fst hload)
    · rintro (h | ⟨hloaded, -⟩)
      · rw [hload] at h
        exact congrArg Except.error (Except.error.inj h)
      · cases hload.symm.trans hloaded
  · rw [processTarget_of_ok hload, toExcept_mapState, ← rejects_iff, rejects_examine]
    constructor
    · exact .engine hload
    · rintro (h | ⟨hloaded, h⟩)
      · rw [hload] at h
        cases h
      · cases hload.symm.trans hloaded
        exact h

/-- A summary neither counts nor lists the targets that are rejected, whether by the loading of them
or by the engine, and accounts for all others. -/
theorem run_leaves_out_iff {b last : BatchState σ} {summary : Summary}
    (h : run host config b = .ok summary last) :
    ∃ (analyzers : List Path) (rules : RuleSet) (first : BatchState σ) (outcomes : List Outcome),
      prepare host config (configured config b) = .ok (analyzers, rules) first ∧
      outcomes.map Outcome.target = config.targets ∧
      (∀ i o, outcomes[i]? = some o → o = outcomeAt host config analyzers rules o.target
        (stateBefore host config analyzers rules first i)) ∧
      summary = ⟨outcomes.countP fun o => o.Succeeds,
        (outcomes.filter fun o => o.Fails).map Outcome.target⟩ ∧
      ∀ i o, outcomes[i]? = some o → (¬ o.Succeeds ∧ ¬ o.Fails ↔
        Rejected host config analyzers o.target
          (stateBefore host config analyzers rules first i)) := by
  obtain ⟨analyzers, rules, first, outcomes, hprepared, htargets, houtcomes, hsummary⟩ :=
    exists_outcomes_of_run h
  refine ⟨analyzers, rules, first, outcomes, hprepared, htargets, houtcomes, hsummary,
    fun i o ho => ?_⟩
  have hrejected : (outcomeAt host config analyzers rules o.target
      (stateBefore host config analyzers rules first i)).IsUnsupported ↔ _ :=
    isUnsupported_outcomeAt_iff
  rw [← Outcome.isUnsupported_iff, ← hrejected, ← houtcomes i o ho]

/-- The sample host with analyzers that do not support what they are given. -/
def rejectingHost : Host Unit Unit := { sampleHost with
  analyze := fun _ _ _ => (.error .notSupported, ()) }

/-- A batch of the one binary that the sample host loads. -/
def singleConfig : Config := { sampleConfig with targets := [⟨"good.dll"⟩] }

/-- The binary is neither counted nor listed. -/
theorem toExcept_run_single : toExcept (run rejectingHost singleConfig ⟨{}, ()⟩) = .ok ⟨0, []⟩ :=
  rfl

/-- The only target of a batch is rejected by the engine, and is in neither count. -/
theorem run_leaves_out_iff_of_single :
    ∃ last, run rejectingHost singleConfig ⟨{}, ()⟩ = .ok ⟨0, []⟩ last ∧
      ∃ (analyzers : List Path) (b : BatchState Unit),
        Rejected rejectingHost singleConfig analyzers ⟨"good.dll"⟩ b := by
  obtain ⟨last, hrun⟩ := exists_of_toExcept toExcept_run_single
  obtain ⟨analyzers, rules, first, outcomes, -, htargets, -, hsummary, hiff⟩ :=
    run_leaves_out_iff hrun
  have hlength : outcomes.length = 1 := by rw [← List.length_map, htargets]; rfl
  obtain ⟨o, rfl⟩ := List.length_eq_one_iff.1 hlength
  obtain ⟨hcount, hlist⟩ := Summary.mk.inj hsummary
  have hsucceeds : ¬ o.Succeeds := fun h => by simp [h] at hcount
  have hfails : ¬ o.Fails := fun h => by simp [h] at hlist
  have htarget : o.target = ⟨"good.dll"⟩ := (List.cons.inj htargets).1
  exact ⟨last, hrun, analyzers, _, htarget ▸ (hiff 0 o rfl).1 ⟨hsucceeds, hfails⟩⟩

/-- A target that is loaded, in whatever state the host is, need not be counted or listed. -/
theorem not_forall_loaded_counted :
    ¬ ∀ (host : Host Unit Unit) (config : Config) (b last : BatchState Unit) (summary : Summary),
      run host config b = .ok summary last → ∀ target ∈ config.targets,
        (∀ state, ∃ binary, (host.load target config.oneFilePerType state).1 = .ok binary) →
          0 < summary.processed ∨ target ∈ summary.skipped := by
  intro hcounted
  obtain ⟨last, hrun⟩ := exists_of_toExcept toExcept_run_single
  have hloaded : ∀ state, ∃ binary, (rejectingHost.load ⟨"good.dll"⟩
      singleConfig.oneFilePerType state).1 = .ok binary := fun _ => ⟨_, rfl⟩
  rcases hcounted _ _ _ _ _ hrun ⟨"good.dll"⟩ List.mem_cons_self hloaded with hcount | hlisted
  · exact Nat.lt_irrefl 0 hcount
  · cases hlisted

end Batch

end Retrace
