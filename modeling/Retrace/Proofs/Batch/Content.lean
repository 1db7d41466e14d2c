import Retrace.Proofs.Batch.Unsupported
import Retrace.Proofs.Report.References
import Retrace.Proofs.Session.Selection

/-!
# What is in the report on a target

A target whose report is written went through every stage without a failure: `Completed` holds what
each of them gave. From it `processTarget_report` says what the report consists of. The findings
that the rules let pass are reported in order, as far as they have a descriptor, each with the
severity that the rules gave it and at the place that the session gives it. They are described in
the log first, and that changes nothing (`process_describeAll`).
-/

namespace Retrace

namespace Report

variable {ν : Type} {s t : Session ν} {ds : List Diagnostic}

/-! ## Reports of sessions that have got further -/

/-- What a result says about a diagnostic of a session. -/
structure Tells (s : Session ν) (d : Diagnostic) (r : Sarif.Result) : Prop where
  /-- It is reported under the rule of its descriptor. -/
  rule : d.descriptor.map (·.id) = some r.ruleId
  level : r.level = d.severity.level
  /-- An empty message is left out. -/
  message : r.message = if d.message = "" then none else some d.message
  /-- It has one location: the region that the session finds for it, or else the binary as a whole,
  with the reported location as a logical one. -/
  locations : r.locations = [match (s.resolve d).1 with
    | some found => ⟨some ⟨found.path, some (region found.span)⟩, []⟩
    | none => ⟨some ⟨s.fileName.text, none⟩, [⟨d.location.render, "module"⟩]⟩]

/-- What a result says about a diagnostic does not depend on what was asked before it. -/
theorem Reports.tells {rules : List Sarif.Rule} {d : Diagnostic} {r : Sarif.Result}
    (hfaithful : s.Faithful) (h : Reports s rules d r) : Tells s d r := by
  cases h with
  | @intro rule index t hdescriptor hlater hindexed =>
    have hplace : (t.resolve d).1 = (s.resolve d).1 := by
      rw [(t.resolve_spec d).2 (hlater.faithful hfaithful), hlater.direct,
        (s.resolve_spec d).2 hfaithful]
    refine ⟨congrArg (Option.map (·.id)) hdescriptor, rfl, ?_, ?_⟩
    · simp [result]
    · change [place s.fileName d.location (t.resolve d).1] = _
      rw [hplace]
      cases (s.resolve d).1 with
      | none => rfl
      | some found => rfl

/-- Results depend on what the sessions would answer without a memory, and on nothing else. -/
theorem results_eq_of_direct (hs : s.Faithful) (ht : t.Faithful)
    (hdirect : ∀ d, t.direct d = s.direct d) (hname : t.fileName = s.fileName)
    (registry : RuleRegistry) (ds : List Diagnostic) :
    (results registry t ds).1 = (results registry s ds).1 ∧
      (results registry t ds).2.1 = (results registry s ds).2.1 := by
  induction ds generalizing registry s t with
  | nil => exact ⟨rfl, rfl⟩
  | cons d rest ih =>
    cases hd : d.descriptor with
    | none =>
      rw [results_of_none hd, results_of_none hd]
      exact ih (s.continues_note _ |>.faithful hs) (t.continues_note _ |>.faithful ht)
        (fun d' => ((t.continues_note _).direct d').trans
          ((hdirect d').trans ((s.continues_note _).direct d').symm)) hname
        registry
    | some rule =>
      obtain ⟨hslater, hsplace⟩ := s.resolve_spec d
      obtain ⟨htlater, htplace⟩ := t.resolve_spec d
      obtain ⟨hresults, hregistry⟩ := ih (hslater.faithful hs) (htlater.faithful ht)
        (fun d' => (htlater.direct d').trans ((hdirect d').trans (hslater.direct d').symm))
        (htlater.fileName.trans (hname.trans hslater.fileName.symm)) (registry.register rule).2
      rw [results_of_some hd, results_of_some hd]
      simp only [htplace ht, hsplace hs, hdirect, hname, hresults, hregistry, and_self]

end Report

namespace Batch

open Session

variable {σ ν : Type} {host : Host σ ν} {config : Config} {analyzers : List Path} {rules : RuleSet}
  {target : Path} {s : Session ν} {ds : List Diagnostic}

/-- Describing diagnostics only fills the caches and the log of a session. -/
theorem continues_describeAll (ds : List Diagnostic) (s : Session ν) :
    s.Continues (describeAll ds s) := by
  induction ds generalizing s with
  | nil => exact .refl s
  | cons d rest ih =>
    rw [describeAll]
    split
    · exact (continues_describe s d).trans ((continues_note _ _).trans (ih _))
    · exact ih s

/-- Describing diagnostics first does not change the report on them. -/
theorem process_describeAll (hfaithful : s.Faithful) (ds : List Diagnostic) :
    (Report.process (describeAll ds s) ds).1 = (Report.process s ds).1 := by
  have hlater := continues_describeAll ds s
  obtain ⟨hresults, hregistry⟩ := Report.results_eq_of_direct hfaithful
    (hlater.faithful hfaithful) hlater.direct hlater.fileName {} ds
  simp only [Report.process, hresults, hregistry]

/-! ## Stages that succeed -/

section Steps

/-- Two stages succeed if the first one does, and the second one in the state it leaves. -/
theorem bind_eq_ok_iff {ε τ α β : Type} {x : EStateM ε τ α} {f : α → EStateM ε τ β} {s s' : τ}
    {b : β} : (x >>= f) s = .ok b s' ↔ ∃ a s₁, x s = .ok a s₁ ∧ f a s₁ = .ok b s' := by
  simp only [Bind.bind, EStateM.bind]
  cases x s with
  | ok a s₁ => simp
  | error e s₁ => simp

/-- A value that may be an error succeeds in any state, and leaves it alone. -/
theorem ofExcept_eq_ok_iff {ε τ α : Type} {r : Except ε α} {s s' : τ} {a : α} :
    (MonadExcept.ofExcept r : EStateM ε τ α) s = .ok a s' ↔ r = .ok a ∧ s' = s := by
  cases r with
  | error e =>
    change EStateM.Result.error e s = .ok a s' ↔ _
    simp
  | ok a' =>
    change EStateM.Result.ok a' s = .ok a s' ↔ _
    simp [eq_comm]

variable {α : Type} {t t' : TargetState σ ν} {a : α}

/-- A use of the host succeeds with what the host gives, and changes nothing but the host. -/
theorem useHost_eq_ok_iff {g : σ → Except Error α × σ} : TargetStep.useHost g t = .ok a t' ↔
    ∃ state, g t.host = (.ok a, state) ∧ t' = { t with host := state } := by
  simp only [TargetStep.useHost]
  rcases g t.host with ⟨e | a', state⟩
  · simp
  · simp [eq_comm]

/-- A use of the session always succeeds, and changes nothing but the session. -/
theorem useSession_eq_ok_iff {g : Session ν → α × Session ν} :
    TargetStep.useSession g t = .ok a t' ↔
      a = (g t.session).1 ∧ t' = { t with session := (g t.session).2 } := by
  simp [TargetStep.useSession, eq_comm]

/-- The units are written if the session can write them. -/
theorem dump_eq_ok_iff : dump host t = .ok () t' ↔
    t.session.dumpUnits host.storage t.host = (.ok (), t'.session, t'.host) := by
  unfold dump
  rcases t.session.dumpUnits host.storage t.host with ⟨e | _, session, state⟩
  · simp
  · obtain ⟨session', state'⟩ := t'
    simp

/-- What the compiler adds to the findings, if it is asked. -/
inductive CompilerAdds (host : Host σ ν) (config : Config) (units : List SourceUnit) (state : σ) :
    List Diagnostic → σ → Prop
  | asked {more : List Diagnostic} {after : σ} (h : config.compilerDiagnostics = true)
    (answer : host.compile units state = (.ok more, after)) :
    CompilerAdds host config units state more after
  | silent (h : config.compilerDiagnostics = false) : CompilerAdds host config units state [] state

/-- If there are findings, the analyzers have answered, and the compiler too if it was asked. The
rules are applied to all of them, and the session is as before. -/
theorem findings_eq_ok (h : findings host config analyzers rules t = .ok ds t') :
    ∃ found analyzed more, host.analyze t.session.units analyzers t.host = (.ok found, analyzed) ∧
      CompilerAdds host config t.session.units analyzed more t'.host ∧
      ds = (found ++ more).filterMap rules.apply ∧ t'.session = t.session := by
  change (TargetStep.useHost _ >>= _) t = _ at h
  obtain ⟨found, t₁, hanalyzed, h⟩ := bind_eq_ok_iff.1 h
  obtain ⟨analyzed, hanalyze, rfl⟩ := useHost_eq_ok_iff.1 hanalyzed
  split at h
  · next hasked =>
    obtain ⟨more, t₂, hcompiled, h⟩ := bind_eq_ok_iff.1 h
    obtain ⟨compiled, hcompile, rfl⟩ := useHost_eq_ok_iff.1 hcompiled
    cases h
    exact ⟨found, analyzed, more, hanalyze, .asked hasked hcompile, rfl, rfl⟩
  · next hasked =>
    cases h
    exact ⟨found, analyzed, [], hanalyze, .silent (Bool.eq_false_iff.2 hasked), rfl, rfl⟩

/-- If the report is written, it is the one on this very session, and it goes to the path of the
target. -/
theorem publish_eq_ok {path : Path} (hfaithful : t.session.Faithful)
    (h : publish host config target ds t = .ok path t') :
    reportPath config.output target = .ok path ∧
      Report.write host.storage (layout config) (Report.process t.session ds).1 path t.host =
        (.ok (), t'.host) := by
  obtain ⟨_, t₁, hdescribed, h⟩ := bind_eq_ok_iff.1 h
  obtain ⟨-, rfl⟩ := useSession_eq_ok_iff.1 hdescribed
  obtain ⟨log, t₂, hprocessed, h⟩ := bind_eq_ok_iff.1 h
  obtain ⟨rfl, rfl⟩ := useSession_eq_ok_iff.1 hprocessed
  obtain ⟨_, t₃, hnoted, h⟩ := bind_eq_ok_iff.1 h
  obtain ⟨-, rfl⟩ := useSession_eq_ok_iff.1 hnoted
  obtain ⟨path', t₄, hnamed, h⟩ := bind_eq_ok_iff.1 h
  obtain ⟨hpath, rfl⟩ := ofExcept_eq_ok_iff.1 hnamed
  obtain ⟨_, t₅, hwritten, h⟩ := bind_eq_ok_iff.1 h
  obtain ⟨state, hwrite, rfl⟩ := useHost_eq_ok_iff.1 hwritten
  cases h
  dsimp only at hwrite
  rw [process_describeAll hfaithful] at hwrite
  exact ⟨hpath, hwrite⟩

end Steps

/-! ## Targets that are completed -/

/-- The session on a loaded binary when its units are written. -/
def started (config : Config) (target : Path) (log : Log) (binary : Binary ν) : Session ν :=
  let s := opened config target log binary
  if s.hasSymbols then s else s.note [⟨.debug, s!"No debug symbols for {target.text}"⟩]

/-- The work on a loaded binary is to write its units, to ask for findings, and to publish them. -/
theorem examine_opened (log : Log) (binary : Binary ν) (state : σ) :
    examine host config analyzers rules target ⟨opened config target log binary, state⟩ =
      (dump host >>= fun _ => findings host config analyzers rules >>= publish host config target)
        ⟨started config target log binary, state⟩ := by
  rw [examine_eq, started]
  change (if !(opened config target log binary).hasSymbols then _ else _ : TargetStep σ ν Path) _ = _
  cases (opened config target log binary).hasSymbols with
  | true => rfl
  | false => rfl

/-- How the work on a target succeeds: it is loaded, its units are written, the analyzers find
something, the compiler may add to it, and the log of what the rules let pass is written. -/
inductive Completed (host : Host σ ν) (config : Config) (analyzers : List Path) (rules : RuleSet)
    (target : Path) (b : BatchState σ) :
    Session ν → List Diagnostic → Sarif.Log → Path → BatchState σ → Prop
  | intro {binary : Binary ν} {loaded dumped analyzed compiled : σ} {session : Session ν}
    {found more : List Diagnostic} {log : Sarif.Log} {path : Path} {last : BatchState σ}
    (load : host.load target config.oneFilePerType b.host = (.ok binary, loaded))
    (dump : (started config target b.log binary).dumpUnits host.storage loaded =
      (.ok (), session, dumped))
    (analyze : host.analyze session.units analyzers dumped = (.ok found, analyzed))
    (compile : CompilerAdds host config session.units analyzed more compiled)
    (process : log = (Report.process session ((found ++ more).filterMap rules.apply)).1)
    (name : reportPath config.output target = .ok path)
    (write : Report.write host.storage (layout config) log path compiled = (.ok (), last.host)) :
    Completed host config analyzers rules target b session
      ((found ++ more).filterMap rules.apply) log path last

/-- The session that the work on a target starts with is reachable. -/
theorem reachable_started (config : Config) (target : Path) (log : Log) (binary : Binary ν) :
    (started config target log binary).Reachable := by
  have hopened : (opened config target log binary).Reachable := .opened rfl
  unfold started
  dsimp only
  split
  · exact hopened
  · exact hopened.noted _

/-- Another view of the state does not change whether a result is a success. -/
theorem mapState_eq_ok_iff {ε τ υ α : Type} {f : τ → υ} {r : EStateM.Result ε τ α} {a : α} {s : υ} :
    mapState f r = .ok a s ↔ ∃ s', r = .ok a s' ∧ s = f s' := by
  cases r with
  | ok a' s' => simp [mapState, eq_comm]
  | error e s' => simp [mapState]

/-- A target that succeeds went through all of its stages. -/
theorem completed_of_ok {b last : BatchState σ} {path : Path}
    (h : processTarget host config analyzers rules target b = .ok path last) :
    ∃ session ds log, session.Reachable ∧
      Completed host config analyzers rules target b session ds log path last := by
  rcases hload : host.load target config.oneFilePerType b.host with ⟨e | binary, loaded⟩
  · rw [processTarget_of_error hload] at h
    cases h
  · rw [processTarget_of_ok hload, examine_opened] at h
    obtain ⟨t, hexamined, rfl⟩ := mapState_eq_ok_iff.1 h
    obtain ⟨_, t₁, hdumped, hexamined⟩ := bind_eq_ok_iff.1 hexamined
    obtain ⟨ds, t₂, hfound, hpublished⟩ := bind_eq_ok_iff.1 hexamined
    have hdump := dump_eq_ok_iff.1 hdumped
    have hreachable : t₁.session.Reachable := by
      have hlater := (reachable_started config target b.log binary).dumped host.storage loaded
      rwa [hdump] at hlater
    obtain ⟨found, analyzed, more, hanalyze, hcompile, rfl, hsession⟩ := findings_eq_ok hfound
    obtain ⟨hname, hwrite⟩ := publish_eq_ok (hsession ▸ hreachable.faithful) hpublished
    rw [hsession] at hwrite
    exact ⟨_, _, _, hreachable, .intro hload hdump hanalyze hcompile rfl hname hwrite⟩

/-- Writing the units does not rename the binary. -/
theorem fileName_dumpUnits (disk : Storage σ) (s : Session ν) (files : σ) :
    (s.dumpUnits disk files).2.1.fileName = s.fileName := by
  unfold dumpUnits
  split
  · rfl
  · split
    · rfl
    · split
      · rfl
      · rfl

/-- The session on a target has its name. -/
theorem fileName_started (config : Config) (target : Path) (log : Log) (binary : Binary ν) :
    (started config target log binary).fileName = target := by
  unfold started
  dsimp only
  split
  · rfl
  · rfl

/-- The report on a target is made by a session of its name. -/
theorem Completed.fileName_eq {b last : BatchState σ} {log : Sarif.Log} {path : Path}
    (h : Completed host config analyzers rules target b s ds log path last) :
    s.fileName = target := by
  obtain ⟨-, hdump, -, -, -, -, -⟩ := h
  have hname := congrArg (fun r => r.2.1.fileName) hdump
  dsimp only at hname
  rw [fileName_dumpUnits, fileName_started] at hname
  exact hname.symm

/-- The log that is written is made of the findings that the rules let pass. -/
theorem Completed.log_eq {b last : BatchState σ} {log : Sarif.Log} {path : Path}
    (h : Completed host config analyzers rules target b s ds log path last) :
    log = (Report.process s ds).1 := by
  obtain ⟨-, -, -, -, hprocess, -, -⟩ := h
  exact hprocess

/-- The report on a target whose work succeeds. Its log is the one that is written. It is the same
whether or not the findings are described first, and it has one run, whose results are, in order and
one each, those of the findings that the rules let pass and that have a descriptor, first those of
the analyzers and then those of the compiler if it is asked. -/
theorem processTarget_report {b last : BatchState σ} {path : Path}
    (h : processTarget host config analyzers rules target b = .ok path last) :
    ∃ session ds log, Completed host config analyzers rules target b session ds log path last ∧
      session.fileName = target ∧ log = (Report.process (describeAll ds session) ds).1 ∧
      ∃ run : Sarif.Run, log.runs = [run] ∧
        List.Forall₂ (Report.Tells session) (ds.filter fun d => d.descriptor.isSome)
          run.results := by
  obtain ⟨session, ds, log, hreachable, hcompleted⟩ := completed_of_ok h
  have hfaithful := hreachable.faithful
  obtain ⟨-, -, hresults⟩ := Report.results_spec RuleRegistry.lists_empty session ds
  refine ⟨session, ds, log, hcompleted, hcompleted.fileName_eq, ?_, ?_⟩
  · rw [process_describeAll hfaithful, hcompleted.log_eq]
  · rw [hcompleted.log_eq]
    exact ⟨_, rfl, hresults.imp fun _ _ hr => hr.tells hfaithful⟩

/-- The sample host with an analyzer that finds something. -/
def findingHost : Host Unit Unit := { sampleHost with
  analyze := fun _ _ _ => (.ok [{ finding ⟨⟨0, 0⟩, ⟨0, 9⟩⟩ with
    descriptor := some ⟨"X1", "Title", "", none, "", [], .warning, true⟩ }], ()) }

/-- The one finding is reported. -/
theorem processTarget_report_of_finding :
    ∃ last, processTarget findingHost sampleConfig [] {} ⟨"good.dll"⟩ ⟨{}, ()⟩ =
        .ok ⟨"PeekerResults/good.dll.sarif"⟩ last ∧
      ∃ session ds log, Completed findingHost sampleConfig [] {} ⟨"good.dll"⟩ ⟨{}, ()⟩ session ds log
          ⟨"PeekerResults/good.dll.sarif"⟩ last ∧
        ∃ run : Sarif.Run, log.runs = [run] ∧
          List.Forall₂ (Report.Tells session) (ds.filter fun d => d.descriptor.isSome)
            run.results := by
  have hprocessed : toExcept (processTarget findingHost sampleConfig [] {} ⟨"good.dll"⟩ ⟨{}, ()⟩) =
      .ok ⟨"PeekerResults/good.dll.sarif"⟩ := rfl
  obtain ⟨last, hlast⟩ := exists_of_toExcept hprocessed
  obtain ⟨session, ds, log, hcompleted, -, -, run, hrun, hresults⟩ := processTarget_report hlast
  exact ⟨last, hlast, session, ds, log, hcompleted, run, hrun, hresults⟩

end Batch

end Retrace
