import Retrace.Proofs.Batch.Content
import Retrace.Proofs.File.Kept

/-!
# Files that a batch leaves alone

Over a host that keeps its files in a tree, a batch writes the units of its binaries and their
reports, and nothing else. So if no unit is written to a file, and loading and analysing binaries
leave it alone, then the file stays unless it is that of a report
(`Undisturbed.keeps_processTarget`, `Undisturbed.keeps_processAll`).

A write that fails may already have emptied its file. What counts is therefore not which targets
succeed, but which of them get as far as writing their report (`ReachesWrite`). Each step of the work
on a target keeps files (`StepKeeps`), and only the last one writes to that of the report
(`stepKeeps_publish`).
-/

namespace Retrace

variable {σ ν : Type}

/-! ## Hosts on file trees -/

/-- The host keeps its files in a tree. Creating directories may fail in any way that keeps all files,
and writing a file may break off (`FileTree.Writes`). -/
structure Host.OnTree (host : Host σ ν) (files : σ → FileTree) : Prop where
  createDirectories : ∀ path state,
    (files state).Keeps (fun _ => True) (files (host.storage.createDirectories path state).2)
  writeText : ∀ path text state, (files state).Writes path text.toUTF8
    (host.storage.writeText path text state).1 (files (host.storage.writeText path text state).2)

/-- A text that has been written is there. -/
theorem Host.OnTree.hasFile {host : Host σ ν} {files : σ → FileTree} (htree : host.OnTree files)
    {path : Path} {text : String} {state state' : σ}
    (h : host.storage.writeText path text state = (.ok (), state')) :
    (files state').HasFile path text.toUTF8 := by
  have hwrite := htree.writeText path text state
  rw [h] at hwrite
  exact hwrite.hasFile

/-- Loading and analysing binaries leaves alone the files at these locations, and all directories.
-/
structure Host.LeavesAlone (host : Host σ ν) (files : σ → FileTree) (kept : FileLocation → Prop) :
    Prop where
  load : ∀ target oneFilePerType state,
    (files state).Keeps kept (files (host.load target oneFilePerType state).2)
  analyze : ∀ units analyzers state,
    (files state).Keeps kept (files (host.analyze units analyzers state).2)
  compile : ∀ units state, (files state).Keeps kept (files (host.compile units state).2)

/-- A report is written as a text, and the disk is left as that leaves it. -/
theorem Report.state_write (disk : Storage σ) (layout : Json.Layout) (log : Sarif.Log) (path : Path)
    (state : σ) : (Report.write disk layout log path state).2 =
      (disk.writeText path (log.render layout) state).2 := by
  unfold Report.write
  rcases disk.writeText path (log.render layout) state with ⟨e | ⟨⟩, state'⟩
  · rfl
  · rfl

namespace Batch

variable {host : Host σ ν} {files : σ → FileTree} {config : Config} {analyzers : List Path}
  {rules : RuleSet} {target : Path} {w : FileLocation} {kept : FileLocation → Prop}

/-- The files of the state, in this working directory, are kept by an operation. -/
def OperationKeeps (files : σ → FileTree) (w : FileLocation) (kept : FileLocation → Prop)
    (f : σ → Except FileError Unit × σ) : Prop :=
  ∀ state, (files state).workingDirectory = w → (files state).Keeps kept (files (f state).2)

/-- Two operations keep what each of them keeps. -/
theorem OperationKeeps.andThen {f g : σ → Except FileError Unit × σ}
    (hf : OperationKeeps files w kept f) (hg : OperationKeeps files w kept g) :
    OperationKeeps files w kept (Storage.andThen f g) := by
  intro state hw
  exact Storage.Relates.andThen
    (R := fun a b => (files a).workingDirectory = w → (files a).Keeps kept (files b))
    (fun h h' hw => (h hw).trans (h' ((h hw).workingDirectory.trans hw))) hf hg state hw

/-- Creating directories keeps all files. -/
theorem operationKeeps_createDirectories (htree : host.OnTree files) (path : Path) :
    OperationKeeps files w kept (host.storage.createDirectories path) := by
  intro state _
  exact (htree.createDirectories path state).mono fun _ _ => trivial

/-- Writing a file keeps what is not there, also if it breaks off. -/
theorem operationKeeps_writeText (htree : host.OnTree files) {path : Path} (text : String)
    (hpath : ¬ kept (path.locate w)) :
    OperationKeeps files w kept (host.storage.writeText path text) := by
  intro state hw
  refine (htree.writeText path text state).keeps.mono fun l hl => ?_
  rintro rfl
  exact hpath (hw ▸ hl)

/-- Writing files keeps what is in none of them. -/
theorem operationKeeps_writeAll (htree : host.OnTree files) {texts : List (Path × String)}
    (htexts : ∀ file ∈ texts, ¬ kept (file.1.locate w)) :
    OperationKeeps files w kept (Session.writeAll host.storage texts) := by
  refine fun state hw => Session.relates_writeAll
    (R := fun a b => (files a).workingDirectory = w → (files a).Keeps kept (files b))
    (fun _ _ => .refl _ _) (fun h h' hw => ?_) (fun _ _ => ?_) (fun hfile => ?_) state hw
  · exact (h hw).trans (h' ((h hw).workingDirectory.trans hw))
  · exact operationKeeps_createDirectories htree _
  · exact operationKeeps_writeText htree _ (htexts _ hfile)

/-- The units of the session are written to no file that is kept. -/
def WritesApart (w : FileLocation) (kept : FileLocation → Prop) (s : Session ν) : Prop :=
  ∀ dump ∈ s.dumpSource, ∀ u ∈ s.units, ¬ kept ((s.dumpPathIn dump u).locate w)

/-- Writing the units of a session keeps what none of them is written to, whether it succeeds or
not. -/
theorem keeps_dumpUnits (htree : host.OnTree files) {s : Session ν} (hs : WritesApart w kept s)
    {state : σ} (hw : (files state).workingDirectory = w) :
    (files state).Keeps kept (files (s.dumpUnits host.storage state).2.2) := by
  unfold Session.dumpUnits
  cases hdump : s.dumpSource with
  | none => exact .refl _ _
  | some dump =>
    have hunits : OperationKeeps files w kept (s.writeUnits host.storage dump) := by
      rw [Session.writeUnits_eq]
      refine (operationKeeps_createDirectories htree _).andThen (operationKeeps_writeAll htree ?_)
      intro file hfile
      obtain ⟨u, hu, rfl⟩ := List.mem_map.1 hfile
      dsimp only
      exact hs dump (Option.mem_def.2 hdump) u hu
    have hwritten := hunits state hw
    dsimp only
    split
    · exact .refl _ _
    · rcases hresult : s.writeUnits host.storage dump state with ⟨e | _, state'⟩
      · rwa [hresult] at hwritten
      · rwa [hresult] at hwritten

/-! ## Steps -/

section Steps

variable {α β : Type} {x : TargetStep σ ν α} {f : α → TargetStep σ ν β} {t : TargetState σ ν}

/-- What the step does keeps these files, whether it fails or not. -/
def StepKeeps (files : σ → FileTree) (kept : FileLocation → Prop) (x : TargetStep σ ν α)
    (t : TargetState σ ν) : Prop :=
  (files t.host).Keeps kept (files (stateOf (x t)).host)

/-- A step that keeps many files keeps some of them. -/
theorem StepKeeps.mono {fewer : FileLocation → Prop} (h : StepKeeps files kept x t)
    (himp : ∀ l, fewer l → kept l) : StepKeeps files fewer x t :=
  FileTree.Keeps.mono h himp

/-- No step that keeps files moves the working directory. -/
theorem StepKeeps.workingDirectory {a : α} {t' : TargetState σ ν} (h : StepKeeps files kept x t)
    (hx : x t = .ok a t') :
    (files t'.host).workingDirectory = (files t.host).workingDirectory := by
  unfold StepKeeps at h
  rw [hx] at h
  exact FileTree.Keeps.workingDirectory h

/-- Two steps keep what each of them keeps. The second one matters only if the first one succeeds. -/
theorem StepKeeps.bind (hx : StepKeeps files kept x t)
    (hf : ∀ a t', x t = .ok a t' → StepKeeps files kept (f a) t') :
    StepKeeps files kept (x >>= f) t := by
  unfold StepKeeps at hx hf ⊢
  simp only [Bind.bind, EStateM.bind]
  cases h : x t with
  | ok a t' =>
    rw [h] at hx
    exact hx.trans (hf a t' h)
  | error e t' =>
    rw [h] at hx
    exact hx

/-- Looking at the state first changes nothing about what is kept. -/
theorem stepKeeps_get_bind {f : TargetState σ ν → TargetStep σ ν β} :
    StepKeeps files kept (get >>= f) t ↔ StepKeeps files kept (f t) t := .rfl

/-- A step that does not use the host keeps everything. -/
theorem stepKeeps_of_host_eq (h : (stateOf (x t)).host = t.host) : StepKeeps files kept x t := by
  unfold StepKeeps
  rw [h]
  exact .refl _ _

/-- A use of the host keeps what the host keeps. -/
theorem stepKeeps_useHost {g : σ → Except Error α × σ}
    (h : (files t.host).Keeps kept (files (g t.host).2)) :
    StepKeeps files kept (TargetStep.useHost g) t := by
  unfold StepKeeps TargetStep.useHost
  rcases hresult : g t.host with ⟨e | a, state⟩
  · rwa [hresult] at h
  · rwa [hresult] at h

/-- Writing the units keeps what they are not written to. -/
theorem stepKeeps_dump (htree : host.OnTree files) (hs : WritesApart w kept t.session)
    (hw : (files t.host).workingDirectory = w) : StepKeeps files kept (dump host) t := by
  have hdumped := keeps_dumpUnits htree hs hw
  unfold StepKeeps dump
  rcases hresult : t.session.dumpUnits host.storage t.host with ⟨e | _, session, state⟩
  · rwa [hresult] at hdumped
  · rwa [hresult] at hdumped

/-- Asking for findings keeps what the collaborators leave alone. -/
theorem stepKeeps_findings (hleaves : host.LeavesAlone files kept) :
    StepKeeps files kept (findings host config analyzers rules) t := by
  unfold findings
  rw [stepKeeps_get_bind]
  refine .bind (stepKeeps_useHost (hleaves.analyze _ _ _)) fun found t₁ _ => ?_
  split
  · exact .bind (stepKeeps_useHost (hleaves.compile _ _)) fun more t₂ _ => stepKeeps_of_host_eq rfl
  · exact stepKeeps_of_host_eq rfl

/-- What is left of these files if some paths are written to: all that are at none of the paths. -/
def Spared (w : FileLocation) (kept : FileLocation → Prop) (isWritten : Path → Prop)
    (l : FileLocation) : Prop :=
  kept l ∧ ∀ path, isWritten path → l ≠ path.locate w

/-- Publishing writes to the file of the report, and nowhere else. -/
theorem stepKeeps_publish (htree : host.OnTree files) (ds : List Diagnostic)
    (hw : (files t.host).workingDirectory = w) :
    StepKeeps files (Spared w kept fun path => reportPath config.output target = .ok path)
      (publish host config target ds) t := by
  refine .bind (stepKeeps_of_host_eq rfl) fun _ t₁ hdescribed => ?_
  obtain ⟨-, rfl⟩ := useSession_eq_ok_iff.1 hdescribed
  refine .bind (stepKeeps_of_host_eq rfl) fun log t₂ hprocessed => ?_
  obtain ⟨-, rfl⟩ := useSession_eq_ok_iff.1 hprocessed
  refine .bind (stepKeeps_of_host_eq rfl) fun _ t₃ hnoted => ?_
  obtain ⟨-, rfl⟩ := useSession_eq_ok_iff.1 hnoted
  refine .bind (stepKeeps_of_host_eq ?_) fun path t₄ hnamed => ?_
  · cases reportPath config.output target with
    | ok path => rfl
    | error e => rfl
  · obtain ⟨hpath, rfl⟩ := ofExcept_eq_ok_iff.1 hnamed
    refine .bind (stepKeeps_useHost ?_) fun _ t₅ _ => stepKeeps_of_host_eq rfl
    rw [Report.state_write]
    exact (htree.writeText path _ t.host).keeps.mono fun l hl => hw ▸ hl.2 path hpath

end Steps

/-! ## Targets -/

/-- Nothing that is kept is where the units of a binary are written. -/
def DumpsApart (host : Host σ ν) (config : Config) (w : FileLocation) (kept : FileLocation → Prop)
    (target : Path) : Prop :=
  ∀ dump ∈ config.dumpSource, ∀ state binary state',
    host.load target config.oneFilePerType state = (.ok binary, state') →
    ∀ u ∈ binary.frontend.units, ¬ kept (((dumpDirectory target dump).join ⟨u.fileName⟩).locate w)

/-- The session on a target writes its units where the frontend of the target says. -/
theorem writesApart_started {binary : Binary ν} {state state' : σ} {log : Log}
    (hdumps : DumpsApart host config w kept target)
    (hload : host.load target config.oneFilePerType state = (.ok binary, state')) :
    WritesApart w kept (started config target log binary) := by
  intro dump hdump u hu
  unfold Session.dumpPathIn
  rw [fileName_started]
  have hsource : (started config target log binary).dumpSource = config.dumpSource := by
    unfold started
    dsimp only
    split
    · rfl
    · rfl
  have hunits : (started config target log binary).units = binary.frontend.units := by
    unfold started
    dsimp only
    split
    · rfl
    · rfl
  exact hdumps dump (hsource ▸ hdump) state binary state' hload u (hunits ▸ hu)

/-- Nothing but the reports of these targets is written where files are to be kept. -/
structure Undisturbed (host : Host σ ν) (files : σ → FileTree) (config : Config) (w : FileLocation)
    (kept : FileLocation → Prop) (targets : List Path) : Prop where
  tree : host.OnTree files
  collaborators : host.LeavesAlone files kept
  dumps : ∀ target ∈ targets, DumpsApart host config w kept target

/-- What disturbs no files on many targets disturbs none on some of them. -/
theorem Undisturbed.mono {targets part : List Path}
    (h : Undisturbed host files config w kept targets) (hpart : part ⊆ targets) :
    Undisturbed host files config w kept part :=
  ⟨h.tree, h.collaborators, fun target htarget => h.dumps target (hpart htarget)⟩

/-- How the work on a target gets as far as writing its report to this path, whether or not that
succeeds: the binary is loaded, its units are written, the analyzers find something, the compiler may
add to it, and the target has a file name. -/
inductive ReachesWrite (host : Host σ ν) (config : Config) (analyzers : List Path) (target : Path)
    (b : BatchState σ) : Path → Prop
  | intro {binary : Binary ν} {loaded dumped analyzed compiled : σ} {session : Session ν}
    {found more : List Diagnostic} {path : Path}
    (load : host.load target config.oneFilePerType b.host = (.ok binary, loaded))
    (dump : (started config target b.log binary).dumpUnits host.storage loaded =
      (.ok (), session, dumped))
    (analyze : host.analyze session.units analyzers dumped = (.ok found, analyzed))
    (compile : CompilerAdds host config session.units analyzed more compiled)
    (name : reportPath config.output target = .ok path) :
    ReachesWrite host config analyzers target b path

/-- A target that succeeds has written its report. -/
theorem Completed.reachesWrite {session : Session ν} {ds : List Diagnostic} {log : Sarif.Log}
    {path : Path} {b last : BatchState σ}
    (h : Completed host config analyzers rules target b session ds log path last) :
    ReachesWrite host config analyzers target b path := by
  obtain ⟨hload, hdump, hanalyze, hcompile, -, hname, -⟩ := h
  exact .intro hload hdump hanalyze hcompile hname

/-- The report of a target goes to the path that the file name of the target gives. -/
theorem ReachesWrite.reportPath_eq {b : BatchState σ} {path : Path}
    (h : ReachesWrite host config analyzers target b path) :
    reportPath config.output target = .ok path := by
  obtain ⟨-, -, -, -, hname⟩ := h
  exact hname

/-- The work on a target keeps all files but that of its report, and that one too unless it gets as
far as writing it. -/
theorem Undisturbed.keeps_processTarget {targets : List Path}
    (h : Undisturbed host files config w kept targets) (htarget : target ∈ targets)
    (analyzers : List Path) (rules : RuleSet) {b : BatchState σ}
    (hw : (files b.host).workingDirectory = w) :
    (files b.host).Keeps (Spared w kept (ReachesWrite host config analyzers target b))
      (files (stateOf (processTarget host config analyzers rules target b)).host) := by
  obtain ⟨htree, hleaves, hdumps⟩ := h
  have hkept : ∀ l, Spared w kept (ReachesWrite host config analyzers target b) l → kept l :=
    fun _ hl => hl.1
  have hloaded := hleaves.load target config.oneFilePerType b.host
  rcases hload : host.load target config.oneFilePerType b.host with ⟨e | binary, loaded⟩
  · rw [hload] at hloaded
    rw [processTarget_of_error hload]
    exact hloaded.mono hkept
  · rw [hload] at hloaded
    have hw' : (files loaded).workingDirectory = w := hloaded.workingDirectory.trans hw
    have hdump : StepKeeps files kept (dump host) ⟨started config target b.log binary, loaded⟩ :=
      stepKeeps_dump htree (writesApart_started (hdumps target htarget) hload) hw'
    rw [processTarget_of_ok hload, examine_opened, stateOf_mapState]
    refine (hloaded.mono hkept).trans ((hdump.mono hkept).bind fun _ t₁ hdumped => ?_)
    have hw₁ := (hdump.workingDirectory hdumped).trans hw'
    have hfindings : StepKeeps files kept (findings host config analyzers rules) t₁ :=
      stepKeeps_findings hleaves
    refine (hfindings.mono hkept).bind fun ds t₂ hfound => ?_
    have hw₂ := (hfindings.workingDirectory hfound).trans hw₁
    -- whatever is published now, the work has got as far as writing it
    obtain ⟨found, analyzed, more, hanalyze, hcompile, -, -⟩ := findings_eq_ok hfound
    refine (stepKeeps_publish htree ds hw₂).mono fun l hl => ⟨hl.1, fun path hname => ?_⟩
    exact hl.2 path (.intro hload (dump_eq_ok_iff.1 hdumped) hanalyze hcompile hname)

/-! ## Batches -/

/-- A batch keeps all files but those of the reports that it gets as far as writing. -/
theorem Undisturbed.keeps_processAll {targets : List Path}
    (h : Undisturbed host files config w kept targets) (analyzers : List Path) (rules : RuleSet)
    {b : BatchState σ} (hw : (files b.host).workingDirectory = w) :
    (files b.host).Keeps
      (Spared w kept fun path => ∃ i target, targets[i]? = some target ∧
        ReachesWrite host config analyzers target
          (processAll host config analyzers rules (targets.take i) b).2 path)
      (files (processAll host config analyzers rules targets b).2.host) := by
  induction targets generalizing b with
  | nil => exact .refl _ _
  | cons target rest ih =>
    have hfirst : (files b.host).Keeps _
        (files (stateAfter host config analyzers rules target b).host) :=
      h.keeps_processTarget List.mem_cons_self analyzers rules hw
    have hlater := ih (h.mono (List.subset_cons_self target rest))
      (hfirst.workingDirectory.trans hw)
    rw [processAll_cons]
    refine (hfirst.mono ?_).trans (hlater.mono ?_)
    · exact fun l hl => ⟨hl.1, fun path hpath => hl.2 path ⟨0, target, rfl, hpath⟩⟩
    · -- an index in the rest is one less than in the whole batch
      refine fun l hl => ⟨hl.1, ?_⟩
      rintro path ⟨i, later, hi, hpath⟩
      refine hl.2 path ⟨i + 1, later, hi, ?_⟩
      rwa [List.take_succ_cons, processAll_cons]

end Batch

end Retrace
