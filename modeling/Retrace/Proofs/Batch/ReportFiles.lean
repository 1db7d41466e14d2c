import Retrace.Proofs.Batch.Kept

/-!
# Which reports are left at the end of a batch

A report goes to a file of the output directory that has the name of the target's file
(`locate_reportPath`). So a later target with the same file name replaces it, or destroys it by a write
that breaks off, and nothing else does (`Undisturbed.readText_processAll`). `run_reports` says what is
in the files at the end and how many there are. `not_forall_counted_reports_kept` is a batch that is
left with fewer than it counts, and `not_forall_succeeding_kept` one that loses the only report it
counts to a target that fails.
-/

namespace Retrace

variable {σ ν : Type}

/-- The location is that of an entry of the directory. -/
def FileLocation.IsIn (directory location : FileLocation) : Prop :=
  ∃ name, location = directory ++ [name]

/-- Two directories of which neither is in the other. -/
def FileLocation.Apart (l l' : FileLocation) : Prop := ¬ l <+: l' ∧ ¬ l' <+: l

namespace Batch

variable {host : Host σ ν} {files : σ → FileTree} {config : Config} {analyzers : List Path}
  {rules : RuleSet} {target : Path} {w : FileLocation}

/-! ## Batches in parts -/

/-- A batch in two parts is one part behind the other. -/
theorem processAll_append (front back : List Path) (b : BatchState σ) :
    processAll host config analyzers rules (front ++ back) b =
      ((processAll host config analyzers rules front b).1 ++
        (processAll host config analyzers rules back
          (processAll host config analyzers rules front b).2).1,
        (processAll host config analyzers rules back
          (processAll host config analyzers rules front b).2).2) := by
  induction front generalizing b with
  | nil => rfl
  | cons target rest ih =>
    rw [List.cons_append, processAll_cons, processAll_cons, ih]
    rfl

/-- A batch as the targets in front of one, this one, and the targets behind it. -/
theorem processAll_split {targets : List Path} {i : Nat} (h : targets[i]? = some target)
    (b : BatchState σ) :
    processAll host config analyzers rules targets b =
      let front := processAll host config analyzers rules (targets.take i) b
      let back := processAll host config analyzers rules (targets.drop (i + 1))
        (stateAfter host config analyzers rules target front.2)
      (front.1 ++ outcomeAt host config analyzers rules target front.2 :: back.1, back.2) := by
  obtain ⟨hlt, rfl⟩ := List.getElem?_eq_some_iff.1 h
  have hsplit : targets = targets.take i ++ targets[i] :: targets.drop (i + 1) := by
    rw [List.getElem_cons_drop, List.take_append_drop]
  conv_lhs => rw [hsplit]
  rw [processAll_append, processAll_cons]

/-! ## Reports -/

/-- The report of a target that succeeds goes to a file of the output directory that has the name of
the target's file. -/
theorem locate_reportPath {output path : Path} (h : reportPath output target = .ok path) :
    ∃ name, target.fileName? = some name ∧
      path.locate w = output.locate w ++ [name ++ ".sarif"] := by
  unfold reportPath at h
  split at h
  · next name hname =>
    cases h
    have hsarif : Path.IsName (name ++ ".sarif") :=
      (Path.isName_of_fileName? hname).append (by decide) (by decide)
    exact ⟨name, hname, Path.locate_join_name hsarif w output⟩
  · cases h

/-- A report that is written goes to the path of its target. -/
theorem reportPath_of_outcomeAt {b : BatchState σ} {path : Path}
    (h : (outcomeAt host config analyzers rules target b).report = .ok path) :
    reportPath config.output target = .ok path := by
  obtain ⟨last, hlast⟩ := exists_of_toExcept h
  obtain ⟨session, ds, log, -, hcompleted⟩ := completed_of_ok hlast
  obtain ⟨-, -, -, -, -, hname, -⟩ := hcompleted
  exact hname

/-- So do all reports of a batch. -/
theorem reportPath_of_mem {targets : List Path} {b : BatchState σ} {o : Outcome} {path : Path}
    (ho : o ∈ (processAll host config analyzers rules targets b).1) (h : o.report = .ok path) :
    reportPath config.output o.target = .ok path := by
  obtain ⟨i, hi⟩ := List.mem_iff_getElem?.1 ho
  rw [eq_outcomeAt_of_processAll hi] at h
  exact reportPath_of_outcomeAt h

/-- Two reports are in one file if and only if they are on targets with one file name. -/
theorem locate_eq_iff {output target' path path' : Path} (h : reportPath output target = .ok path)
    (h' : reportPath output target' = .ok path') :
    path.locate w = path'.locate w ↔ target.fileName? = target'.fileName? := by
  obtain ⟨name, hname, hlocate⟩ := locate_reportPath (w := w) h
  obtain ⟨name', hname', hlocate'⟩ := locate_reportPath (w := w) h'
  rw [hname, hname', hlocate, hlocate']
  simp [String.append_left_inj]

/-- Right behind a target its report is in the file. -/
theorem hasFile_stateAfter (htree : host.OnTree files) {b : BatchState σ} {path : Path}
    (h : (outcomeAt host config analyzers rules target b).report = .ok path) :
    ∃ session ds log after,
      Completed host config analyzers rules target b session ds log path after ∧
      (files (stateAfter host config analyzers rules target b).host).HasFile path
        (log.render (layout config)).toUTF8 := by
  obtain ⟨after, hafter⟩ := exists_of_toExcept h
  obtain ⟨session, ds, log, -, hcompleted⟩ := completed_of_ok hafter
  have hhost : (stateAfter host config analyzers rules target b).host = after.host := by
    rw [stateAfter, hafter]
    rfl
  refine ⟨session, ds, log, after, hcompleted, ?_⟩
  obtain ⟨-, -, -, -, -, -, hwrite⟩ := hcompleted
  unfold Report.write at hwrite
  split at hwrite
  · cases hwrite
  · next hwritten =>
    cases hwrite
    rw [hhost]
    exact htree.hasFile hwritten

/-- A report stays as long as no target with its file name gets as far as writing one. -/
theorem Undisturbed.hasFile_processAll {targets : List Path} {path : Path} {content : ByteArray}
    (h : Undisturbed host files config w (FileLocation.IsIn (config.output.locate w)) targets)
    {b : BatchState σ} (hw : (files b.host).workingDirectory = w)
    (hpath : reportPath config.output target = .ok path)
    (hothers : ∀ j later path', targets[j]? = some later →
      ReachesWrite host config analyzers later
        (processAll host config analyzers rules (targets.take j) b).2 path' →
      later.fileName? ≠ target.fileName?)
    (hfile : (files b.host).HasFile path content) :
    (files (processAll host config analyzers rules targets b).2.host).HasFile path content := by
  obtain ⟨name, -, hlocate⟩ := locate_reportPath (w := w) hpath
  refine hfile.keeps (h.keeps_processAll analyzers rules hw) ?_
  rw [hw]
  refine ⟨⟨_, hlocate⟩, ?_⟩
  rintro path' ⟨j, later, hj, hreaches⟩ heq
  exact hothers j later path' hj hreaches ((locate_eq_iff hpath hreaches.reportPath_eq).1 heq).symm

/-- The state that the targets in front of a later one leave, by way of an earlier one. -/
theorem processAll_take {targets : List Path} {i : Nat} (h : targets[i]? = some target) (k : Nat)
    (b : BatchState σ) :
    (processAll host config analyzers rules (targets.take (i + 1 + k)) b).2 =
      (processAll host config analyzers rules ((targets.drop (i + 1)).take k)
        (stateAfter host config analyzers rules target
          (processAll host config analyzers rules (targets.take i) b).2)).2 := by
  have htake : (targets.take (i + 1 + k))[i]? = some target := by
    rwa [List.getElem?_take_of_lt (by omega)]
  rw [processAll_split htake, List.take_take, List.drop_take, Nat.min_eq_left (by omega),
    Nat.add_sub_cancel_left]

/-- No later target with this file name gets as far as writing its report. -/
def LastOfName (host : Host σ ν) (config : Config) (analyzers : List Path) (rules : RuleSet)
    (targets : List Path) (b : BatchState σ) (i : Nat) (target : Path) : Prop :=
  ∀ j later path, i < j → targets[j]? = some later →
    ReachesWrite host config analyzers later
      (processAll host config analyzers rules (targets.take j) b).2 path →
    later.fileName? ≠ target.fileName?

/-- The report of a target that succeeds is there at the end, if no later target with its file name
gets as far as writing one. -/
theorem Undisturbed.readText_processAll {targets : List Path}
    (h : Undisturbed host files config w (FileLocation.IsIn (config.output.locate w)) targets)
    {b : BatchState σ} (hw : (files b.host).workingDirectory = w) {i : Nat} {path : Path}
    (hi : (processAll host config analyzers rules targets b).1[i]? = some ⟨target, .ok path⟩) :
    ∃ session ds log after, Completed host config analyzers rules target
        (processAll host config analyzers rules (targets.take i) b).2 session ds log path after ∧
      (LastOfName host config analyzers rules targets b i target →
        (files (processAll host config analyzers rules targets b).2.host).readText path =
          .ok (log.render (layout config))) := by
  have hprocessed := hi
  rw [getElem?_processAll, Option.map_eq_some_iff] at hprocessed
  obtain ⟨target', htarget, houtcome⟩ := hprocessed
  obtain ⟨rfl, hreport⟩ := Outcome.mk.inj houtcome
  have hfront := (h.mono (List.take_subset i targets)).keeps_processAll analyzers rules hw
  have hwfront := hfront.workingDirectory.trans hw
  have hkeeps := h.keeps_processTarget (List.mem_of_getElem? htarget) analyzers rules hwfront
  obtain ⟨session, ds, log, after, hcompleted, hfile⟩ := hasFile_stateAfter h.tree hreport
  have hwafter : (files (stateAfter host config analyzers rules target'
      (processAll host config analyzers rules (targets.take i) b).2).host).workingDirectory = w :=
    hkeeps.workingDirectory.trans hwfront
  refine ⟨session, ds, log, after, hcompleted, fun hlast => ?_⟩
  rw [processAll_split htarget]
  dsimp only
  refine ((h.mono (List.drop_subset (i + 1) targets)).hasFile_processAll hwafter
    (reportPath_of_outcomeAt hreport) (fun k later path' hk hreaches => ?_) hfile).readText
  -- a target behind this one is a later one of the whole batch
  rw [← processAll_take htarget] at hreaches
  rw [List.getElem?_drop] at hk
  exact hlast (i + 1 + k) later path' (by omega) hk hreaches

/-! ## Counting reports -/

/-- The locations of the reports of outcomes. -/
def reportLocations (w : FileLocation) (outcomes : List Outcome) : List FileLocation :=
  outcomes.filterMap fun o => o.report.toOption.map (·.locate w)

/-- The file names of the targets that succeed. -/
def reportedNames (outcomes : List Outcome) : List String :=
  (outcomes.filter fun o => o.Succeeds).filterMap fun o => o.target.fileName?

/-- There is one report for each target that succeeds, in a file of its name. -/
theorem reportLocations_eq {output : Path} {outcomes : List Outcome}
    (h : ∀ o ∈ outcomes, ∀ path, o.report = .ok path → reportPath output o.target = .ok path) :
    reportLocations w outcomes =
        (reportedNames outcomes).map (fun name => output.locate w ++ [name ++ ".sarif"]) ∧
      (reportedNames outcomes).length = outcomes.countP fun o => o.Succeeds := by
  unfold reportLocations reportedNames
  induction outcomes with
  | nil => exact ⟨rfl, rfl⟩
  | cons o rest ih =>
    obtain ⟨ho, hrest⟩ := List.forall_mem_cons.1 h
    obtain ⟨hlocations, hlength⟩ := ih hrest
    cases hreport : o.report with
    | error e =>
      have hfailed : ¬ o.Succeeds := by simp [Outcome.Succeeds, hreport]
      rw [List.filterMap_cons_none (by rw [hreport]; rfl),
        List.filter_cons_of_neg (by simpa using hfailed),
        List.countP_cons_of_neg (by simpa using hfailed)]
      exact ⟨hlocations, hlength⟩
    | ok path =>
      have hsucceeds : o.Succeeds := ⟨path, hreport⟩
      obtain ⟨name, hname, hlocate⟩ := locate_reportPath (w := w) (ho path hreport)
      rw [List.filterMap_cons_some (b := path.locate w) (by rw [hreport]; rfl),
        List.filter_cons_of_pos (by simpa using hsucceeds),
        List.filterMap_cons_some (f := fun o : Outcome => o.target.fileName?) hname,
        List.countP_cons_of_pos (by simpa using hsucceeds)]
      exact ⟨congr (congrArg List.cons hlocate) hlocations, congrArg (· + 1) hlength⟩

/-- The reports are in different files if and only if the targets that succeed have different file
names. -/
theorem nodup_reportLocations_iff {output : Path} {outcomes : List Outcome}
    (h : ∀ o ∈ outcomes, ∀ path, o.report = .ok path → reportPath output o.target = .ok path) :
    (reportLocations w outcomes).Nodup ↔ (reportedNames outcomes).Nodup := by
  rw [(reportLocations_eq h).1]
  refine List.nodup_map_iff fun name name' heq => ?_
  simpa [String.append_left_inj] using heq

/-- There is one location for each target that succeeds. -/
theorem length_reportLocations {output : Path} {outcomes : List Outcome}
    (h : ∀ o ∈ outcomes, ∀ path, o.report = .ok path → reportPath output o.target = .ok path) :
    (reportLocations w outcomes).length = outcomes.countP fun o => o.Succeeds := by
  obtain ⟨hlocations, hlength⟩ := reportLocations_eq (w := w) h
  rw [hlocations, List.length_map, hlength]

/-! ## Whole batches -/

/-- A batch that is prepared has created its output directory, and done nothing else to the host. -/
theorem createDirectories_of_prepare {b first : BatchState σ} {prepared : List Path × RuleSet}
    (h : prepare host config b = .ok prepared first) :
    host.storage.createDirectories config.output b.host = (.ok (), first.host) := by
  unfold prepare at h
  obtain ⟨_, b₁, hvalid, hsearch⟩ := bind_eq_ok_iff.1 h
  obtain ⟨-, rfl⟩ := ofExcept_eq_ok_iff.1 hvalid
  obtain ⟨_, b₂, hgot, hnote⟩ := bind_eq_ok_iff.1 hsearch
  cases hgot
  obtain ⟨_, b₃, hnoted, hcheck⟩ := bind_eq_ok_iff.1 hnote
  cases hnoted
  obtain ⟨found, b₄, hfound, hcreate⟩ := bind_eq_ok_iff.1 hcheck
  obtain ⟨-, rfl⟩ := ofExcept_eq_ok_iff.1 hfound
  dsimp only at hcreate
  split at hcreate
  · cases hcreate
  · next hcreated =>
    split at hcreate
    · cases hcreate
    · cases hcreate
      exact hcreated

/-- What is written below a directory is no entry of a directory apart from it. -/
theorem dumpsApart_of_apart
    (hapart : ∀ dump ∈ config.dumpSource,
      FileLocation.Apart (dump.locate w) (config.output.locate w))
    (hbelow : ∀ dump ∈ config.dumpSource, ∀ state binary state',
      host.load target config.oneFilePerType state = (.ok binary, state') →
      ∀ u ∈ binary.frontend.units,
        dump.locate w <+: ((dumpDirectory target dump).join ⟨u.fileName⟩).locate w) :
    DumpsApart host config w (FileLocation.IsIn (config.output.locate w)) target := by
  rintro dump hdump state binary state' hload u hu ⟨name, hname⟩
  obtain ⟨hout, hin⟩ := hapart dump hdump
  have hunit := hbelow dump hdump state binary state' hload u hu
  rw [hname, List.prefix_concat_iff] at hunit
  rcases hunit with heq | hprefix
  · exact hin ⟨[name], heq.symm⟩
  · exact hout hprefix

/-- At the end of a batch each target that succeeds has its report in the output directory: the file
of its name holds the log of the report on this very target, unless a later target with the same
file name gets as far as writing its own. There are as many reports as the summary counts, and they
are in different files if and only if the targets that succeed have different file names. -/
theorem run_reports {b last : BatchState σ} {summary : Summary}
    (h : Undisturbed host files config w (FileLocation.IsIn (config.output.locate w))
      config.targets)
    (hw : (files b.host).workingDirectory = w) (hrun : run host config b = .ok summary last) :
    ∃ (analyzers : List Path) (rules : RuleSet) (first : BatchState σ) (outcomes : List Outcome),
      prepare host config (configured config b) = .ok (analyzers, rules) first ∧
      outcomes.map Outcome.target = config.targets ∧
      (∀ i o, outcomes[i]? = some o → o = outcomeAt host config analyzers rules o.target
        (stateBefore host config analyzers rules first i)) ∧
      (∀ i target path, outcomes[i]? = some ⟨target, .ok path⟩ →
        (∃ name, target.fileName? = some name ∧
          path.locate w = config.output.locate w ++ [name ++ ".sarif"]) ∧
        ∃ session ds log after, Completed host config analyzers rules target
            (stateBefore host config analyzers rules first i) session ds log path after ∧
          (LastOfName host config analyzers rules config.targets first i target →
            (files last.host).readText path = .ok (log.render (layout config)))) ∧
      (reportLocations w outcomes).length = summary.processed ∧
      ((reportLocations w outcomes).Nodup ↔ (reportedNames outcomes).Nodup) := by
  obtain ⟨analyzers, rules, first, hprepared, rfl, rfl⟩ := exists_prepared_of_run hrun
  have hpaths : ∀ o ∈ (processAll host config analyzers rules config.targets first).1,
      ∀ path, o.report = .ok path → reportPath config.output o.target = .ok path :=
    fun o ho path => reportPath_of_mem ho
  have hfirst : (files first.host).workingDirectory = w := by
    have hcreated := h.tree.createDirectories config.output (configured config b).host
    rw [createDirectories_of_prepare hprepared] at hcreated
    exact hcreated.workingDirectory.trans hw
  refine ⟨analyzers, rules, first, _, hprepared, map_target_processAll config.targets first, ?_, ?_,
    ?_, nodup_reportLocations_iff hpaths⟩
  · exact fun i o ho => eq_outcomeAt_of_processAll ho
  · intro i target path hi
    exact ⟨locate_reportPath (hpaths _ (List.mem_of_getElem? hi) path rfl),
      h.readText_processAll hfirst hi⟩
  · rw [length_reportLocations hpaths, ofOutcomes_eq]

/-! ## Batches over trees -/

/-- A host on a tree of files, with some way of writing to it. It loads every binary, each of one unit,
and finds nothing. -/
def treeHost (storage : Storage FileTree) : Host FileTree Unit where
  storage := storage
  load _ _ t := (.ok ⟨⟨[⟨"A.cs", "class A {}"⟩], fun _ _ => none, fun _ => none, fun _ => none,
    fun _ => .ok {}⟩, none⟩, t)
  analyze _ _ t := (.ok [], t)
  compile _ t := (.ok [], t)
  elapsed _ := "0"

/-- The host does not touch its files when it loads or analyses. -/
theorem treeHost_leavesAlone (storage : Storage FileTree) (kept : FileLocation → Prop) :
    (treeHost storage).LeavesAlone id kept :=
  ⟨fun _ _ t => .refl t kept, fun _ _ t => .refl t kept, fun _ t => .refl t kept⟩

/-- The host whose writes never break off. -/
def wholeHost : Host FileTree Unit := treeHost FileTree.storage

theorem wholeHost_onTree : wholeHost.OnTree id :=
  ⟨fun path t => t.keeps_createDirectories path, fun path text t => t.writes_write path text.toUTF8⟩

/-- A tree with an analyzer in it. -/
def analyzerTree : FileTree := FileTree.set {} ["analyzer.dll"] (.file .empty)

/-- Two targets whose units are written too. -/
def dumpingConfig : Config where
  targets := [⟨"bin/A.dll"⟩, ⟨"bin/B.dll"⟩]
  analyzers := [⟨"analyzer.dll"⟩]
  dumpSource := some ⟨"dump"⟩

/-- The units of both targets go below the dump directory, which is apart from that of the reports. -/
theorem dumpsApart_dumping (target : Path) (htarget : target ∈ dumpingConfig.targets) :
    DumpsApart wholeHost dumpingConfig []
      (FileLocation.IsIn (dumpingConfig.output.locate [])) target := by
  refine dumpsApart_of_apart ?_ ?_
  · rintro dump ⟨⟩
    exact ⟨by decide, by decide⟩
  · rintro dump ⟨⟩ state binary state' hload u hu
    cases hload
    obtain rfl := List.mem_singleton.1 hu
    simp only [dumpingConfig, List.mem_cons, List.not_mem_nil, or_false] at htarget
    rcases htarget with rfl | rfl
    · decide
    · decide

/-- Both targets are counted. Each has its report at the end, since no other has its name. -/
theorem run_reports_of_dumping :
    ∃ last, run wholeHost dumpingConfig ⟨{}, analyzerTree⟩ = .ok ⟨2, []⟩ last ∧
      last.host.names dumpingConfig.output = .ok ["A.dll.sarif", "B.dll.sarif"] ∧
      ∃ outcomes : List Outcome, outcomes.map Outcome.target = dumpingConfig.targets ∧
        (reportLocations [] outcomes).length = 2 ∧
        ∀ (i : Nat) (target path : Path), outcomes[i]? = some ⟨target, .ok path⟩ →
          ∃ log : Sarif.Log, last.host.readText path = .ok (log.render .compact) := by
  have hended : ∃ last, run wholeHost dumpingConfig ⟨{}, analyzerTree⟩ = .ok ⟨2, []⟩ last ∧
      last.host.names dumpingConfig.output = .ok ["A.dll.sarif", "B.dll.sarif"] := ⟨_, rfl, rfl⟩
  obtain ⟨last, hrun, hnames⟩ := hended
  have hundisturbed : Undisturbed wholeHost id dumpingConfig []
      (FileLocation.IsIn (dumpingConfig.output.locate [])) dumpingConfig.targets :=
    ⟨wholeHost_onTree, treeHost_leavesAlone _ _, dumpsApart_dumping⟩
  obtain ⟨_, _, _, outcomes, -, htargets, -, hreports, hlength, -⟩ :=
    run_reports hundisturbed rfl hrun
  refine ⟨last, hrun, hnames, outcomes, htargets, hlength, fun i target path hi => ?_⟩
  obtain ⟨-, _, _, log, _, -, hread⟩ := hreports i target path hi
  refine ⟨log, hread fun j later _ hij hj _ => ?_⟩
  have htarget : dumpingConfig.targets[i]? = some target := by
    rw [← htargets, List.getElem?_map, hi]
    rfl
  -- there are two targets, so the later one is the second
  obtain ⟨hlt, -⟩ := List.getElem?_eq_some_iff.1 hj
  obtain ⟨rfl, rfl⟩ : i = 0 ∧ j = 1 := by
    simp only [dumpingConfig, List.length_cons, List.length_nil] at hlt
    omega
  cases htarget
  cases hj
  decide

/-- Two different targets with one file name. -/
def sameNameConfig : Config where
  targets := [⟨"bin/A.dll"⟩, ⟨"obj/A.dll"⟩]
  analyzers := [⟨"analyzer.dll"⟩]

/-- There may be fewer files in the output directory than the summary counts, even if the targets
are different, no write breaks off, and nothing but reports is written. -/
theorem not_forall_counted_reports_kept :
    ¬ ∀ (host : Host FileTree Unit) (config : Config) (b last : BatchState FileTree)
        (summary : Summary), host.storage = FileTree.storage →
      host.LeavesAlone id (fun _ => True) → config.targets.Nodup → config.dumpSource = none →
      run host config b = .ok summary last →
        ∃ names, last.host.names config.output = .ok names ∧ summary.processed ≤ names.length := by
  intro hkept
  have hended : ∃ last, run wholeHost sameNameConfig ⟨{}, analyzerTree⟩ = .ok ⟨2, []⟩ last ∧
      last.host.names sameNameConfig.output = .ok ["A.dll.sarif"] := ⟨_, rfl, rfl⟩
  obtain ⟨last, hrun, hone⟩ := hended
  obtain ⟨names, hnames, hle⟩ := hkept _ _ _ _ _ rfl (treeHost_leavesAlone _ _) (by decide) rfl hrun
  cases hone.symm.trans hnames
  exact absurd hle (by decide)

/-! ## Writes that break off -/

/-- A text that is written is not empty. -/
theorem render_ne_empty (layout : Json.Layout) (log : Sarif.Log) : log.render layout ≠ "" := by
  intro h
  have hchars := congrArg String.toList h
  rw [Sarif.Log.render, Json.render, String.toList_ofList] at hchars
  cases hchars

/-- The host on a disk that is full after the first report: a file that is there already is emptied, and
its new content cannot be written. -/
def fullHost : Host FileTree Unit :=
  treeHost { FileTree.storage with
    writeText := fun path text t =>
      if t.isFile path then (.error .notFound, (t.write path .empty).2)
      else t.write path text.toUTF8 }

/-- A full disk is one of the ways in which writing may break off. -/
theorem fullHost_onTree : fullHost.OnTree id := by
  refine ⟨fun path t => t.keeps_createDirectories path, fun path text t => ?_⟩
  change t.Writes path text.toUTF8 (if _ then _ else _ : _ × FileTree).1
    (if _ then _ else _ : _ × FileTree).2
  split
  · rcases hwrite : t.write path .empty with ⟨e | ⟨⟩, t'⟩
    · obtain rfl := FileTree.write_of_error hwrite
      exact .unchanged
    · exact .brokenOff hwrite
  · exact t.writes_write path _

/-- A target that fails may take away the report of one that succeeds, if it fails in writing its own
one to the same file. -/
theorem not_forall_succeeding_kept :
    ¬ ∀ (host : Host FileTree Unit) (config : Config) (b last : BatchState FileTree)
        (summary : Summary), host.OnTree id → host.LeavesAlone id (fun _ => True) →
      config.dumpSource = none → run host config b = .ok summary last → summary.processed = 1 →
        ∃ target ∈ config.targets, ∃ (path : Path) (log : Sarif.Log),
          reportPath config.output target = .ok path ∧
          last.host.readText path = .ok (log.render (layout config)) := by
  intro hkept
  have hended : ∃ last, run fullHost sameNameConfig ⟨{}, analyzerTree⟩ =
        .ok ⟨1, [⟨"obj/A.dll"⟩]⟩ last ∧
      last.host.readText ⟨"PeekerResults/A.dll.sarif"⟩ = .ok "" := ⟨_, rfl, rfl⟩
  obtain ⟨last, hrun, hempty⟩ := hended
  obtain ⟨target, htarget, path, log, hpath, hread⟩ :=
    hkept _ _ _ _ _ fullHost_onTree (treeHost_leavesAlone _ _) rfl hrun rfl
  obtain rfl : path = ⟨"PeekerResults/A.dll.sarif"⟩ := by
    simp only [sameNameConfig, List.mem_cons, List.not_mem_nil, or_false] at htarget
    rcases htarget with rfl | rfl
    · exact (Except.ok.inj hpath).symm
    · exact (Except.ok.inj hpath).symm
  rw [hempty] at hread
  exact render_ne_empty _ _ (Except.ok.inj hread).symm

end Batch

end Retrace
