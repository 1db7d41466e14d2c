import Retrace.Proofs.Batch.Tracked

/-!
# What a batch counts

The summary of a batch is read off what happened to its targets, one outcome for each. A target
succeeds, or is of an unsupported kind, or fails (`Outcome.Succeeds`, `Outcome.IsUnsupported`,
`Outcome.Fails`), whatever happened to the targets before it; `run_accounts` says that the summary
counts the first and lists the last, and that nothing is lost or counted twice.
-/

namespace Retrace

namespace Batch

/-! ## Kinds of outcomes -/

namespace Outcome

variable {o : Outcome}

/-- A report was written. -/
def Succeeds (o : Outcome) : Prop := ∃ path, o.report = .ok path

/-- The work on the target ended with the error for binaries of an unsupported kind. -/
def IsUnsupported (o : Outcome) : Prop := o.report = .error .notSupported

/-- The work on the target ended with another error. -/
def Fails (o : Outcome) : Prop := ∃ e, o.report = .error e ∧ e ≠ .notSupported

/-- What is counted as processed are the outcomes with a report. -/
theorem isProcessed_iff : o.isProcessed ↔ o.Succeeds := by
  unfold isProcessed Succeeds
  cases o.report with
  | ok path => simp
  | error e => simp

/-- What is listed as skipped are the failures, apart from binaries of an unsupported kind. -/
theorem isSkipped_iff : o.isSkipped ↔ o.Fails := by
  unfold isSkipped Fails
  split
  · next h => simp [h]
  · next h => simp [h]
  · next e hne h => simpa [h] using hne

instance : Decidable o.Succeeds := decidable_of_iff _ isProcessed_iff

instance : Decidable o.Fails := decidable_of_iff _ isSkipped_iff

instance : Decidable o.IsUnsupported :=
  match h : o.report with
  | .ok _ => isFalse (by simp [IsUnsupported, h])
  | .error e => if he : e = .notSupported then isTrue (by simp [IsUnsupported, h, he])
    else isFalse (by simp [IsUnsupported, h, he])

/-- Each outcome is of exactly one kind. -/
theorem kinds (o : Outcome) : (if o.Succeeds then 1 else 0) + (if o.Fails then 1 else 0) +
    (if o.IsUnsupported then 1 else 0) = 1 := by
  cases hreport : o.report with
  | ok path => simp [Succeeds, Fails, IsUnsupported, hreport]
  | error e =>
    by_cases he : e = .notSupported
    · simp [Succeeds, Fails, IsUnsupported, hreport, he]
    · simp [Succeeds, Fails, IsUnsupported, hreport, he]

/-- What is in neither count is of an unsupported kind. -/
theorem isUnsupported_iff : o.IsUnsupported ↔ ¬ o.Succeeds ∧ ¬ o.Fails := by
  have hkinds := o.kinds
  by_cases hsucceeds : o.Succeeds <;> by_cases hfails : o.Fails <;>
    by_cases hunsupported : o.IsUnsupported <;> simp_all

end Outcome

/-- The outcomes are as many as there are successes, failures and unsupported targets. -/
theorem countP_outcomes (outcomes : List Outcome) :
    outcomes.countP (fun o => o.Succeeds) + (outcomes.filter fun o => o.Fails).length +
      outcomes.countP (fun o => o.IsUnsupported) = outcomes.length := by
  rw [← List.countP_eq_length_filter]
  induction outcomes with
  | nil => rfl
  | cons o rest ih =>
    have hkinds := o.kinds
    simp only [List.countP_cons, List.length_cons, decide_eq_true_eq]
    omega

/-! ## The outcomes of a batch -/

variable {σ ν : Type} {host : Host σ ν} {config : Config} {analyzers : List Path} {rules : RuleSet}

/-- Each target has one outcome, in the order of the targets. -/
theorem map_target_processAll (targets : List Path) (b : BatchState σ) :
    (processAll host config analyzers rules targets b).1.map Outcome.target = targets := by
  induction targets generalizing b with
  | nil => rfl
  | cons target rest ih =>
    rw [processAll_cons]
    exact congrArg (target :: ·) (ih _)

/-- Each target is processed in the state that the targets in front of it leave. -/
theorem getElem?_processAll (targets : List Path) (b : BatchState σ) (i : Nat) :
    (processAll host config analyzers rules targets b).1[i]? = targets[i]?.map fun target =>
      outcomeAt host config analyzers rules target
        (processAll host config analyzers rules (targets.take i) b).2 := by
  induction targets generalizing b i with
  | nil => rfl
  | cons target rest ih =>
    rw [processAll_cons]
    cases i with
    | zero => rfl
    | succ i =>
      rw [List.take_succ_cons, processAll_cons]
      exact ih _ i

/-- The outcome of a target is what happens to it in the state that those in front of it leave. -/
theorem eq_outcomeAt_of_processAll {targets : List Path} {b : BatchState σ} {i : Nat} {o : Outcome}
    (h : (processAll host config analyzers rules targets b).1[i]? = some o) :
    o = outcomeAt host config analyzers rules o.target
      (processAll host config analyzers rules (targets.take i) b).2 := by
  rw [getElem?_processAll] at h
  obtain ⟨target, -, rfl⟩ := Option.map_eq_some_iff.1 h
  rfl

/-- The summary counts the outcomes that succeed, and lists the targets of those that fail. -/
theorem ofOutcomes_eq (outcomes : List Outcome) :
    Summary.ofOutcomes outcomes = ⟨outcomes.countP fun o => o.Succeeds,
      (outcomes.filter fun o => o.Fails).map Outcome.target⟩ := by
  have hprocessed : Outcome.isProcessed = fun o => decide o.Succeeds := by
    funext o
    rw [← Bool.coe_iff_coe, o.isProcessed_iff, decide_eq_true_iff]
  have hskipped : Outcome.isSkipped = fun o => decide o.Fails := by
    funext o
    rw [← Bool.coe_iff_coe, o.isSkipped_iff, decide_eq_true_iff]
  rw [Summary.ofOutcomes, hprocessed, hskipped]

/-- The state in which a batch takes up the target with an index. -/
def stateBefore (host : Host σ ν) (config : Config) (analyzers : List Path) (rules : RuleSet)
    (first : BatchState σ) (i : Nat) : BatchState σ :=
  (processAll host config analyzers rules (config.targets.take i) first).2

/-- A batch that does not fail has been prepared. Each target has one outcome, and the summary counts
the outcomes that succeed and lists the targets of those that fail. -/
theorem exists_outcomes_of_run {b last : BatchState σ} {summary : Summary}
    (h : run host config b = .ok summary last) :
    ∃ (analyzers : List Path) (rules : RuleSet) (first : BatchState σ) (outcomes : List Outcome),
      prepare host config (configured config b) = .ok (analyzers, rules) first ∧
      outcomes.map Outcome.target = config.targets ∧
      (∀ i o, outcomes[i]? = some o → o = outcomeAt host config analyzers rules o.target
        (stateBefore host config analyzers rules first i)) ∧
      summary = ⟨outcomes.countP fun o => o.Succeeds,
        (outcomes.filter fun o => o.Fails).map Outcome.target⟩ := by
  obtain ⟨analyzers, rules, first, hprepared, rfl, -⟩ := exists_prepared_of_run h
  exact ⟨analyzers, rules, first, _, hprepared, map_target_processAll config.targets first,
    fun i o ho => eq_outcomeAt_of_processAll ho, ofOutcomes_eq _⟩

/-- A host without files. It loads one binary, finds that one path is no binary of its kind, and
fails to load any other. -/
def sampleHost : Host Unit Unit where
  storage :=
    { isFile := fun _ _ => true
      isDirectory := fun _ _ => false
      names := fun _ _ => .ok []
      readText := fun _ _ => .error .notFound
      createDirectories := fun _ _ => (.ok (), ())
      writeText := fun _ _ _ => (.ok (), ()) }
  load target _ _ :=
    if target = ⟨"good.dll"⟩ then
      (.ok ⟨⟨[], fun _ _ => none, fun _ => none, fun _ => none, fun _ => .ok {}⟩, none⟩, ())
    else if target = ⟨"notes.txt"⟩ then (.error .notSupported, ())
    else (.error .empty, ())
  analyze _ _ _ := (.ok [], ())
  compile _ _ := (.ok [], ())
  elapsed _ := "0"

/-- Four targets, one of them given twice. -/
def sampleConfig : Config where
  targets := [⟨"broken.dll"⟩, ⟨"notes.txt"⟩, ⟨"good.dll"⟩, ⟨"broken.dll"⟩]
  analyzers := [⟨"analyzer.dll"⟩]

/-- One target of the sample is processed, and the broken one is skipped as often as it is listed. -/
theorem toExcept_run_sample : toExcept (run sampleHost sampleConfig ⟨{}, ()⟩) =
    .ok ⟨1, [⟨"broken.dll"⟩, ⟨"broken.dll"⟩]⟩ := rfl

end Batch

end Retrace
