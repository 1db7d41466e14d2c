import Retrace.Proofs.File.Kept
import Retrace.Proofs.Report.References
import Retrace.Proofs.Sarif.RoundTrip
import Retrace.Proofs.Session.Outcome

/-!
# Reports are read back

The log of a session fits the format (`fits_process`): its properties are sorted texts, small
numbers and lists, its indices are below the number of diagnostics, and its lines and columns are
those of authored points or of the diagnostics themselves. So its text is read as the same log, and
so is the file that it is written to (`parse_process`).
-/

namespace Retrace

open Json Sarif

/-! ## Properties -/

/-- An object that is made of values that can be kept can be kept. -/
theorem kept_ofList {depth : Nat} {pairs : List (String × Json)}
    (h : ∀ m ∈ pairs, m.2.Storable (depth + 1)) : Kept depth (Members.ofList pairs) :=
  ⟨Members.sorted_ofList pairs, fun m hm => h m (Members.mem_of_mem_ofList hm)⟩

/-- A list of texts can be kept inside of few containers. -/
theorem storable_texts {depth : Nat} (room : depth < Tree.depthLimit) (texts : List String) :
    (Json.array (texts.map .string)).Storable depth := by
  refine .array room fun v hv => ?_
  obtain ⟨text, -, rfl⟩ := List.mem_map.1 hv
  exact .string text

/-- A word can be kept at any depth. -/
theorem storable_ofNat {depth n : Nat} (h : n < wordLimit) : (Json.ofNat n).Storable depth := by
  refine .integer ?_
  have hlong : n < longLimit := Nat.lt_trans h (by decide)
  rw [Tree.isStored, Bool.and_eq_true]
  exact ⟨decide_eq_true (by omega), decide_eq_true (by exact_mod_cast hlong)⟩

/-- The properties of a rule can be kept. -/
theorem RuleDescriptor.kept_properties {depth : Nat} (room : depth + 1 < Tree.depthLimit)
    (d : RuleDescriptor) : Kept depth d.properties := by
  refine kept_ofList fun m hm => ?_
  rcases List.mem_append.1 hm with hm | hm
  · split at hm
    · cases hm
    · obtain rfl := List.mem_singleton.1 hm
      exact .string _
  · split at hm
    · cases hm
    · obtain rfl := List.mem_singleton.1 hm
      exact storable_texts room _

namespace Report

variable {ν : Type} {s : Session ν} {ds : List Diagnostic} {d : Diagnostic}

/-- The properties of a result can be kept. -/
theorem kept_properties {depth : Nat} (room : depth + 1 < Tree.depthLimit)
    (hlevel : d.warningLevel < wordLimit) : Kept depth (properties d) := by
  refine kept_ofList fun m hm => ?_
  rcases List.mem_append.1 hm with hm | hm
  · split at hm
    · obtain rfl := List.mem_singleton.1 hm
      exact storable_ofNat hlevel
    · cases hm
  · split at hm
    · cases hm
    · obtain rfl := List.mem_singleton.1 hm
      refine .object room (Members.sorted_ofList _) fun m hm => ?_
      obtain ⟨⟨key, text⟩, -, rfl⟩ := List.mem_map.1 (Members.mem_of_mem_ofList hm)
      exact .string text

/-! ## Places -/

end Report

/-- Line and character are words. -/
structure LinePosition.IsWord (p : LinePosition) : Prop where
  line : p.line < wordLimit
  character : p.character < wordLimit

/-- Both ends are words. -/
structure LineSpan.IsWord (span : LineSpan) : Prop where
  start : span.start.IsWord
  stop : span.stop.IsWord

/-- The lines and characters of the points that the symbols tell are words. -/
def SymbolProvider.TellsWords (provider : SymbolProvider) : Prop :=
  ∀ token points, provider token = .ok (some points) →
    ∀ p ∈ points, p.start.IsWord ∧ p.stop.IsWord

/-- The numbers of the diagnostic are words. -/
structure Diagnostic.IsWord (d : Diagnostic) : Prop where
  warningLevel : d.warningLevel < wordLimit
  location : ∀ unit span, d.location = .source unit span → span.IsWord

namespace Report

variable {ν : Type} {s : Session ν} {ds : List Diagnostic} {d : Diagnostic}

/-- Places lie where the symbols or the diagnostics say. -/
theorem isWord_direct (hsymbols : ∀ provider ∈ s.symbols, provider.TellsWords) (hd : d.IsWord)
    {found : ResolvedLocation} (h : s.direct d = some found) : found.span.IsWord := by
  obtain ⟨⟨unit, span⟩, htarget, hfound⟩ := Option.bind_eq_some_iff.1 h
  have hspan : span.IsWord := by
    unfold Session.target? at htarget
    split at htarget
    · cases htarget
    · next name span' hlocation =>
      obtain ⟨_, -, heq⟩ := Option.map_eq_some_iff.1 htarget
      cases heq
      exact hd.location name span hlocation
  rcases Option.or_eq_some_iff.1 hfound with hmapped | ⟨-, hdump⟩
  · obtain ⟨hasked, -, -, hanswer, -, hfirst, hlast, -, -⟩ := Session.fromSymbols_of_mapped hmapped
    have hvisible : ∀ {points : Stream} {i : Nat} {p : SequencePoint},
        points.visible[i]? = some p → p ∈ points := fun hp =>
      List.mem_of_mem_filter (List.mem_of_getElem? hp)
    have hwords := hsymbols _ hasked _ _ hanswer
    exact ⟨(hwords _ (hvisible hfirst)).1, (hwords _ (hvisible hlast)).2⟩
  · obtain ⟨path, -, rfl⟩ := Session.exists_of_inDump hdump
    exact hspan

/-- The region of a span of words fits. -/
theorem fits_region {span : LineSpan} (h : span.IsWord) : (region span).Fits :=
  ⟨h.start.line, h.start.character, h.stop.line, h.stop.character⟩

/-- A place fits if the region in it does; a place without a region always does. -/
theorem fits_place {found : Option ResolvedLocation} (fileName : Path) (location : Location)
    (h : ∀ f ∈ found, f.span.IsWord) : (place fileName location found).Fits := by
  cases found with
  | none =>
    rintro _ ⟨⟩ _ ⟨⟩
  | some f =>
    rintro _ ⟨⟩ _ ⟨⟩
    exact fits_region (h f rfl)

/-! ## Logs -/

/-- The numbers that a report takes over are words, and 64 bits can count the diagnostics. -/
structure WithinWords (s : Session ν) (ds : List Diagnostic) : Prop where
  symbols : ∀ provider ∈ s.symbols, provider.TellsWords
  diagnostics : ∀ d ∈ ds, d.IsWord
  count : ds.length < longLimit

/-- The result on a diagnostic fits, if the numbers of the diagnostic and of the symbols are words. -/
theorem fits_reports {rules : List Sarif.Rule} {r : Sarif.Result} (hfaithful : s.Faithful)
    (hsymbols : ∀ provider ∈ s.symbols, provider.TellsWords) (hd : d.IsWord)
    (hrules : rules.length < longLimit) (h : Reports s rules d r) : r.Fits := by
  cases h with
  | @intro rule index t hdescriptor hlater hindexed =>
    refine ⟨?_, fun p hp => ?_, kept_properties (by decide) hd.warningLevel⟩
    · obtain ⟨hlt, -⟩ := List.getElem?_eq_some_iff.1 hindexed
      rw [List.length_map] at hlt
      exact Nat.lt_trans hlt hrules
    · obtain rfl := List.mem_singleton.1 hp
      refine fits_place s.fileName d.location fun f hf => ?_
      rw [(t.resolve_spec d).2 (hlater.faithful hfaithful), hlater.direct] at hf
      exact isWord_direct hsymbols hd hf

/-- The log of a session fits the format. -/
theorem fits_process (h : s.Reachable) (hwords : WithinWords s ds) : (process s ds).1.Fits := by
  obtain ⟨hlists, -, hresults⟩ := results_spec RuleRegistry.lists_empty s ds
  rw [List.nil_append] at hlists
  have hrules : (results {} s ds).2.1.rules.length < longLimit :=
    Nat.lt_of_le_of_lt (hlists.length_le.trans (List.length_filterMap_le _ _)) hwords.count
  intro run hrun
  obtain rfl := List.mem_singleton.1 hrun
  constructor
  · intro rule hrule
    obtain ⟨first, -, rfl⟩ := hlists.first rule hrule
    exact first.kept_properties (by decide)
  · intro r hr
    obtain ⟨d, hd, hreports⟩ := exists_of_mem_right hresults hr
    exact fits_reports h.faithful hwords.symbols
      (hwords.diagnostics d (List.mem_of_mem_filter hd)) hrules hreports

/-- The text of a report, in either layout, is read as the log that was written, and so is any file
that the report is written to. -/
theorem parse_process (h : s.Reachable) (hwords : WithinWords s ds) (layout : Layout) :
    Log.parse ((process s ds).1.render layout) = some (process s ds).1 ∧
      ∀ (path : Path) (tree tree' : FileTree),
        write FileTree.storage layout (process s ds).1 path tree = (.ok (), tree') →
        ∃ text, tree'.readText path = .ok text ∧ Log.parse text = some (process s ds).1 := by
  have hparse := Log.parse_render (fits_process h hwords) layout
  refine ⟨hparse, fun path tree tree' hwrite => ⟨_, ?_, hparse⟩⟩
  unfold write at hwrite
  split at hwrite
  · cases hwrite
  · next hwritten =>
    cases hwrite
    exact (FileTree.write_spec hwritten).2.readText

/-- A diagnostic with all that a report takes over. -/
def fullFinding : Diagnostic :=
  { Session.finding ⟨⟨0, 0⟩, ⟨0, 9⟩⟩ with
    message := "na\u00efve \"quote\""
    properties := [("k\t", "\u2203"), ("a", "")]
    descriptor := some ⟨"X1", "Title", " ", some "", "Usage", ["one", "two"], .error, false⟩ }

/-- It is read back from the text of its report, and from the file that this is written to. -/
theorem parse_process_of_full :
    let s := Session.ofFunction [⟨0, 5, ⟨10, 0⟩, ⟨10, 9⟩, some "a.cs", false⟩]
      [⟨0, 5, ⟨1, 0⟩, ⟨1, 9⟩, none, false⟩] [0]
    s.Reachable ∧ WithinWords s [fullFinding] ∧
      Log.parse ((process s [fullFinding]).1.render .indented) =
        some (process s [fullFinding]).1 ∧
      ∃ tree text, write FileTree.storage .indented (process s [fullFinding]).1 ⟨"a.sarif"⟩ {} =
          (.ok (), tree) ∧ tree.readText ⟨"a.sarif"⟩ = .ok text ∧
        Log.parse text = some (process s [fullFinding]).1 := by
  intro s
  have hreachable : s.Reachable := .opened rfl
  have hwords : WithinWords s [fullFinding] := by
    refine ⟨?_, ?_, by decide⟩
    · rintro _ ⟨⟩ token points ⟨⟩ p hp
      obtain rfl := List.mem_singleton.1 hp
      exact ⟨⟨by decide, by decide⟩, by decide, by decide⟩
    · intro d hd
      obtain rfl := List.mem_singleton.1 hd
      refine ⟨by decide, ?_⟩
      rintro _ _ ⟨⟩
      exact ⟨⟨by decide, by decide⟩, by decide, by decide⟩
  obtain ⟨htext, hfile⟩ := parse_process hreachable hwords .indented
  have hwrite : ∃ tree, write FileTree.storage .indented (process s [fullFinding]).1 ⟨"a.sarif"⟩ {} =
      (.ok (), tree) := ⟨_, rfl⟩
  obtain ⟨tree, hwrite⟩ := hwrite
  obtain ⟨text, hread, hparse⟩ := hfile _ _ _ hwrite
  exact ⟨hreachable, hwords, htext, tree, text, hwrite, hread, hparse⟩

end Report

end Retrace
