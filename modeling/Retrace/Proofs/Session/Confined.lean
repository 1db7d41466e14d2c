import Retrace.Proofs.File.Route
import Retrace.Proofs.Session.Files

/-!
# How far written units get out of their directory

Every unit is written to the directory of its binary, below the dump directory, under its name. But
the name is followed like any path: its characters are replaced one by one, and `..` and a `/` in
front of it stay. So whether a name leads out of the directory depends on what its components amount
to (`SourceUnit.route`). `dumped_along_routes` says exactly which files are below the directory, and
that nothing outside of it changes but where the names that leave it come through;
`not_forall_dumped_below` is a unit that is written elsewhere.
-/

namespace Retrace

/-- What the name of a unit amounts to, from the directory that it is followed from. -/
def SourceUnit.route (u : SourceUnit) : Path.Route := Path.route (Path.components ⟨u.fileName⟩)

/-- A relative name without `..` stays in the directory. -/
theorem SourceUnit.stays_of_relative {u : SourceUnit}
    (habsolute : (Path.mk u.fileName).isAbsolute = false)
    (hparent : ".." ∉ (Path.mk u.fileName).segments) : u.route.Stays := by
  refine Path.stays_of_forall fun c hc => ?_
  rw [Path.components_eq, Path.start, if_neg (by simp [habsolute])] at hc
  rcases List.mem_append.1 hc with hstart | hsegment
  · split at hstart
    · obtain rfl := List.mem_singleton.1 hstart
      exact ⟨by simp, by simp⟩
    · exact absurd hstart List.not_mem_nil
  · refine ⟨?_, ?_⟩
    · rintro rfl
      obtain ⟨segment, hmem, hsome⟩ := List.mem_filterMap.1 hsegment
      unfold Path.componentOf? at hsome
      split at hsome
      · cases hsome
      · cases hsome
      · exact hparent hmem
      · cases hsome
    · rintro rfl
      cases Path.inner_of_mem_filterMap hsegment

namespace Session

open FileLocation (Below)

variable {ν : Type} {s : Session ν} {dump fileName : Path} {binary : String} {u : SourceUnit}
  {t : FileTree} {w l directory : FileLocation}

/-! ## The directory of a binary -/

/-- The units of a binary are written to the directory of its name. -/
theorem dumpDirectory_eq (h : fileName.fileName? = some binary) (dump : Path) :
    dumpDirectory fileName dump = dump.join ⟨binary⟩ := by
  rw [dumpDirectory, h]

/-- This directory is right below the dump directory. -/
theorem locate_dumpDirectory (h : fileName.fileName? = some binary) (w : FileLocation)
    (dump : Path) : (dumpDirectory fileName dump).locate w = dump.locate w ++ [binary] := by
  rw [dumpDirectory_eq h]
  exact Path.locate_join_name (Path.isName_of_fileName? h) w dump

/-- The name of the binary is one of the segments of its directory. -/
theorem mem_segments_dumpDirectory (h : fileName.fileName? = some binary) (dump : Path) :
    binary ∈ (dumpDirectory fileName dump).segments := by
  rw [dumpDirectory_eq h]
  exact Path.mem_segments_join_name (Path.isName_of_fileName? h) dump

/-- The path of this directory is not empty. -/
theorem dumpDirectory_ne_empty (h : fileName.fileName? = some binary) (dump : Path) :
    (dumpDirectory fileName dump).text ≠ "" := by
  intro hempty
  have hmem := mem_segments_dumpDirectory h dump
  rw [Path.segments, hempty] at hmem
  exact (Path.isName_of_fileName? h).ne_empty (List.mem_singleton.1 hmem)

/-- The file of a unit is where the name of the unit leads from the directory of the binary. -/
theorem locate_dumpPathIn (h : s.fileName.fileName? = some binary) (w : FileLocation) (dump : Path)
    (u : SourceUnit) :
    (s.dumpPathIn dump u).locate w = u.route.follow (dump.locate w ++ [binary]) := by
  rw [dumpPathIn, Path.locate_join, locate_dumpDirectory h, Path.locate_eq_trace,
    Path.trace_eq_follow]
  rfl

/-! ## What is written -/

/-- A name that stays in a directory comes through it and what is below it. -/
theorem eq_or_below_of_through (hstays : u.route.Stays)
    (h : (Path.mk u.fileName).Through directory l) : l = directory ∨ Below directory l := by
  obtain ⟨front, -, hprefix, rfl⟩ := h
  rw [Path.trace_of_stays hstays hprefix]
  by_cases hnames : (Path.route front).names = []
  · rw [hnames, List.append_nil]
    exact .inl rfl
  · exact .inr ⟨_, hnames, rfl⟩

/-- If the directory of the binary is there, writing units changes nothing outside of it but where
names that leave it come through. -/
theorem entry?_writeAll_units (hbinary : s.fileName.fileName? = some binary)
    (hw : t.workingDirectory = w) (hopens : t.Opens (dumpDirectory s.fileName dump))
    (hl : ¬ Below (dump.locate w ++ [binary]) l)
    (hstays : ∀ u ∈ s.units,
      (Path.mk u.fileName).Through (dump.locate w ++ [binary]) l → u.route.Stays) :
    FileTree.entry? (writeAll FileTree.storage
      (s.units.map fun u => (s.dumpPathIn dump u, u.text)) t).2 l = t.entry? l := by
  by_cases hthrough : (dumpDirectory s.fileName dump).Through w l
  · -- on the way to the directory are directories, which stay
    have hdirectory := hopens l (hw ▸ hthrough)
    rw [hdirectory]
    exact (keeps_writeAll hw _).directory hdirectory
  · refine (changesOnly_writeAll hw _).entry ?_
    rintro ⟨file, hfile, hpath⟩
    obtain ⟨u, hu, rfl⟩ := List.mem_map.1 hfile
    rcases Path.through_of_join (dumpDirectory_ne_empty hbinary dump) hpath with habove | hname
    · exact hthrough habove
    · rw [locate_dumpDirectory hbinary] at hname
      rcases eq_or_below_of_through (hstays u hu hname) hname with rfl | hbelow
      · refine hthrough ?_
        rw [← locate_dumpDirectory hbinary]
        exact Path.through_locate (Path.components_ne_nil (mem_segments_dumpDirectory hbinary dump)
          (Path.isName_of_fileName? hbinary)) w
      · exact hl hbelow

/-- Writing units changes nothing outside of their directory but where names that leave it come
through, except for the directories that are missing on the way to it. -/
theorem entry?_writeUnits (hbinary : s.fileName.fileName? = some binary)
    (hw : t.workingDirectory = w) (hl : ¬ Below (dump.locate w ++ [binary]) l)
    (hstays : ∀ u ∈ s.units,
      (Path.mk u.fileName).Through (dump.locate w ++ [binary]) l → u.route.Stays) :
    FileTree.entry? (s.writeUnits FileTree.storage dump t).2 l = t.entry? l ∨
      (dumpDirectory s.fileName dump).Through w l ∧ t.entry? l = none ∧
        FileTree.entry? (s.writeUnits FileTree.storage dump t).2 l = some .directory := by
  have hadds := t.addsDirectories_createDirectories (dumpDirectory s.fileName dump)
  rw [hw] at hadds
  have hcreate : FileTree.storage.createDirectories (dumpDirectory s.fileName dump) t =
      t.createDirectories (dumpDirectory s.fileName dump) := rfl
  rw [writeUnits, hcreate]
  split
  · next heq =>
    rw [heq] at hadds
    exact hadds.entry l
  · next t₁ heq =>
    rw [heq] at hadds
    rw [entry?_writeAll_units hbinary (hadds.workingDirectory.trans hw)
      (FileTree.opens_createDirectories heq) hl hstays]
    exact hadds.entry l

/-- How far the files of units get out of the directory of their binary. Each is where the name of
the unit leads from there, and so below it if and only if the name comes back to it as far as it
left it, and goes on. Outside of the directory nothing changes but where names that leave it come
through, except that the directories on the way to it are created if they are missing. -/
theorem dumped_along_routes (hdump : s.dumpSource = some dump)
    (hbinary : s.fileName.fileName? = some binary) (t : FileTree) :
    let w := t.workingDirectory
    let directory := dump.locate w ++ [binary]
    let dumped := (s.dumpUnits FileTree.storage t).2.2
    (∀ {i : Nat} {path : Path}, s.dumpPath? i = some path → ∃ u, s.units[i]? = some u ∧
      path.locate w = u.route.follow directory ∧
      (Below directory (path.locate w) ↔ Below (u.route.left directory) u.route.names) ∧
      (u.route.Stays → (Below directory (path.locate w) ↔ u.route.names ≠ []))) ∧
    ∀ {l : FileLocation}, ¬ Below directory l →
      (∀ u ∈ s.units, (Path.mk u.fileName).Through directory l → u.route.Stays) →
        dumped.entry? l = t.entry? l ∨
          (dumpDirectory s.fileName dump).Through w l ∧ t.entry? l = none ∧
            dumped.entry? l = some .directory := by
  intro w directory dumped
  refine ⟨fun {i path} hpath => ?_, fun {l} hl hstays => ?_⟩
  · obtain ⟨dump', u, hdump', hunit, rfl⟩ := dumpPath?_eq_some_iff.1 hpath
    obtain rfl := Option.some.inj (hdump'.symm.trans hdump)
    rw [locate_dumpPathIn hbinary]
    exact ⟨u, hunit, rfl, Path.Route.below_follow_iff _ _, fun hstays => hstays.below_follow_iff _⟩
  · have hwritten := entry?_writeUnits hbinary rfl hl hstays
    show FileTree.entry? (s.dumpUnits FileTree.storage t).2.2 l = t.entry? l ∨ _ ∧ _ ∧
      FileTree.entry? (s.dumpUnits FileTree.storage t).2.2 l = _
    rw [dumpUnits, hdump]
    dsimp only
    split
    · exact .inl rfl
    · split
      · next heq => rwa [heq] at hwritten
      · next heq => rwa [heq] at hwritten

/-- A unit in a directory of its own, and one whose name leads two directories up. -/
def escaping : Session Unit :=
  ofUnits [⟨"Sub/A.cs", "class A {}\n"⟩, ⟨"../../Escape.cs", "class Escape {}\n"⟩]

/-- The first file is below the directory of the binary, the second one is not; what neither name
comes through is left alone. -/
theorem dumped_along_routes_of_escaping :
    escaping.dumpSource = some ⟨"dump"⟩ ∧ escaping.fileName.fileName? = some "Sample.dll" ∧
      (∃ path, escaping.dumpPath? 0 = some path ∧ Below ["dump", "Sample.dll"] (path.locate [])) ∧
      (∃ path, escaping.dumpPath? 1 = some path ∧ path.locate [] = ["Escape.cs"] ∧
        ¬ Below ["dump", "Sample.dll"] (path.locate [])) ∧
      FileTree.entry? (escaping.dumpUnits FileTree.storage {}).2.2 ["bin"] = none := by
  have hbinary : escaping.fileName.fileName? = some "Sample.dll" := by decide
  obtain ⟨hpaths, houtside⟩ := dumped_along_routes (s := escaping) rfl hbinary {}
  refine ⟨rfl, hbinary, ?_, ?_, ?_⟩
  · obtain ⟨u, hunit, -, -, hiff⟩ := hpaths (i := 0) rfl
    obtain rfl := Option.some.inj hunit
    exact ⟨_, rfl, (hiff (SourceUnit.stays_of_relative rfl (by decide))).2 (by decide)⟩
  · obtain ⟨u, hunit, hlocate, hiff, -⟩ := hpaths (i := 1) rfl
    obtain rfl := Option.some.inj hunit
    exact ⟨_, rfl, by decide, mt hiff.1 (by decide)⟩
  · have hunits : ∀ u ∈ escaping.units,
        (Path.mk u.fileName).Through ["dump", "Sample.dll"] ["bin"] → u.route.Stays := by decide
    rcases houtside (l := ["bin"]) (by decide) hunits with heq | ⟨hthrough, -⟩
    · exact heq
    · exact absurd hthrough (by decide)

/-- Not every path that a unit is written to is below the directory of its binary, and not every
file that is created for a unit is. -/
theorem not_forall_dumped_below :
    ¬ (∀ (s : Session Unit) (dump : Path) (binary : String) (w : FileLocation),
      s.dumpSource = some dump → s.fileName.fileName? = some binary →
        ∀ i path, s.dumpPath? i = some path →
          Below (dump.locate w ++ [binary]) (path.locate w)) ∧
    ¬ (∀ (s : Session Unit) (dump : Path) (binary : String) (t : FileTree),
      s.dumpSource = some dump → s.fileName.fileName? = some binary →
        ∀ l content, t.entry? l = none →
          FileTree.entry? (s.dumpUnits FileTree.storage t).2.2 l = some (.file content) →
          Below (dump.locate t.workingDirectory ++ [binary]) l) := by
  have hbinary : escaping.fileName.fileName? = some "Sample.dll" := by decide
  constructor
  · intro h
    have hbelow := h escaping ⟨"dump"⟩ "Sample.dll" [] rfl hbinary 1 _ rfl
    exact absurd hbelow (by decide)
  · intro h
    have hbelow := h escaping ⟨"dump"⟩ "Sample.dll" {} rfl hbinary ["Escape.cs"] _ rfl rfl
    exact absurd hbelow (by decide)

end Session

end Retrace
