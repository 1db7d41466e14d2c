import Retrace.Proofs.Session.Files
import Retrace.Proofs.Session.Outcome
import Mathlib.Data.List.Nodup

/-!
# What is in the written copies

The place of a diagnostic that the symbols do not tell is in the written copy of its unit. After the
units were written, that file has the text of the last unit that was written there
(`text_of_dumped`): units with different names may share a file, since characters are replaced and
names are followed like paths. In `not_forall_dumped_text` a copy has the text of another unit.
-/

namespace Retrace.Session

variable {ν σ : Type} {s s' : Session ν} {t t' : FileTree} {w : FileLocation} {path dump : Path}
  {i : Nat} {u : SourceUnit}

/-! ## Units that share a file -/

/-- The last unit that is written where the path leads. -/
def lastWritten? (s : Session ν) (w : FileLocation) (path : Path) : Option SourceUnit :=
  s.units.reverse.find? fun u =>
    s.dumpSource.any fun dump => (s.dumpPathIn dump u).locate w = path.locate w

/-- No later unit is written where the path leads. -/
def NoneLater (s : Session ν) (w : FileLocation) (i : Nat) (path : Path) : Prop :=
  ∀ {j : Nat} {path' : Path}, i < j → s.dumpPath? j = some path' → path'.locate w ≠ path.locate w

/-- What is read in the file of a unit: the text of the last unit that is written there. -/
structure ReadsLast (s : Session ν) (w : FileLocation) (t : FileTree) (i : Nat) (path : Path)
    (u last : SourceUnit) : Prop where
  isUnit : s.units[i]? = some u
  isLast : s.lastWritten? w path = some last
  text : t.readText path = .ok last.text
  own : s.NoneLater w i path → last = u

/-- A unit is the last one in its file if no later one is written there. -/
theorem lastWritten?_of_noneLater (hpath : s.dumpPath? i = some path) (hunit : s.units[i]? = some u)
    (h : s.NoneLater w i path) : s.lastWritten? w path = some u := by
  obtain ⟨dump, u', hdump, hunit', rfl⟩ := dumpPath?_eq_some_iff.1 hpath
  obtain rfl : u' = u := Option.some.inj (hunit'.symm.trans hunit)
  obtain ⟨hlt, hget⟩ := List.getElem?_eq_some_iff.1 hunit
  have hsplit : s.units = s.units.take i ++ u' :: s.units.drop (i + 1) := by
    rw [← hget, List.getElem_cons_drop, List.take_append_drop]
  rw [lastWritten?, hsplit, List.reverse_append, List.reverse_cons, List.append_assoc,
    List.find?_append, List.find?_eq_none.2, Option.none_or]
  · simp [hdump]
  · intro v hv
    obtain ⟨k, hk⟩ := List.mem_iff_getElem?.1 (List.mem_reverse.1 hv)
    rw [List.getElem?_drop] at hk
    have hlater := h (by omega) (dumpPath?_eq_some_iff.2 ⟨dump, v, hdump, hk, rfl⟩)
    simpa [hdump] using hlater

/-! ## What was written -/

/-- If a session goes on with its dump directory, all of its units were written. -/
theorem writeUnits_of_dumpUnits {disk : Storage σ} {files files' : σ}
    (h : s.dumpUnits disk files = (.ok (), s', files')) (hdump : s'.dumpSource = some dump) :
    s'.writeUnits disk dump files = (.ok (), files') := by
  unfold dumpUnits at h
  split at h
  · next hnone =>
    cases h
    rw [hnone] at hdump
    cases hdump
  · next hsome =>
    split at h
    · cases h
      cases hdump
    · split at h
      · cases h
      · next hwritten =>
        cases h
        obtain rfl := Option.some.inj (hsome.symm.trans hdump)
        exact hwritten

/-- After the units were written, the file of each has the text of the last unit in it. -/
theorem readsLast_of_dumpUnits (h : s.dumpUnits FileTree.storage t = (.ok (), s', t'))
    (hpath : s'.dumpPath? i = some path) :
    ∃ u last, s'.ReadsLast t.workingDirectory t' i path u last := by
  obtain ⟨dump, u, hdump, hunit, rfl⟩ := dumpPath?_eq_some_iff.1 hpath
  have hwritten := writeUnits_of_dumpUnits h hdump
  rw [writeUnits_eq] at hwritten
  obtain ⟨t₁, hcreate, hwrite⟩ := Storage.andThen_eq_ok_iff.1 hwritten
  have hcreated := t.keeps_createDirectories (dumpDirectory s'.fileName dump)
  rw [show t.createDirectories _ = (.ok (), t₁) from hcreate] at hcreated
  obtain ⟨file, hfile, hhas⟩ := hasFile_writeAll hwrite
    (List.mem_map.2 ⟨u, List.mem_of_getElem? hunit, rfl⟩)
  rw [hcreated.workingDirectory, ← List.map_reverse, List.find?_map,
    Option.map_eq_some_iff] at hfile
  obtain ⟨last, hlast, rfl⟩ := hfile
  have hlast' : s'.lastWritten? t.workingDirectory (s'.dumpPathIn dump u) = some last := by
    rw [lastWritten?, hdump]
    exact hlast
  refine ⟨u, last, hunit, hlast', hhas.readText, fun hnone => ?_⟩
  rw [lastWritten?_of_noneLater hpath hunit hnone] at hlast'
  exact (Option.some.inj hlast').symm

/-- If the names of all units are names of files, different ones are in different files. -/
theorem noneLater_of_isName (hnames : ∀ u ∈ s.units, Path.IsName u.fileName)
    (hnodup : (s.units.map SourceUnit.fileName).Nodup) (hpath : s.dumpPath? i = some path) :
    s.NoneLater w i path := by
  intro j path' hij hpath' heq
  obtain ⟨dump, u, hdump, hunit, rfl⟩ := dumpPath?_eq_some_iff.1 hpath
  obtain ⟨dump', v, hdump', hunit', rfl⟩ := dumpPath?_eq_some_iff.1 hpath'
  obtain rfl := Option.some.inj (hdump'.symm.trans hdump)
  rw [dumpPathIn, dumpPathIn, Path.locate_join_name (hnames v (List.mem_of_getElem? hunit')),
    Path.locate_join_name (hnames u (List.mem_of_getElem? hunit))] at heq
  have hname : v.fileName = u.fileName := by simpa using heq
  have hlt : j < (s.units.map SourceUnit.fileName).length := by
    rw [List.length_map]
    exact (List.getElem?_eq_some_iff.1 hunit').1
  refine List.nodup_iff_getElem?_ne_getElem?.1 hnodup i j hij hlt ?_
  rw [List.getElem?_map, List.getElem?_map, hunit, hunit', Option.map_some, Option.map_some, hname]

/-- What is read in the written copies, after the units were written. In the file of a unit is the
text of the last unit that is written there, which is the unit itself if no later one is; this is so
for all units if their names, with the characters replaced, are different names of files. A place
that a diagnostic in a unit has, whatever was asked before, is one that the symbols tell or is in the
file of the unit. -/
theorem text_of_dumped (hreachable : s.Reachable)
    (h : s.dumpUnits FileTree.storage t = (.ok (), s', t')) :
    (∀ {i : Nat} {path : Path}, s'.dumpPath? i = some path →
      ∃ u last, s'.ReadsLast t.workingDirectory t' i path u last) ∧
    ((∀ u ∈ s'.units, Path.IsName u.fileName) → (s'.units.map SourceUnit.fileName).Nodup →
      ∀ {i : Nat} {path : Path}, s'.dumpPath? i = some path →
        ∃ u, s'.units[i]? = some u ∧ t'.readText path = .ok u.text) ∧
    ∀ (requests : List Request) {d : Diagnostic} {name : String} {span : LineSpan} {unit : Nat}
      {found : ResolvedLocation}, d.location = .source name span → s'.unitIndex? name = some unit →
        ((s'.after requests).resolve d).1 = some found →
          s'.FromSymbols unit span found ∨ found.span = span ∧
            ∃ u last, s'.ReadsLast t.workingDirectory t' unit ⟨found.path⟩ u last := by
  refine ⟨readsLast_of_dumpUnits h, fun hnames hnodup i path hpath => ?_,
    fun requests d name span unit found hlocation hunit hfound => ?_⟩
  · obtain ⟨u, last, hreads⟩ := readsLast_of_dumpUnits h hpath
    refine ⟨u, hreads.isUnit, ?_⟩
    rw [hreads.text, hreads.own (noneLater_of_isName hnames hnodup hpath)]
  · have hs' : s'.Reachable := by
      have hdumped := hreachable.dumped FileTree.storage t
      rwa [h] at hdumped
    have hafter := s'.continues_after requests
    rw [((s'.after requests).resolve_spec d).2 (hafter.faithful hs'.faithful), hafter.direct,
      direct_of_target (target?_of_source hlocation hunit)] at hfound
    rcases Option.or_eq_some_iff.1 hfound with hmapped | ⟨-, hdump⟩
    · exact .inl (fromSymbols_of_mapped hmapped)
    · obtain ⟨path, hpath, rfl⟩ := exists_of_inDump hdump
      exact .inr ⟨rfl, readsLast_of_dumpUnits h hpath⟩

/-- A success has a session and a state that it leaves. -/
theorem dumpUnits_eq_of_ok {disk : Storage σ} {files : σ}
    (h : (s.dumpUnits disk files).1 = .ok ()) : s.dumpUnits disk files =
      (.ok (), (s.dumpUnits disk files).2.1, (s.dumpUnits disk files).2.2) :=
  Prod.ext h rfl

/-- Two units whose names become one, and one with a name of its own. -/
def sharing : Session Unit :=
  ofUnits [⟨"<A>.cs", "class A {}\n"⟩, ⟨"(A).cs", "class B {}\n"⟩, ⟨"C.cs", "class C {}\n"⟩]

/-- The units of `sharing` are written. -/
theorem dumpUnits_sharing : sharing.dumpUnits FileTree.storage {} =
    (.ok (), (sharing.dumpUnits FileTree.storage {}).2.1,
      (sharing.dumpUnits FileTree.storage {}).2.2) := by
  apply dumpUnits_eq_of_ok
  decide +kernel

/-- The name of its first unit loses its angle brackets. -/
theorem dumpPath?_sharing : (sharing.dumpUnits FileTree.storage {}).2.1.dumpPath? 0 =
    some ⟨"dump/Sample.dll/(A).cs"⟩ := by
  decide +kernel

/-- In the file of the first unit is the text of the second one. -/
theorem text_of_dumped_of_sharing :
    sharing.Reachable ∧ ∃ s' t', sharing.dumpUnits FileTree.storage {} = (.ok (), s', t') ∧
      (∃ path, s'.dumpPath? 0 = some path ∧ t'.readText path = .ok "class B {}\n") ∧
      ∃ path, s'.dumpPath? 2 = some path ∧ t'.readText path = .ok "class C {}\n" := by
  have hreachable : sharing.Reachable := .opened rfl
  obtain ⟨hreads, -⟩ := text_of_dumped hreachable dumpUnits_sharing
  refine ⟨hreachable, _, _, dumpUnits_sharing, ?_, ?_⟩
  · have hlast : (sharing.dumpUnits FileTree.storage {}).2.1.lastWritten? []
        ⟨"dump/Sample.dll/(A).cs"⟩ = some ⟨"(A).cs", "class B {}\n"⟩ := by decide +kernel
    obtain ⟨u, last, hfirst⟩ := hreads dumpPath?_sharing
    obtain rfl := Option.some.inj (hfirst.isLast.symm.trans hlast)
    exact ⟨_, dumpPath?_sharing, hfirst.text⟩
  · have hpath : (sharing.dumpUnits FileTree.storage {}).2.1.dumpPath? 2 =
        some ⟨"dump/Sample.dll/C.cs"⟩ := by decide +kernel
    have hlast : (sharing.dumpUnits FileTree.storage {}).2.1.lastWritten? []
        ⟨"dump/Sample.dll/C.cs"⟩ = some ⟨"C.cs", "class C {}\n"⟩ := by decide +kernel
    obtain ⟨u, last, hthird⟩ := hreads hpath
    obtain rfl := Option.some.inj (hthird.isLast.symm.trans hlast)
    exact ⟨_, hpath, hthird.text⟩

/-- Not every unit has its own text in its file after the units were written, not even if all units
have different names. -/
theorem not_forall_dumped_text :
    ¬ ∀ (s s' : Session Unit) (t t' : FileTree), (s.units.map SourceUnit.name).Nodup →
      s.dumpUnits FileTree.storage t = (.ok (), s', t') →
        ∀ i path u, s'.dumpPath? i = some path → s'.units[i]? = some u →
          t'.readText path = .ok u.text := by
  intro h
  have hnodup : (sharing.units.map SourceUnit.name).Nodup := by decide
  have hunit : (sharing.dumpUnits FileTree.storage {}).2.1.units[0]? =
      some ⟨"<A>.cs", "class A {}\n"⟩ := by decide +kernel
  have hown := h sharing _ {} _ hnodup dumpUnits_sharing 0 _ _ dumpPath?_sharing hunit
  exact absurd hown (by decide +kernel)

end Retrace.Session
