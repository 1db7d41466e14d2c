import Retrace.Proofs.File.Component
import Retrace.Proofs.File.Kept

/-!
# What is created on the way to a path

A path comes through the locations that some first components of it lead to (`Path.Through`).
Creating directories adds directories at some of these and changes nothing else
(`addsDirectories_createDirectories`), and if it succeeds, there are directories at all of them
(`opens_createDirectories`). Writing a file changes nothing but where the path leads
(`changesOnly_write`).
-/

namespace Retrace

namespace Path

variable {p q : Path} {w l : FileLocation} {front : List Component}

/-- The path comes through the location: some first components of it lead there. -/
def Through (w : FileLocation) (p : Path) (l : FileLocation) : Prop :=
  ∃ front, front ≠ [] ∧ front <+: p.components ∧ trace w front = l

/-- A path comes through where the beginnings of its components lead to. -/
theorem through_iff : p.Through w l ↔ ∃ front ∈ beginnings p.components, trace w front = l := by
  simp only [Through, mem_beginnings, and_assoc]

instance (w : FileLocation) (p : Path) (l : FileLocation) : Decidable (p.Through w l) :=
  decidable_of_iff _ through_iff.symm

/-- A path with components comes through where it leads to itself. -/
theorem through_locate (h : p.components ≠ []) (w : FileLocation) : p.Through w (p.locate w) :=
  ⟨p.components, h, List.prefix_rfl, (locate_eq_trace w p).symm⟩

/-- A path comes through where the paths lead that are created for it. -/
theorem through_of_mem_ancestors {q : Path} (h : q ∈ p.ancestors) (w : FileLocation) :
    p.Through w (q.locate w) := by
  obtain ⟨hne, hprefix⟩ := components_of_mem_ancestors h
  exact ⟨q.components, hne, hprefix, (locate_eq_trace w q).symm⟩

/-- Where the path above comes through, the path does. -/
theorem Through.of_parent? (h : q.Through w l) (hparent : p.parent? = some q) : p.Through w l := by
  obtain ⟨front, hne, hprefix, htrace⟩ := h
  rw [components_of_parent? hparent] at hprefix
  exact ⟨front, hne, hprefix.trans (List.dropLast_prefix _), htrace⟩

/-- Two paths joined come through where the first one does, and where the second one does from
there. -/
theorem through_of_join (hp : p.text ≠ "") (h : (p.join q).Through w l) :
    p.Through w l ∨ q.Through (p.locate w) l := by
  obtain ⟨front, hne, hprefix, rfl⟩ := h
  cases hq : q.isAbsolute with
  | true =>
    rw [join, if_pos hq] at hprefix
    refine .inr ⟨front, hne, hprefix, ?_⟩
    rw [components_eq, start, if_pos hq] at hprefix
    obtain ⟨c, others, rfl⟩ := List.exists_cons_of_ne_nil hne
    obtain ⟨rfl, -⟩ := List.cons_prefix_cons.1 hprefix
    rfl
  | false =>
    rw [components_join hp hq] at hprefix
    rcases List.prefix_or_prefix_of_prefix hprefix (List.prefix_append p.components _) with
      habove | ⟨below, rfl⟩
    · exact .inl ⟨front, hne, habove, rfl⟩
    by_cases hbelow : below = []
    · subst hbelow
      exact .inl ⟨p.components ++ [], hne, by simp, rfl⟩
    · refine .inr ⟨q.start ++ below, by simp [hbelow], ?_, ?_⟩
      · rw [components_eq]
        exact (List.prefix_append_right_inj _).2 ((List.prefix_append_right_inj _).1 hprefix)
      · rw [trace_append, trace_append, trace_start_of_relative hq, locate_eq_trace]

/-- Where a path comes through, some first segments of it lead. -/
theorem Through.exists_walk (h : p.Through w l) : ∃ segments, segments <+: p.segments ∧
    walk (if p.isAbsolute then [] else w) segments = l := by
  -- with what is in front of the segments, a path has at least started
  have hstart : ∃ rest, rest <+: p.segments.filterMap componentOf? ∧
      trace (if p.isAbsolute then [] else w) rest = l := by
    obtain ⟨front, hne, hprefix, rfl⟩ := h
    obtain ⟨c, others, rfl⟩ := List.exists_cons_of_ne_nil hne
    rw [components_eq, start] at hprefix
    split at hprefix
    · next habsolute =>
      obtain ⟨rfl, hrest⟩ := List.cons_prefix_cons.1 hprefix
      rw [if_pos habsolute]
      exact ⟨others, hrest, rfl⟩
    · next hrelative =>
      rw [if_neg hrelative]
      split at hprefix
      · obtain ⟨rfl, hrest⟩ := List.cons_prefix_cons.1 hprefix
        exact ⟨others, hrest, rfl⟩
      · exact ⟨c :: others, hprefix, rfl⟩
  obtain ⟨rest, hrest, htrace⟩ := hstart
  obtain ⟨segments, hsegments, rfl⟩ := List.prefix_filterMap_iff.1 hrest
  exact ⟨segments, hsegments, (walk_eq_trace _ _).trans htrace⟩

end Path

namespace FileTree

variable {t t' t'' : FileTree} {touched touched' : FileLocation → Prop} {p : Path}
  {location : FileLocation} {segments front : List String}

/-! ## Trees that change in some places only -/

/-- The tree may become the other one: the working directory stays, and so does whatever there is or
is not at other locations than these. -/
structure ChangesOnly (t : FileTree) (touched : FileLocation → Prop) (t' : FileTree) : Prop where
  workingDirectory : t'.workingDirectory = t.workingDirectory
  entry : ∀ {l}, ¬ touched l → t'.entry? l = t.entry? l

theorem ChangesOnly.refl (t : FileTree) (touched : FileLocation → Prop) : t.ChangesOnly touched t :=
  ⟨rfl, fun _ => rfl⟩

/-- Two changes at some locations are one change at them. -/
theorem ChangesOnly.trans (h : t.ChangesOnly touched t') (h' : t'.ChangesOnly touched t'') :
    t.ChangesOnly touched t'' where
  workingDirectory := h'.workingDirectory.trans h.workingDirectory
  entry hl := (h'.entry hl).trans (h.entry hl)

/-- A change at some locations is one at more of them. -/
theorem ChangesOnly.mono (h : t.ChangesOnly touched t') (himp : ∀ l, touched l → touched' l) :
    t.ChangesOnly touched' t' :=
  ⟨h.workingDirectory, fun hl => h.entry (mt (himp _) hl)⟩

/-- A new entry is a change at its location only. -/
theorem changesOnly_set (hne : location ≠ []) (t : FileTree) (entry : FileEntry) :
    t.ChangesOnly (· = location) (t.set location entry) := by
  refine ⟨rfl, fun {l} hl => ?_⟩
  rw [entry?_set hne, if_neg (Ne.symm hl)]

/-- The tree may become the other one: the only change is that at some of these locations, where
nothing was, there are directories. -/
structure AddsDirectories (t : FileTree) (places : FileLocation → Prop) (t' : FileTree) : Prop where
  workingDirectory : t'.workingDirectory = t.workingDirectory
  entry : ∀ l, t'.entry? l = t.entry? l ∨
    places l ∧ t.entry? l = none ∧ t'.entry? l = some .directory

theorem AddsDirectories.refl (t : FileTree) (places : FileLocation → Prop) :
    t.AddsDirectories places t :=
  ⟨rfl, fun _ => .inl rfl⟩

/-- Directories that are added at some locations are added at more of them. -/
theorem AddsDirectories.mono (h : t.AddsDirectories touched t')
    (himp : ∀ l, touched l → touched' l) : t.AddsDirectories touched' t' :=
  ⟨h.workingDirectory, fun l => (h.entry l).imp_right fun hadded => ⟨himp l hadded.1, hadded.2⟩⟩

/-- Directories that are added one after the other are added together. -/
theorem AddsDirectories.trans (h : t.AddsDirectories touched t')
    (h' : t'.AddsDirectories touched t'') : t.AddsDirectories touched t'' := by
  refine ⟨h'.workingDirectory.trans h.workingDirectory, fun l => ?_⟩
  rcases h'.entry l with heq | ⟨hl, hnone, hdirectory⟩
  · rw [heq]
    exact h.entry l
  · rcases h.entry l with heq | ⟨-, -, hbefore⟩
    · exact .inr ⟨hl, heq ▸ hnone, hdirectory⟩
    · rw [hnone] at hbefore
      cases hbefore

/-- To add directories changes nothing but their locations. -/
theorem AddsDirectories.changesOnly (h : t.AddsDirectories touched t') : t.ChangesOnly touched t' :=
  ⟨h.workingDirectory, fun hl => (h.entry _).resolve_right fun hadded => hl hadded.1⟩

/-- The creation of a directory adds it where its path leads to. -/
theorem addsDirectories_createDirectory (h : t.createDirectory p = .ok t') :
    t.AddsDirectories (· = p.locate t.workingDirectory) t' := by
  obtain ⟨-, hnone, rfl⟩ := createDirectory_spec h
  have hne : p.locate t.workingDirectory ≠ [] :=
    ne_nil_of_not_directory (ne_of_eq_of_ne hnone nofun)
  refine ⟨rfl, fun l => ?_⟩
  rw [entry?_set hne]
  split
  · next heq => exact .inr ⟨heq.symm, heq ▸ hnone, rfl⟩
  · exact .inl rfl

/-- Creating directories adds directories where the path comes through, and changes nothing else. -/
theorem addsDirectories_createDirectories (t : FileTree) (p : Path) :
    t.AddsDirectories (p.Through t.workingDirectory) (t.createDirectories p).2 := by
  refine createFrom_of_steps
    (R := fun t₁ t₂ => t₁.workingDirectory = t.workingDirectory →
      t₁.AddsDirectories (p.Through t.workingDirectory) t₂)
    (fun t₁ _ => .refl t₁ _) (fun h h' hw => ?_) (fun hq hcreated hw => ?_) t rfl
  · exact (h hw).trans (h' ((h hw).workingDirectory.trans hw))
  · refine (addsDirectories_createDirectory hcreated).mono fun l hl => ?_
    rw [hl, hw]
    exact Path.through_of_mem_ancestors hq _

/-- A path that creates an entry has components. -/
theorem components_ne_nil_of_creation {name : String}
    (h : t.creation p = .ok (location, some name)) : p.components ≠ [] := by
  obtain ⟨-, hname, -, front, blank, hsegments, -⟩ := creation_spec h
  refine Path.components_ne_nil ?_ hname
  rw [hsegments]
  exact List.mem_append_right _ List.mem_cons_self

/-- Writing a file changes nothing but where the path leads. -/
theorem changesOnly_write (t : FileTree) (p : Path) (content : ByteArray) :
    t.ChangesOnly (fun l => p.Through t.workingDirectory l ∧ l = p.locate t.workingDirectory)
      (t.write p content).2 := by
  cases hwrite : t.write p content with
  | mk result t' =>
    cases result with
    | error e =>
      obtain rfl := write_of_error hwrite
      exact .refl t' _
    | ok _ =>
      obtain ⟨⟨location, name, hcreation⟩, -, hentry, rfl⟩ := set_of_write hwrite
      refine (changesOnly_set (ne_nil_of_not_directory hentry) t _).mono fun l hl => ?_
      exact ⟨hl ▸ Path.through_locate (components_ne_nil_of_creation hcreation) _, hl⟩

/-! ## Directories that are there -/

/-- Everywhere that the path comes through are directories. -/
def Opens (t : FileTree) (p : Path) : Prop :=
  ∀ l, p.Through t.workingDirectory l → t.entry? l = some .directory

/-- What a path to a directory leads through are directories. -/
theorem entry?_walk_of_passable (h : t.Passable location segments)
    (hend : t.entry? (Path.walk location segments) = some .directory)
    (hfront : front <+: segments) :
    t.entry? (Path.walk location front) = some .directory := by
  obtain ⟨back, rfl⟩ := hfront
  cases back with
  | nil => rwa [List.append_nil] at hend
  | cons segment rest =>
    rw [passable_append] at h
    exact h.2.1

/-- Empty segments lead through the directory that they start in. -/
theorem passable_of_blank (hlocation : t.entry? location = some .directory)
    (h : ∀ segment ∈ segments, segment = "") : t.Passable location segments := by
  induction segments with
  | nil => trivial
  | cons segment rest ih =>
    obtain ⟨rfl, hrest⟩ := List.forall_mem_cons.1 h
    exact ⟨hlocation, ih hrest⟩

/-- A path along directories to a directory has directories wherever it comes through. -/
theorem opens_of_passable (h : t.Passable (t.origin p) p.segments)
    (hend : t.entry? (p.locate t.workingDirectory) = some .directory) : t.Opens p := by
  intro _ hl
  obtain ⟨segments, hsegments, rfl⟩ := hl.exists_walk
  exact entry?_walk_of_passable h hend hsegments

/-- So has the path of a directory that exists. -/
theorem opens_of_isDirectory (h : t.isDirectory p = true) : t.Opens p := by
  unfold isDirectory FileTree.find at h
  split at h
  · next hfind =>
    split at hfind
    · cases hfind
    · split at hfind
      · cases hfind
      · next hfollow =>
        obtain ⟨hpassable, rfl⟩ := follow_eq_ok_iff.1 hfollow
        split at hfind
        · next hentry =>
          cases hfind
          exact opens_of_passable hpassable hentry
        · cases hfind
  · cases h

/-- A directory that is created is there, and so are all directories on the way to it. -/
theorem opens_createDirectory (h : t.createDirectory p = .ok t') : t'.Opens p := by
  have hkeeps := keeps_createDirectory h
  obtain ⟨⟨location, name, hcreation⟩, hnone, rfl⟩ := createDirectory_spec h
  have hentry : t.entry? (p.locate t.workingDirectory) ≠ some .directory := by simp [hnone]
  have hcreated : entry? (t.set (p.locate t.workingDirectory) .directory)
      (p.locate t.workingDirectory) = some .directory :=
    (entry?_set (ne_nil_of_not_directory hentry) _ _).trans (if_pos rfl)
  obtain ⟨-, hname, hdirectory, front, blank, hsegments, hblank, hpassable, rfl⟩ :=
    creation_spec hcreation
  refine opens_of_passable ?_ hcreated
  show Passable _ (t.origin p) p.segments
  rw [hsegments, passable_append]
  refine ⟨hkeeps.passable hpassable, hkeeps.directory hdirectory, passable_of_blank ?_ hblank⟩
  rw [hname.step_eq, ← locate_of_creation hcreation]
  exact hcreated

/-- After the creation of the directories above a path, it has directories wherever it comes
through. -/
theorem opens_of_createFrom {above : List Path} (h : t.createFrom (p :: above) = (.ok (), t')) :
    t'.Opens p := by
  -- what exists already may be a file
  have hexists : ∀ {t₁ : FileTree}, (if t₁.isDirectory p then (.ok () : Except FileError Unit)
      else .error .alreadyExists, t₁) = (.ok (), t') → t'.Opens p := by
    intro t₁ heq
    split at heq
    · next hdirectory =>
      cases heq
      exact opens_of_isDirectory hdirectory
    · cases heq
  unfold createFrom at h
  split at h
  · next hcreated =>
    cases h
    exact opens_createDirectory hcreated
  · exact hexists h
  · split at h
    · cases h
    · split at h
      · next hcreated =>
        cases h
        exact opens_createDirectory hcreated
      · exact hexists h
      · cases h
  · cases h

/-- After directories were created, they are there. -/
theorem opens_createDirectories (h : t.createDirectories p = (.ok (), t')) : t'.Opens p := by
  unfold createDirectories Path.ancestors at h
  split at h
  · next hnone =>
    rintro l ⟨front, hne, hprefix, rfl⟩
    -- nothing is above the root but the root
    rcases Path.eq_of_parentComponents?_eq_none hnone with hnil | hroot
    · rw [hnil] at hprefix
      exact absurd (List.prefix_nil.1 hprefix) hne
    · rw [hroot] at hprefix
      obtain ⟨rest, rfl, hrest⟩ := (List.prefix_cons_iff.1 hprefix).resolve_left hne
      rw [List.prefix_nil.1 hrest]
      rfl
  · exact opens_of_createFrom h

end FileTree

end Retrace
