import Retrace.Proofs.File.Created
import Retrace.Session.Dump

/-!
# Files that are written one after the other

What `Session.writeAll` leaves in a file tree. Whatever creating directories and writing one file
does to a state, writing all files does (`relates_writeAll`); so nothing changes but where the paths
come through (`changesOnly_writeAll`), and files that are not written stay (`keeps_writeAll`). If it
succeeds, each path leads to a file, with the last text that was written there (`hasFile_writeAll`).
-/

namespace Retrace

variable {σ ν : Type}

/-! ## Operations one after the other -/

namespace Storage

variable {f g : σ → Except FileError Unit × σ} {files files' : σ}

/-- One operation after another, as long as they succeed. -/
def andThen (f g : σ → Except FileError Unit × σ) (files : σ) : Except FileError Unit × σ :=
  match f files with
  | (.error e, files) => (.error e, files)
  | (.ok (), files) => g files

/-- Two operations succeed if the first one does, and the second one in the state it leaves. -/
theorem andThen_eq_ok_iff : andThen f g files = (.ok (), files') ↔
    ∃ between, f files = (.ok (), between) ∧ g between = (.ok (), files') := by
  unfold andThen
  split
  · next heq => simp [heq]
  · next heq => simp [heq]

/-- What the operation makes of a state is related to it, whether the operation succeeds or not. -/
def Relates (R : σ → σ → Prop) (f : σ → Except FileError Unit × σ) : Prop :=
  ∀ files, R files (f files).2

/-- A transitive relation that holds across each of two operations holds across both. -/
theorem Relates.andThen {R : σ → σ → Prop} (trans : ∀ {a b c}, R a b → R b c → R a c)
    (hf : Relates R f) (hg : Relates R g) : Relates R (andThen f g) := by
  intro files
  have hfirst := hf files
  unfold Storage.andThen
  split
  · next heq => rwa [heq] at hfirst
  · next heq =>
    rw [heq] at hfirst
    exact trans hfirst (hg _)

end Storage

namespace Session

section Operations

variable (disk : Storage σ) (s : Session ν)

/-- Creates the directories above a path. -/
def createParent (path : Path) (files : σ) : Except FileError Unit × σ :=
  path.parent?.elim (.ok (), files) fun above => disk.createDirectories above files

/-- Files are written one after the other, each behind the directories above it. -/
theorem writeAll_cons (path : Path) (text : String) (rest : List (Path × String)) :
    writeAll disk ((path, text) :: rest) = Storage.andThen (createParent disk path)
      (Storage.andThen (disk.writeText path text) (writeAll disk rest)) := by
  rfl

/-- To write the units is to create the directory of the binary and to write a file for each unit. -/
theorem writeUnits_eq (dump : Path) :
    s.writeUnits disk dump =
      Storage.andThen (disk.createDirectories (dumpDirectory s.fileName dump))
        (writeAll disk (s.units.map fun u => (s.dumpPathIn dump u, u.text))) := by
  rfl

end Operations

variable {disk : Storage σ} {written : List (Path × String)} {t t' : FileTree} {w l : FileLocation}
  {path : Path} {text : String}

/-- Whatever creating directories and writing one file does to a state, writing all files does. -/
theorem relates_writeAll {R : σ → σ → Prop} (refl : ∀ files, R files files)
    (trans : ∀ {a b c}, R a b → R b c → R a c)
    (create : ∀ {file above}, file ∈ written → file.1.parent? = some above →
      Storage.Relates R (disk.createDirectories above))
    (write : ∀ {file}, file ∈ written → Storage.Relates R (disk.writeText file.1 file.2)) :
    Storage.Relates R (writeAll disk written) := by
  induction written with
  | nil => exact refl
  | cons file rest ih =>
    obtain ⟨path, text⟩ := file
    have hparent : Storage.Relates R (createParent disk path) := by
      intro files
      unfold createParent
      cases hparent : path.parent? with
      | none => exact refl files
      | some above => exact create List.mem_cons_self hparent files
    have hrest := ih (fun hmem => create (List.mem_cons_of_mem _ hmem))
      (fun hmem => write (List.mem_cons_of_mem _ hmem))
    rw [writeAll_cons]
    exact hparent.andThen trans ((write List.mem_cons_self).andThen trans hrest)

/-! ## Files in a tree -/

/-- Writing files keeps all others. -/
theorem keeps_writeAll (hw : t.workingDirectory = w) (written : List (Path × String)) :
    t.Keeps (fun l => ∀ file ∈ written, file.1.locate w ≠ l)
      (writeAll FileTree.storage written t).2 := by
  refine relates_writeAll
    (R := fun t₁ t₂ => t₁.workingDirectory = w →
      t₁.Keeps (fun l => ∀ file ∈ written, file.1.locate w ≠ l) t₂)
    (fun t₁ _ => .refl t₁ _) (fun h h' hw => ?_) (fun _ _ t₁ _ => ?_) (fun hfile t₁ hw => ?_) t hw
  · exact (h hw).trans (h' ((h hw).workingDirectory.trans hw))
  · exact (t₁.keeps_createDirectories _).mono fun _ _ => trivial
  · refine (t₁.keeps_write _ _).mono fun l hl => ?_
    rw [hw]
    exact (hl _ hfile).symm

/-- Writing files changes nothing but where their paths come through. -/
theorem changesOnly_writeAll (hw : t.workingDirectory = w) (written : List (Path × String)) :
    t.ChangesOnly (fun l => ∃ file ∈ written, file.1.Through w l)
      (writeAll FileTree.storage written t).2 := by
  refine relates_writeAll
    (R := fun t₁ t₂ => t₁.workingDirectory = w →
      t₁.ChangesOnly (fun l => ∃ file ∈ written, file.1.Through w l) t₂)
    (fun t₁ _ => .refl t₁ _) (fun h h' hw => ?_) (fun hfile hparent t₁ hw => ?_)
    (fun hfile t₁ hw => ?_) t hw
  · exact (h hw).trans (h' ((h hw).workingDirectory.trans hw))
  · refine (t₁.addsDirectories_createDirectories _).changesOnly.mono fun l hl => ?_
    rw [hw] at hl
    exact ⟨_, hfile, hl.of_parent? hparent⟩
  · refine (t₁.changesOnly_write _ _).mono fun l hl => ?_
    rw [hw] at hl
    exact ⟨_, hfile, hl.1⟩

/-- If all files are written, the first one is, and then the others. -/
theorem of_writeAll_cons {rest : List (Path × String)}
    (h : writeAll FileTree.storage ((path, text) :: rest) t = (.ok (), t')) :
    ∃ t₂, t₂.workingDirectory = t.workingDirectory ∧ t₂.HasFile path text.toUTF8 ∧
      writeAll FileTree.storage rest t₂ = (.ok (), t') := by
  rw [writeAll_cons] at h
  obtain ⟨t₁, hcreate, h⟩ := Storage.andThen_eq_ok_iff.1 h
  obtain ⟨t₂, hwrite, hrest⟩ := Storage.andThen_eq_ok_iff.1 h
  have hcreated : t₁.workingDirectory = t.workingDirectory := by
    unfold createParent at hcreate
    cases hparent : path.parent? with
    | none =>
      rw [hparent] at hcreate
      cases hcreate
      rfl
    | some above =>
      rw [hparent] at hcreate
      have hkeeps := t.keeps_createDirectories above
      rw [show t.createDirectories above = (.ok (), t₁) from hcreate] at hkeeps
      exact hkeeps.workingDirectory
  obtain ⟨hkeeps, hfile⟩ := FileTree.write_spec hwrite
  exact ⟨t₂, hkeeps.workingDirectory.trans hcreated, hfile, hrest⟩

/-- At the end, a file has the text that was written to it last. -/
theorem entry?_writeAll (h : writeAll FileTree.storage written t = (.ok (), t'))
    {last : Path × String} (hlast : written.reverse.find?
      (fun file => file.1.locate t.workingDirectory = l) = some last) :
    t'.entry? l = some (.file last.2.toUTF8) := by
  induction written generalizing t with
  | nil => cases hlast
  | cons file rest ih =>
    obtain ⟨path, text⟩ := file
    obtain ⟨t₂, hw, hfile, hrest⟩ := of_writeAll_cons h
    rw [List.reverse_cons, List.find?_append] at hlast
    rcases Option.or_eq_some_iff.1 hlast with hlater | ⟨hnone, hfirst⟩
    · refine ih hrest ?_
      rwa [hw]
    · -- no later file is there, so this one is kept
      have hothers : ∀ file ∈ rest, file.1.locate t.workingDirectory ≠ l := by
        intro file hmem
        simpa using List.find?_eq_none.1 hnone file (List.mem_reverse.2 hmem)
      have hkeeps := keeps_writeAll hw rest
      rw [hrest] at hkeeps
      have hhere : path.locate t.workingDirectory = l ∧ (path, text) = last := by
        simpa using hfirst
      obtain ⟨rfl, rfl⟩ := hhere
      have hentry := hfile.entry
      rw [hw] at hentry
      exact hkeeps.file hothers hentry

/-- At the end, everything that the paths lead through are directories. -/
theorem passable_writeAll (h : writeAll FileTree.storage written t = (.ok (), t'))
    {file : Path × String} (hmem : file ∈ written) :
    file.1.text ≠ "" ∧ t'.Passable (t'.origin file.1) file.1.segments := by
  induction written generalizing t with
  | nil => exact absurd hmem List.not_mem_nil
  | cons first rest ih =>
    obtain ⟨path, text⟩ := first
    obtain ⟨t₂, hw, hfile, hrest⟩ := of_writeAll_cons h
    rcases List.mem_cons.1 hmem with rfl | hmem
    · have hkeeps := keeps_writeAll (t := t₂) rfl rest
      rw [hrest] at hkeeps
      have horigin : t'.origin path = t₂.origin path := by
        rw [FileTree.origin, FileTree.origin, hkeeps.workingDirectory]
      rw [horigin]
      exact ⟨hfile.nonempty, hkeeps.passable hfile.passable⟩
    · exact ih hrest hmem

/-- At the end, each path leads to a file, with the text that was written there last. -/
theorem hasFile_writeAll (h : writeAll FileTree.storage written t = (.ok (), t'))
    (hmem : (path, text) ∈ written) :
    ∃ last, written.reverse.find? (fun file => file.1.locate t.workingDirectory =
        path.locate t.workingDirectory) = some last ∧ t'.HasFile path last.2.toUTF8 := by
  have hw : t'.workingDirectory = t.workingDirectory := by
    have hkeeps := keeps_writeAll (t := t) rfl written
    rw [h] at hkeeps
    exact hkeeps.workingDirectory
  have hsome : (written.reverse.find? fun file => file.1.locate t.workingDirectory =
      path.locate t.workingDirectory).isSome :=
    List.find?_isSome.2 ⟨(path, text), List.mem_reverse.2 hmem, by simp⟩
  obtain ⟨last, hlast⟩ := Option.isSome_iff_exists.1 hsome
  obtain ⟨hne, hpassable⟩ := passable_writeAll h hmem
  refine ⟨last, hlast, hne, hpassable, ?_⟩
  rw [hw]
  exact entry?_writeAll h hlast

/-! ## Units -/

/-- A unit has a written copy if there is a dump directory and the unit exists. -/
theorem dumpPath?_eq_some_iff {s : Session ν} {i : Nat} : s.dumpPath? i = some path ↔
    ∃ dump u, s.dumpSource = some dump ∧ s.units[i]? = some u ∧ s.dumpPathIn dump u = path := by
  unfold dumpPath?
  split
  · next hdump hunit => simp [hdump, hunit]
  · next hnone =>
    constructor
    · intro h
      cases h
    · rintro ⟨dump, u, hdump, hunit, -⟩
      exact absurd hunit (hnone dump u hdump)

/-- A session on units without functions that are written below `dump`. -/
def ofUnits (units : List SourceUnit) : Session Unit where
  fileName := ⟨"bin/Sample.dll"⟩
  frontend :=
    { units
      nodeAt := fun _ _ => none
      parent := fun _ => none
      functionOf := fun _ => none
      streams := fun _ => .ok {} }
  symbols := none
  dumpSource := some ⟨"dump"⟩

end Session

end Retrace
