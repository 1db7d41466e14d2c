import Retrace.Proofs.File.Location

/-!
# What stays in a file tree

`FileTree.Keeps` relates a tree to what it may become: directories stay where they are, and some
files stay as they are. Creating directories keeps all files (`keeps_createDirectories`). Writing a
file keeps all others, and the file is where its path leads (`write_spec`), also after anything that
keeps it (`HasFile.keeps`). What is there is read (`HasFile.readText`). On a real disk a write may
break off; `Writes` allows for that, and still keeps all other files.
-/

namespace Retrace.FileTree

variable {t t' t'' : FileTree} {kept kept' : FileLocation → Prop} {p : Path} {content : ByteArray}
  {e : FileError}

/-! ## Trees that keep files -/

/-- The tree may become the other one: the working directory and all directories stay, and the files
at these locations keep their content. -/
structure Keeps (t : FileTree) (kept : FileLocation → Prop) (t' : FileTree) : Prop where
  workingDirectory : t'.workingDirectory = t.workingDirectory
  directory : ∀ {l}, t.entry? l = some .directory → t'.entry? l = some .directory
  file : ∀ {l content}, kept l → t.entry? l = some (.file content) →
    t'.entry? l = some (.file content)

theorem Keeps.refl (t : FileTree) (kept : FileLocation → Prop) : t.Keeps kept t :=
  ⟨rfl, id, fun _ => id⟩

/-- What is kept in two steps is kept. -/
theorem Keeps.trans (h : t.Keeps kept t') (h' : t'.Keeps kept t'') : t.Keeps kept t'' where
  workingDirectory := h'.workingDirectory.trans h.workingDirectory
  directory hd := h'.directory (h.directory hd)
  file hl hf := h'.file hl (h.file hl hf)

/-- If many files are kept, some of them are. -/
theorem Keeps.mono (h : t.Keeps kept t') (himp : ∀ l, kept' l → kept l) : t.Keeps kept' t' :=
  ⟨h.workingDirectory, h.directory, fun hl => h.file (himp _ hl)⟩

/-- A way along directories stays open. -/
theorem Keeps.passable (h : t.Keeps kept t') {location : FileLocation} {segments : List String}
    (hp : t.Passable location segments) : t'.Passable location segments := by
  induction segments generalizing location with
  | nil => trivial
  | cons segment rest ih => exact ⟨h.directory hp.1, ih hp.2⟩

/-- A way in two parts is open if both of them are. -/
theorem passable_append {location : FileLocation} {front back : List String} :
    t.Passable location (front ++ back) ↔
      t.Passable location front ∧ t.Passable (Path.walk location front) back := by
  induction front generalizing location with
  | nil => simp [Passable, Path.walk]
  | cons segment rest ih =>
    rw [List.cons_append, Passable, Passable, ih, and_assoc]
    rfl

/-! ## Files that are there -/

/-- The path leads to a file with this content. -/
structure HasFile (t : FileTree) (p : Path) (content : ByteArray) : Prop where
  nonempty : p.text ≠ ""
  passable : t.Passable (t.origin p) p.segments
  entry : t.entry? (p.locate t.workingDirectory) = some (.file content)

/-- A file stays where its path leads to. -/
theorem HasFile.keeps (h : t.HasFile p content) (hkeeps : t.Keeps kept t')
    (hp : kept (p.locate t.workingDirectory)) : t'.HasFile p content where
  nonempty := h.nonempty
  passable := by
    have horigin : t'.origin p = t.origin p := by rw [origin, origin, hkeeps.workingDirectory]
    rw [horigin]
    exact hkeeps.passable h.passable
  entry := by
    rw [hkeeps.workingDirectory]
    exact hkeeps.file hp h.entry

/-- A path to a file finds it. -/
theorem HasFile.find (h : t.HasFile p content) : t.find p = .ok (.file content) := by
  have hfollow : t.follow (t.origin p) p.segments = .ok (p.locate t.workingDirectory) :=
    follow_eq_ok_iff.2 ⟨h.passable, rfl⟩
  rw [FileTree.find, if_neg (by simpa using h.nonempty), hfollow]
  dsimp only
  rw [h.entry]

/-- A file with a text is read. -/
theorem HasFile.readText {text : String} (h : t.HasFile p text.toUTF8) :
    t.readText p = .ok text := by
  have htext : String.fromUTF8? text.toUTF8 = some text := dif_pos text.isValidUTF8
  rw [FileTree.readText, h.find]
  dsimp only
  rw [htext]

/-! ## New entries -/

/-- A new entry is found at its location, and nothing changes anywhere else. -/
theorem entry?_set {location : FileLocation} (hne : location ≠ []) (entry : FileEntry)
    (l : FileLocation) :
    entry? (t.set location entry) l = if location = l then some entry else t.entry? l := by
  cases l with
  | nil => rw [if_neg hne]; rfl
  | cons name names => exact Table.get?_insert _ _ _ _

/-- Only the root is at no names, and it is a directory. -/
theorem ne_nil_of_not_directory {location : FileLocation}
    (h : t.entry? location ≠ some .directory) : location ≠ [] := by
  rintro rfl
  exact h rfl

/-- A new directory in a free place keeps all files. -/
theorem keeps_set_directory {location : FileLocation} (h : t.entry? location = none) :
    t.Keeps (fun _ => True) (t.set location .directory) := by
  have hentry : t.entry? location ≠ some .directory := by simp [h]
  have hne := ne_nil_of_not_directory hentry
  refine ⟨rfl, fun {l} hl => ?_, fun {l _} _ hl => ?_⟩
  · rw [entry?_set hne]
    split
    · rfl
    · exact hl
  · rw [entry?_set hne, if_neg]
    · exact hl
    · rintro rfl
      rw [h] at hl
      cases hl

/-- A new file, or new content of a file, keeps all others. -/
theorem keeps_set_file {location : FileLocation} (h : t.entry? location ≠ some .directory) :
    t.Keeps (· ≠ location) (t.set location (.file content)) := by
  have hne := ne_nil_of_not_directory h
  refine ⟨rfl, fun {l} hl => ?_, fun {l _} hne' hl => ?_⟩
  · rw [entry?_set hne, if_neg]
    · exact hl
    · rintro rfl
      exact h hl
  · rw [entry?_set hne, if_neg (Ne.symm hne')]
    exact hl

/-- Where a path creates an entry: the segments up to a last name lead to an existing directory, and
nothing but slashes stands behind that name. -/
theorem creation_spec {location : FileLocation} {name : String}
    (h : t.creation p = .ok (location, some name)) : p.text ≠ "" ∧ Path.IsName name ∧
      t.entry? location = some .directory ∧ ∃ front blank, p.segments = front ++ name :: blank ∧
        (∀ segment ∈ blank, segment = "") ∧ t.Passable (t.origin p) front ∧
        location = Path.walk (t.origin p) front := by
  unfold creation at h
  split at h
  · cases h
  · next hempty =>
    dsimp only at h
    split at h
    · cases h
    · next hfollow =>
      split at h
      · cases h
      · next hdirectory =>
        split at h
        · cases h
        · cases h
        · cases h
        · next hcurrent hparent hlast =>
          cases h
          -- the name is the last segment that is not empty; only slashes stand behind it
          obtain ⟨front, htrimmed⟩ := List.getLast?_eq_some_iff.1 hlast
          obtain ⟨hne, blank, hsegments, hblank⟩ := Path.eq_of_trimmed htrimmed
          have hmem : name ∈ p.segments := by
            rw [hsegments]
            exact List.mem_append_right _ List.mem_cons_self
          rw [htrimmed, List.dropLast_concat] at hfollow
          obtain ⟨hpassable, hlocation⟩ := follow_eq_ok_iff.1 hfollow
          exact ⟨by simpa using hempty,
            ⟨hne, hcurrent, hparent, Path.noSlash_of_mem_segments hmem⟩,
            directoryAt_eq_ok_iff.1 hdirectory, front, blank, hsegments, hblank, hpassable,
            hlocation⟩

/-- What a path creates is where it leads to. -/
theorem locate_of_creation {location : FileLocation} {name : String}
    (h : t.creation p = .ok (location, some name)) :
    p.locate t.workingDirectory = location ++ [name] := by
  obtain ⟨-, hname, -, front, blank, hsegments, hblank, -, rfl⟩ := creation_spec h
  have hlocate : p.locate t.workingDirectory = Path.walk (t.origin p) p.segments := rfl
  rw [hlocate, hsegments, Path.walk_append]
  exact (Path.walk_of_blank hblank _).trans (hname.step_eq _)

/-- A path that does not end at a slash creates an entry behind directories. -/
theorem passable_of_creation {location : FileLocation} {name : String}
    (h : t.creation p = .ok (location, some name)) (hend : p.text.toList.getLast? ≠ some '/') :
    t.Passable (t.origin p) p.segments := by
  obtain ⟨hne, hname, hdirectory, front, blank, hsegments, hblank, hpassable, rfl⟩ :=
    creation_spec h
  obtain ⟨last, hlast, hlastNe⟩ := Path.getLast?_segments hne hend
  obtain rfl : blank = [] := by
    rcases List.eq_nil_or_concat' blank with hnil | ⟨others, final, rfl⟩
    · exact hnil
    · -- the last segment would be empty
      rw [hsegments, List.append_cons, ← List.append_assoc, List.getLast?_concat] at hlast
      obtain rfl := Option.some.inj hlast
      exact absurd (hblank final (List.mem_append_right _ List.mem_cons_self)) hlastNe
  rw [hsegments, passable_append]
  exact ⟨hpassable, hdirectory, trivial⟩

/-! ## Directories -/

/-- A directory is created where its path leads to, if there is nothing yet. -/
theorem createDirectory_spec (h : t.createDirectory p = .ok t') :
    (∃ location name, t.creation p = .ok (location, some name)) ∧
      t.entry? (p.locate t.workingDirectory) = none ∧
      t' = t.set (p.locate t.workingDirectory) .directory := by
  unfold createDirectory at h
  split at h
  · cases h
  · cases h
  · next location name hcreation =>
    split at h
    · cases h
    · next hnone =>
      rw [locate_of_creation hcreation]
      exact ⟨⟨location, name, hcreation⟩, hnone, (Except.ok.inj h).symm⟩

/-- The creation of a directory keeps all files. -/
theorem keeps_createDirectory (h : t.createDirectory p = .ok t') : t.Keeps (fun _ => True) t' := by
  obtain ⟨-, hnone, rfl⟩ := createDirectory_spec h
  exact keeps_set_directory hnone

/-- Whatever the creation of one directory does to a tree, the creation of several does, whether it
succeeds or not. -/
theorem createFrom_of_steps {R : FileTree → FileTree → Prop} {paths : List Path}
    (refl : ∀ t, R t t) (trans : ∀ {t t' t''}, R t t' → R t' t'' → R t t'')
    (step : ∀ {t t' p}, p ∈ paths → t.createDirectory p = .ok t' → R t t') (t : FileTree) :
    R t (t.createFrom paths).2 := by
  induction paths with
  | nil => exact refl t
  | cons p above ih =>
    have hp : p ∈ p :: above := List.mem_cons_self
    have habove := ih fun hmem => step (List.mem_cons_of_mem _ hmem)
    unfold createFrom
    split
    · next hcreated => exact step hp hcreated
    · exact refl t
    · split
      · next heq => rwa [heq] at habove
      · next heq =>
        rw [heq] at habove
        split
        · next hcreated => exact trans habove (step hp hcreated)
        · exact habove
        · exact habove
    · exact refl t

/-- Creating directories keeps all files, whether it succeeds or not. -/
theorem keeps_createDirectories (t : FileTree) (p : Path) :
    t.Keeps (fun _ => True) (t.createDirectories p).2 :=
  createFrom_of_steps (fun t => .refl t _) .trans (fun _ => keeps_createDirectory) t

/-! ## Files -/

/-- What is written stands where its path leads to, and that was no directory. -/
theorem set_of_write (h : t.write p content = (.ok (), t')) :
    (∃ location name, t.creation p = .ok (location, some name)) ∧
      p.text.toList.getLast? ≠ some '/' ∧
      t.entry? (p.locate t.workingDirectory) ≠ some .directory ∧
      t' = t.set (p.locate t.workingDirectory) (.file content) := by
  unfold write at h
  split at h
  · cases h
  · cases h
  · next location name hcreation =>
    split at h
    · cases h
    · next hend =>
      split at h
      · cases h
      · next hentry =>
        cases h
        rw [locate_of_creation hcreation]
        exact ⟨⟨location, name, hcreation⟩, hend, hentry, rfl⟩

/-- A file is written where its path leads to, and is read there; all other files are kept. -/
theorem write_spec (h : t.write p content = (.ok (), t')) :
    t.Keeps (· ≠ p.locate t.workingDirectory) t' ∧ t'.HasFile p content := by
  obtain ⟨⟨location, name, hcreation⟩, hend, hentry, rfl⟩ := set_of_write h
  have hkeeps : t.Keeps (· ≠ p.locate t.workingDirectory)
      (t.set (p.locate t.workingDirectory) (.file content)) := keeps_set_file hentry
  exact ⟨hkeeps, (creation_spec hcreation).1,
    hkeeps.passable (passable_of_creation hcreation hend),
    (entry?_set (ne_nil_of_not_directory hentry) _ _).trans (if_pos rfl)⟩

/-- On the tree itself a write that fails changes nothing. -/
theorem write_of_error (h : t.write p content = (.error e, t')) : t' = t := by
  unfold write at h
  split at h
  · cases h
    rfl
  · cases h
    rfl
  · split at h
    · cases h
      rfl
    · split at h
      · cases h
        rfl
      · cases h

/-! ## Writes that break off -/

/-- What writing a file may do to a tree. The file is emptied before its content is written, so that
a failure may come too early to change anything, or leave the file with something else in it. -/
inductive Writes (t : FileTree) (p : Path) (content : ByteArray) :
    Except FileError Unit → FileTree → Prop
  | written {t' : FileTree} (h : t.write p content = (.ok (), t')) : Writes t p content (.ok ()) t'
  | brokenOff {e : FileError} {left : ByteArray} {t' : FileTree}
    (h : t.write p left = (.ok (), t')) : Writes t p content (.error e) t'
  | unchanged {e : FileError} : Writes t p content (.error e) t

/-- A write that never breaks off is one of the things that may happen. -/
theorem writes_write (t : FileTree) (p : Path) (content : ByteArray) :
    t.Writes p content (t.write p content).1 (t.write p content).2 := by
  rcases hwrite : t.write p content with ⟨e | ⟨⟩, t'⟩
  · obtain rfl := write_of_error hwrite
    exact .unchanged
  · exact .written hwrite

/-- Writing a file keeps all others, also if it breaks off. -/
theorem Writes.keeps {result : Except FileError Unit} (h : t.Writes p content result t') :
    t.Keeps (· ≠ p.locate t.workingDirectory) t' := by
  cases h with
  | written h => exact (write_spec h).1
  | brokenOff h => exact (write_spec h).1
  | unchanged => exact .refl t _

/-- After a write that succeeds the file is there, with all of its content. -/
theorem Writes.hasFile (h : t.Writes p content (.ok ()) t') : t'.HasFile p content := by
  cases h with
  | written h => exact (write_spec h).2

/-- Writing a file keeps all others, whether it succeeds or not. -/
theorem keeps_write (t : FileTree) (p : Path) (content : ByteArray) :
    t.Keeps (· ≠ p.locate t.workingDirectory) (t.write p content).2 :=
  (t.writes_write p content).keeps

end Retrace.FileTree
