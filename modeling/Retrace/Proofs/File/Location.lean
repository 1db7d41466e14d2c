import Retrace.File.Tree
import Mathlib.Data.List.Basic

/-!
# Where paths lead

Following a path through a tree either fails or ends where its segments lead by themselves
(`FileTree.follow_eq_ok_iff`), so the location is known without the tree (`Path.locate`). Two paths
joined lead to where the second one leads from where the first one leads (`locate_join`); so a name
below a path leads to the entry of that name there (`locate_join_name`), and the names that paths end
in are such names (`isName_of_fileName?`).
-/

namespace Retrace

namespace Path

/-! ## Segments -/

/-- There is always a first segment. -/
theorem segmentsOf_ne_nil (cs : List Char) : segmentsOf cs ≠ [] := by
  intro h
  rw [segmentsOf.eq_def] at h
  split at h
  · cases h
  · cases h
  · split at h
    · cases h
    · cases h

/-- A character other than a slash belongs to the first segment. -/
theorem segmentsOf_cons {c : Char} (hc : c ≠ '/') (rest : List Char) :
    ∃ segment segments, segmentsOf rest = segment :: segments ∧
      segmentsOf (c :: rest) = (c :: segment) :: segments := by
  cases h : segmentsOf rest with
  | nil => exact absurd h (segmentsOf_ne_nil rest)
  | cons segment segments =>
    refine ⟨segment, segments, rfl, ?_⟩
    rw [segmentsOf.eq_def]
    split
    · next heq => cases heq
    · next heq =>
      cases heq
      exact absurd rfl hc
    · next heq =>
      cases heq
      rw [h]

/-- Segments are split at every slash, so that a text may be cut at any of them. -/
theorem segmentsOf_append_slash (front back : List Char) :
    segmentsOf (front ++ '/' :: back) = segmentsOf front ++ segmentsOf back := by
  induction front with
  | nil => rfl
  | cons c front ih =>
    by_cases hc : c = '/'
    · subst hc
      exact congrArg ([] :: ·) ih
    · obtain ⟨segment, segments, hrest, hcons⟩ := segmentsOf_cons hc front
      obtain ⟨segment', segments', hrest', hcons'⟩ := segmentsOf_cons hc (front ++ '/' :: back)
      rw [ih, hrest] at hrest'
      cases hrest'
      rw [List.cons_append, hcons', hcons]
      rfl

/-- A text without a slash is one segment. -/
theorem segmentsOf_of_not_mem {cs : List Char} (h : '/' ∉ cs) : segmentsOf cs = [cs] := by
  induction cs with
  | nil => rfl
  | cons c cs ih =>
    obtain ⟨hc, hcs⟩ := not_or.1 (mt List.mem_cons.2 h)
    obtain ⟨segment, segments, hrest, hcons⟩ := segmentsOf_cons (Ne.symm hc) cs
    rw [ih hcs] at hrest
    cases hrest
    exact hcons

/-- No segment has a slash in it. -/
theorem not_mem_of_mem_segmentsOf {cs segment : List Char} (h : segment ∈ segmentsOf cs) :
    '/' ∉ segment := by
  induction cs generalizing segment with
  | nil =>
    obtain rfl := List.mem_singleton.1 h
    simp
  | cons c cs ih =>
    by_cases hc : c = '/'
    · subst hc
      rcases List.mem_cons.1 h with rfl | h
      · simp
      · exact ih h
    · obtain ⟨first, segments, hrest, hcons⟩ := segmentsOf_cons hc cs
      rw [hcons] at h
      rw [hrest] at ih
      rcases List.mem_cons.1 h with rfl | h
      · exact mt List.mem_cons.1 (not_or.2 ⟨Ne.symm hc, ih List.mem_cons_self⟩)
      · exact ih (List.mem_cons_of_mem _ h)

/-- Nor has a segment of a path. -/
theorem noSlash_of_mem_segments {p : Path} {segment : String} (h : segment ∈ p.segments) :
    '/' ∉ segment.toList := by
  obtain ⟨cs, hcs, rfl⟩ := List.mem_map.1 h
  rw [String.toList_ofList]
  exact not_mem_of_mem_segmentsOf hcs

/-- Behind the last slash stands the last segment. -/
theorem exists_segmentsOf_concat {c : Char} (hc : c ≠ '/') (cs : List Char) :
    ∃ front last, segmentsOf (cs ++ [c]) = front ++ [last ++ [c]] := by
  induction cs with
  | nil =>
    refine ⟨[], [], segmentsOf_of_not_mem ?_⟩
    simpa using Ne.symm hc
  | cons c' cs ih =>
    obtain ⟨front, last, heq⟩ := ih
    by_cases hc' : c' = '/'
    · subst hc'
      exact ⟨[] :: front, last, congrArg ([] :: ·) heq⟩
    · obtain ⟨segment, segments, hrest, hcons⟩ := segmentsOf_cons hc' (cs ++ [c])
      rw [heq] at hrest
      rw [List.cons_append, hcons]
      cases front with
      | nil =>
        cases hrest
        exact ⟨[], c' :: last, rfl⟩
      | cons _ front =>
        obtain ⟨-, hsegments⟩ := List.cons.inj hrest
        exact ⟨(c' :: segment) :: front, last, congrArg ((c' :: segment) :: ·) hsegments.symm⟩

/-- What the last segment of a path is, if the path does not end at a slash. -/
theorem getLast?_segments {p : Path} (hne : p.text ≠ "") (hend : p.text.toList.getLast? ≠ some '/') :
    ∃ last, p.segments.getLast? = some last ∧ last ≠ "" := by
  have hnil : p.text.toList ≠ [] := fun h => hne (String.toList_eq_nil_iff.1 h)
  obtain ⟨cs, c, hcs⟩ := (List.eq_nil_or_concat' p.text.toList).resolve_left hnil
  rw [hcs, List.getLast?_concat] at hend
  obtain ⟨front, last, hsegments⟩ := exists_segmentsOf_concat (fun h => hend (h ▸ rfl)) cs
  refine ⟨String.ofList (last ++ [c]), ?_, by simp⟩
  rw [segments, hcs, hsegments, List.map_append, List.map_singleton, List.getLast?_concat]

/-- The segments of a path up to the last one that is not empty. -/
theorem eq_of_trimmed {segments front : List String} {last : String}
    (h : (segments.reverse.dropWhile (·.isEmpty)).reverse = front ++ [last]) :
    last ≠ "" ∧ ∃ blank, segments = front ++ last :: blank ∧ ∀ segment ∈ blank, segment = "" := by
  have hrest : segments.reverse.dropWhile (·.isEmpty) = last :: front.reverse := by
    rw [← List.reverse_reverse (segments.reverse.dropWhile _), h, List.reverse_append]
    rfl
  refine ⟨?_, (segments.reverse.takeWhile (·.isEmpty)).reverse, ?_, fun segment hsegment => ?_⟩
  · have hlast := List.head?_dropWhile_not (fun segment => segment.isEmpty) segments.reverse
    rw [hrest] at hlast
    simpa using hlast
  · rw [List.append_cons, ← h, ← List.reverse_append, List.takeWhile_append_dropWhile,
      List.reverse_reverse]
  · have hempty := List.all_eq_true.1 List.all_takeWhile segment (List.mem_reverse.1 hsegment)
    simpa using hempty

/-! ## Locations -/

/-- Where one segment leads to. -/
def step (location : FileLocation) : String → FileLocation
  | "" => location
  | "." => location
  | ".." => location.dropLast
  | name => location ++ [name]

/-- A segment that is neither empty nor made of dots leads one entry further down. -/
theorem step_of_ne {segment : String} (hempty : segment ≠ "") (hcurrent : segment ≠ ".")
    (hparent : segment ≠ "..") (location : FileLocation) :
    step location segment = location ++ [segment] := by
  rw [step]
  · exact hempty
  · exact hcurrent
  · exact hparent

/-- Where segments lead to, one after the other. -/
def walk (location : FileLocation) (segments : List String) : FileLocation :=
  segments.foldl step location

/-- Where the path leads to in a working directory. -/
def locate (workingDirectory : FileLocation) (p : Path) : FileLocation :=
  walk (if p.isAbsolute then [] else workingDirectory) p.segments

/-- A segment that leads to an entry of the directory that it is followed in. -/
structure IsName (segment : String) : Prop where
  ne_empty : segment ≠ ""
  ne_current : segment ≠ "."
  ne_parent : segment ≠ ".."
  noSlash : '/' ∉ segment.toList

/-- A name leads to the entry with this name. -/
theorem IsName.step_eq {name : String} (h : IsName name) (location : FileLocation) :
    step location name = location ++ [name] :=
  step_of_ne h.ne_empty h.ne_current h.ne_parent location

/-- The name in a segment is one that leads to an entry. -/
theorem isName_of_componentOf? {segment name : String} (h : componentOf? segment = some (.name name))
    (hslash : '/' ∉ segment.toList) : IsName name := by
  unfold componentOf? at h
  split at h
  · cases h
  · cases h
  · cases h
  · next hempty hcurrent hparent =>
    cases h
    exact ⟨hempty, hcurrent, hparent, hslash⟩

/-- The names of a path lead to entries. -/
theorem isName_of_mem_components {p : Path} {name : String} (h : .name name ∈ p.components) :
    IsName name := by
  -- whatever is made of the first segment, a name is that of a segment
  have hsegment : ∃ segment ∈ p.segments, componentOf? segment = some (.name name) := by
    unfold components at h
    split at h
    · rcases List.mem_cons.1 h with hroot | h
      · cases hroot
      · exact List.mem_filterMap.1 h
    · split at h
      · next rest heq =>
        rcases List.mem_cons.1 h with hcurrent | h
        · cases hcurrent
        · obtain ⟨segment, hsegment, hname⟩ := List.mem_filterMap.1 h
          exact ⟨segment, heq ▸ List.mem_cons_of_mem _ hsegment, hname⟩
      · exact List.mem_filterMap.1 h
  obtain ⟨segment, hsegment, hname⟩ := hsegment
  exact isName_of_componentOf? hname (noSlash_of_mem_segments hsegment)

/-- So is the file name of a path. -/
theorem isName_of_fileName? {p : Path} {name : String} (h : p.fileName? = some name) :
    IsName name := by
  unfold fileName? at h
  split at h
  · next heq =>
    cases h
    exact isName_of_mem_components (List.mem_of_getLast? heq)
  · cases h

/-- A name stays one if a text is appended that is longer than the segments that are no names. -/
theorem IsName.append {name text : String} (h : IsName name) (hslash : '/' ∉ text.toList)
    (hlength : 2 < text.length) : IsName (name ++ text) := by
  have hlong : 2 < (name ++ text).length := by
    rw [String.length_append]
    omega
  refine ⟨?_, ?_, ?_, ?_⟩
  · rintro heq
    rw [heq] at hlong
    exact absurd hlong (by decide)
  · rintro heq
    rw [heq] at hlong
    exact absurd hlong (by decide)
  · rintro heq
    rw [heq] at hlong
    exact absurd hlong (by decide)
  · rw [String.toList_append, List.mem_append]
    exact not_or.2 ⟨h.noSlash, hslash⟩

/-- A name is a path of one segment. -/
theorem IsName.segments_eq {name : String} (h : IsName name) : segments ⟨name⟩ = [name] := by
  rw [segments, segmentsOf_of_not_mem h.noSlash, List.map_singleton, String.ofList_toList]

/-- A name is a relative path. -/
theorem IsName.not_isAbsolute {name : String} (h : IsName name) :
    (Path.mk name).isAbsolute = false := by
  refine decide_eq_false fun hhead => h.noSlash ?_
  exact List.mem_of_head? hhead

/-- Segments in two parts lead on from where the first part leads to. -/
theorem walk_append (location : FileLocation) (front back : List String) :
    walk location (front ++ back) = walk (walk location front) back :=
  List.foldl_append

/-- What follows a text that is not empty does not make it absolute or relative. -/
theorem isAbsolute_append {text : String} (h : text ≠ "") (more : String) :
    (Path.mk (text ++ more)).isAbsolute = (Path.mk text).isAbsolute := by
  have hnil : text.toList ≠ [] := fun hnil => h (String.toList_eq_nil_iff.1 hnil)
  simp only [isAbsolute, String.toList_append, List.head?_append_of_ne_nil _ hnil]

/-- A relative path behind a path that is not empty: whether the result is absolute, and its
segments, up to an empty one where the two meet. -/
theorem join_eq_of_ne_empty {p q : Path} (hp : p.text ≠ "") (hq : q.isAbsolute = false) :
    (p.join q).isAbsolute = p.isAbsolute ∧ ∃ front blank, front ≠ [] ∧
      p.segments = front ++ blank ∧ (∀ segment ∈ blank, segment = "") ∧
      (p.join q).segments = front ++ q.segments := by
  obtain ⟨text⟩ := p
  rw [join, if_neg (by simp [hq])]
  dsimp only at hp ⊢
  by_cases hend : text.toList.getLast? = some '/'
  · obtain ⟨cs, hcs⟩ := List.getLast?_eq_some_iff.1 hend
    rw [if_pos (by simp [hend])]
    refine ⟨isAbsolute_append hp _, (segmentsOf cs).map String.ofList, [""], ?_, ?_, ?_, ?_⟩
    · exact mt List.map_eq_nil_iff.1 (segmentsOf_ne_nil cs)
    · rw [segments, hcs, segmentsOf_append_slash, List.map_append]
      rfl
    · exact fun segment hsegment => List.mem_singleton.1 hsegment
    · rw [segments, String.toList_append, hcs, List.append_assoc, List.singleton_append,
        segmentsOf_append_slash, List.map_append]
      rfl
  · rw [if_neg (by simp [hp, hend]), String.append_assoc]
    refine ⟨isAbsolute_append hp _, segments ⟨text⟩, [], ?_, (List.append_nil _).symm, ?_, ?_⟩
    · exact mt List.map_eq_nil_iff.1 (segmentsOf_ne_nil _)
    · exact fun segment hsegment => absurd hsegment List.not_mem_nil
    · rw [segments, String.toList_append, String.toList_append, show "/".toList = ['/'] from rfl,
        List.singleton_append, segmentsOf_append_slash, List.map_append]
      rfl

/-- Empty segments lead nowhere. -/
theorem walk_of_blank {blank : List String} (h : ∀ segment ∈ blank, segment = "")
    (location : FileLocation) : walk location blank = location := by
  induction blank with
  | nil => rfl
  | cons segment rest ih =>
    obtain ⟨rfl, hrest⟩ := List.forall_mem_cons.1 h
    exact ih hrest

/-- Two paths joined lead to where the second one leads from where the first one leads. -/
theorem locate_join (workingDirectory : FileLocation) (p q : Path) :
    (p.join q).locate workingDirectory = q.locate (p.locate workingDirectory) := by
  by_cases hq : q.isAbsolute
  · rw [join, if_pos hq, locate, locate, if_pos hq, if_pos hq]
  by_cases hp : p.text = ""
  · obtain ⟨text⟩ := p
    subst hp
    have hjoin : join ⟨""⟩ q = q := by
      rw [join, if_neg hq, if_pos (by simp), String.empty_append]
    rw [hjoin]
    rfl
  · rw [Bool.not_eq_true] at hq
    obtain ⟨habsolute, front, blank, -, hsegments, hblank, hjoined⟩ := join_eq_of_ne_empty hp hq
    have hlocate : q.locate (p.locate workingDirectory) =
        walk (p.locate workingDirectory) q.segments := by
      rw [locate, hq]
      rfl
    rw [hlocate, locate, locate, habsolute, hjoined, hsegments, walk_append, walk_append,
      walk_of_blank hblank]

/-- A name that is joined to a path is one of its segments. -/
theorem mem_segments_join_name {name : String} (h : IsName name) (p : Path) :
    name ∈ (p.join ⟨name⟩).segments := by
  by_cases hp : p.text = ""
  · have hjoin : p.join ⟨name⟩ = ⟨name⟩ := by
      rw [join, if_neg (by simp [h.not_isAbsolute]), if_pos (by simp [hp]), hp, String.empty_append]
    rw [hjoin, h.segments_eq]
    exact List.mem_singleton_self name
  · obtain ⟨-, front, blank, -, -, -, hjoined⟩ := join_eq_of_ne_empty hp h.not_isAbsolute
    rw [hjoined, h.segments_eq]
    exact List.mem_append_right _ (List.mem_singleton_self name)

/-- A name below a path leads to the entry of that name where the path leads. -/
theorem locate_join_name {name : String} (h : IsName name) (workingDirectory : FileLocation)
    (p : Path) : (p.join ⟨name⟩).locate workingDirectory = p.locate workingDirectory ++ [name] := by
  rw [locate_join, locate, h.not_isAbsolute, h.segments_eq]
  exact h.step_eq _

end Path

namespace FileTree

/-! ## Following paths -/

/-- All that segments lead through from a location are directories. -/
def Passable (t : FileTree) (location : FileLocation) : List String → Prop
  | [] => True
  | segment :: rest =>
    t.entry? location = some .directory ∧ t.Passable (Path.step location segment) rest

/-- A location can be followed further if there is a directory. -/
theorem directoryAt_eq_ok_iff {t : FileTree} {location : FileLocation} :
    t.directoryAt location = .ok () ↔ t.entry? location = some .directory := by
  unfold directoryAt
  split
  · next h => simp [h]
  · next h => simp [h]
  · next h => simp [h]

/-- Segments are followed one after the other, as long as there are directories. -/
theorem follow_cons (t : FileTree) (location : FileLocation) (segment : String)
    (rest : List String) : t.follow location (segment :: rest) =
      match t.directoryAt location with
      | .error e => .error e
      | .ok () => t.follow (Path.step location segment) rest := by
  rw [follow.eq_def]
  dsimp only
  cases t.directoryAt location with
  | error e => rfl
  | ok _ =>
    dsimp only
    split
    · rfl
    · rfl
    · rfl
    · next hempty hcurrent hparent => rw [Path.step_of_ne hempty hcurrent hparent]

/-- A path that can be followed ends where its segments lead. -/
theorem follow_eq_ok_iff {t : FileTree} {location reached : FileLocation} {segments : List String} :
    t.follow location segments = .ok reached ↔
      t.Passable location segments ∧ reached = Path.walk location segments := by
  induction segments generalizing location with
  | nil => simp [follow, Passable, Path.walk, eq_comm]
  | cons segment rest ih =>
    rw [follow_cons, Passable]
    cases h : t.directoryAt location with
    | error e =>
      have hentry : t.entry? location ≠ some .directory := fun hd => by
        rw [directoryAt_eq_ok_iff.2 hd] at h
        cases h
      simp [hentry]
    | ok _ =>
      dsimp only
      rw [ih]
      simp [directoryAt_eq_ok_iff.1 h, Path.walk]

end FileTree

end Retrace
