import Retrace.Proofs.File.Location

/-!
# Components of paths

A path leads where its components lead, one after the other (`locate_eq_trace`). The components of a
path make a path again that has them (`Proper.components_ofComponents`), so the paths above a path
have the first ones of its components (`components_of_mem_ancestors`), and the components of a
relative path stand behind those of the path that it is joined to (`components_join`).
-/

namespace Retrace.Path

variable {p q : Path} {c : Component} {cs front : List Component} {w : FileLocation}

/-! ## Where components lead -/

/-- Where one component leads to. -/
def Component.lead (location : FileLocation) : Component → FileLocation
  | .root => []
  | .current => location
  | .parent => location.dropLast
  | .name text => location ++ [text]

/-- Where components lead to, one after the other. -/
def trace (location : FileLocation) (components : List Component) : FileLocation :=
  components.foldl Component.lead location

/-- Components in two parts lead on from where the first part leads to. -/
theorem trace_append (location : FileLocation) (front back : List Component) :
    trace location (front ++ back) = trace (trace location front) back :=
  List.foldl_append

/-- A segment leads to where its component leads to; one without a component leads nowhere. -/
theorem step_eq_lead (location : FileLocation) (segment : String) :
    step location segment =
      ((componentOf? segment).map (Component.lead location)).getD location := by
  unfold componentOf?
  split
  · rfl
  · rfl
  · rfl
  · next hempty hcurrent hparent =>
    rw [step_of_ne hempty hcurrent hparent]
    rfl

/-- Segments lead to where their components lead to. -/
theorem walk_eq_trace (location : FileLocation) (segments : List String) :
    walk location segments = trace location (segments.filterMap componentOf?) := by
  induction segments generalizing location with
  | nil => rfl
  | cons segment rest ih =>
    have hwalk : walk location (segment :: rest) = walk (step location segment) rest := rfl
    rw [hwalk, ih, step_eq_lead]
    cases hc : componentOf? segment with
    | none => rw [List.filterMap_cons_none hc]; rfl
    | some c => rw [List.filterMap_cons_some hc]; rfl

/-- What the components of a path begin with, in front of those of its segments. -/
def start (p : Path) : List Component :=
  if p.isAbsolute then [.root] else if p.segments.head? = some "." then [.current] else []

/-- A path has the components of its segments, behind what it begins with. -/
theorem components_eq (p : Path) :
    p.components = p.start ++ p.segments.filterMap componentOf? := by
  unfold components start
  split
  · rfl
  · split
    · next heq =>
      rw [heq]
      rfl
    · next hother =>
      rw [if_neg]
      · rfl
      · intro hhead
        obtain ⟨rest, heq⟩ := List.head?_eq_some_iff.1 hhead
        exact hother rest heq

/-- What a relative path begins with leads nowhere. -/
theorem trace_start_of_relative (h : p.isAbsolute = false) (location : FileLocation) :
    trace location p.start = location := by
  rw [start, if_neg (by simp [h])]
  split
  · rfl
  · rfl

/-- A path leads where its components lead. -/
theorem locate_eq_trace (w : FileLocation) (p : Path) : p.locate w = trace w p.components := by
  rw [locate, walk_eq_trace, components_eq, trace_append]
  unfold start
  split
  · rfl
  · split
    · rfl
    · rfl

/-! ## Paths made of components -/

/-- A component that is written as a segment of its own wherever it stands. -/
inductive Component.Inner : Component → Prop
  | parent : Inner .parent
  | name {text : String} (isName : IsName text) : Inner (.name text)

/-- Such a component is found again in the segment that it is written as. -/
theorem Component.Inner.componentOf?_render (h : c.Inner) : componentOf? c.render = some c := by
  cases h with
  | parent => rfl
  | @name text isName =>
    rw [Component.render, componentOf?]
    · exact isName.ne_empty
    · exact isName.ne_current
    · exact isName.ne_parent

/-- The segment that such a component is written as has no slash in it. -/
theorem Component.Inner.noSlash (h : c.Inner) : '/' ∉ c.render.toList := by
  cases h with
  | parent => decide
  | name isName => exact isName.noSlash

/-- It is not empty. -/
theorem Component.Inner.render_ne_empty (h : c.Inner) : c.render ≠ "" := by
  cases h with
  | parent => decide
  | name isName => exact isName.ne_empty

/-- It is not the dot that stands for nothing. -/
theorem Component.Inner.render_ne_current (h : c.Inner) : c.render ≠ "." := by
  cases h with
  | parent => decide
  | name isName => exact isName.ne_current

/-- A path that begins with such a component is its components with slashes between them. -/
theorem Component.Inner.ofComponents_eq (h : c.Inner) (rest : List Component) :
    ofComponents (c :: rest) = ⟨String.intercalate "/" ((c :: rest).map Component.render)⟩ := by
  cases h with
  | parent => rfl
  | name isName => rfl

/-- The components of segments are those that are written as segments. -/
theorem inner_of_mem_filterMap (h : c ∈ p.segments.filterMap componentOf?) : c.Inner := by
  obtain ⟨segment, hsegment, hc⟩ := List.mem_filterMap.1 h
  cases c with
  | parent => exact .parent
  | name text => exact .name (isName_of_componentOf? hc (noSlash_of_mem_segments hsegment))
  | root =>
    unfold componentOf? at hc
    split at hc <;> cases hc
  | current =>
    unfold componentOf? at hc
    split at hc <;> cases hc

/-- Components as paths have them: a `/` or `.` only stands in front. -/
inductive Proper : List Component → Prop
  | inner {cs : List Component} (inner : ∀ c ∈ cs, c.Inner) : Proper cs
  | root {cs : List Component} (inner : ∀ c ∈ cs, c.Inner) : Proper (.root :: cs)
  | current {cs : List Component} (inner : ∀ c ∈ cs, c.Inner) : Proper (.current :: cs)

/-- The components of a path are as paths have them. -/
theorem proper_components (p : Path) : Proper p.components := by
  rw [components_eq, start]
  split
  · exact .root fun _ => inner_of_mem_filterMap
  · split
    · exact .current fun _ => inner_of_mem_filterMap
    · exact .inner fun _ => inner_of_mem_filterMap

/-- Behind the first component all are names or double dots. -/
theorem Proper.inner_of_mem_tail {rest : List Component} (h : Proper (c :: rest))
    {c' : Component} (hc' : c' ∈ rest) : c'.Inner := by
  cases h with
  | inner inner => exact inner c' (List.mem_cons_of_mem _ hc')
  | root inner => exact inner c' hc'
  | current inner => exact inner c' hc'

/-- Fewer components are still as paths have them. -/
theorem Proper.of_front (h : Proper cs) (hfront : front <+: cs) : Proper front := by
  cases front with
  | nil => exact .inner fun _ hc => absurd hc List.not_mem_nil
  | cons c rest =>
    cases h with
    | inner inner => exact .inner fun c' hc' => inner c' (hfront.mem hc')
    | root inner =>
      obtain ⟨rfl, hrest⟩ := List.cons_prefix_cons.1 hfront
      exact .root fun c' hc' => inner c' (hrest.mem hc')
    | current inner =>
      obtain ⟨rfl, hrest⟩ := List.cons_prefix_cons.1 hfront
      exact .current fun c' hc' => inner c' (hrest.mem hc')

/-- Texts without slashes are the segments of the path that they make. -/
theorem segments_intercalate {texts : List String} (hne : texts ≠ [])
    (h : ∀ text ∈ texts, '/' ∉ text.toList) : segments ⟨String.intercalate "/" texts⟩ = texts := by
  induction texts with
  | nil => exact absurd rfl hne
  | cons text rest ih =>
    obtain ⟨htext, hrest⟩ := List.forall_mem_cons.1 h
    cases rest with
    | nil =>
      rw [String.intercalate_singleton, segments, segmentsOf_of_not_mem htext, List.map_singleton,
        String.ofList_toList]
    | cons next others =>
      have hsegments := ih (List.cons_ne_nil _ _) hrest
      rw [segments] at hsegments
      rw [segments, String.intercalate_cons_cons, String.append_assoc, String.toList_append,
        String.toList_append, show "/".toList = ['/'] from rfl, List.singleton_append,
        segmentsOf_append_slash, segmentsOf_of_not_mem htext, List.map_append, hsegments,
        List.map_singleton, String.ofList_toList]
      rfl

/-- Components with slashes between them are split where they were joined. -/
theorem segments_render (hne : cs ≠ []) (h : ∀ c ∈ cs, '/' ∉ c.render.toList) :
    segments ⟨String.intercalate "/" (cs.map Component.render)⟩ = cs.map Component.render := by
  refine segments_intercalate (mt List.map_eq_nil_iff.1 hne) fun text htext => ?_
  obtain ⟨c, hc, rfl⟩ := List.mem_map.1 htext
  exact h c hc

/-- Components are found again in the segments that they are written as. -/
theorem filterMap_render (h : ∀ c ∈ cs, c.Inner) :
    (cs.map Component.render).filterMap componentOf? = cs := by
  rw [List.filterMap_map]
  refine (List.filterMap_congr fun c hc => ?_).trans List.filterMap_some
  exact (h c hc).componentOf?_render

/-- A path whose first segment is not empty is relative. -/
theorem not_isAbsolute_of_head? {segment : String} (h : p.segments.head? = some segment)
    (hne : segment ≠ "") : p.isAbsolute = false := by
  refine decide_eq_false fun hslash => hne ?_
  obtain ⟨rest, heq⟩ := List.head?_eq_some_iff.1 hslash
  rw [segments, heq] at h
  exact (Option.some.inj h).symm

/-- Components as paths have them make a path that has them. -/
theorem Proper.components_ofComponents (h : Proper cs) : (ofComponents cs).components = cs := by
  cases h with
  | @root rest inner =>
    -- behind the slash of the root the text splits into an empty segment and the rest
    have hsegments : (ofComponents (.root :: rest)).segments =
        "" :: segments ⟨String.intercalate "/" (rest.map Component.render)⟩ := by
      rw [ofComponents, segments, String.toList_append]
      rfl
    have habsolute : (ofComponents (.root :: rest)).isAbsolute = true := by
      rw [ofComponents, isAbsolute, String.toList_append]
      exact decide_eq_true rfl
    rw [components_eq, start, if_pos habsolute, hsegments]
    cases rest with
    | nil => rfl
    | cons c others =>
      rw [segments_render (List.cons_ne_nil _ _) fun c' hc' => (inner c' hc').noSlash]
      exact congrArg (.root :: ·) (filterMap_render inner)
  | @current rest inner =>
    have hsegments : (ofComponents (.current :: rest)).segments =
        "." :: rest.map Component.render := by
      refine segments_render (List.cons_ne_nil _ _) (List.forall_mem_cons.2 ⟨?_, ?_⟩)
      · decide
      · exact fun c hc => (inner c hc).noSlash
    have hhead : (ofComponents (.current :: rest)).segments.head? = some "." := by
      rw [hsegments]
      rfl
    rw [components_eq, start, not_isAbsolute_of_head? hhead (by decide), if_pos hhead, hsegments]
    exact congrArg (.current :: ·) (filterMap_render inner)
  | inner inner =>
    cases cs with
    | nil => rfl
    | cons c rest =>
      have hc := inner c List.mem_cons_self
      have hsegments : (ofComponents (c :: rest)).segments = (c :: rest).map Component.render := by
        rw [hc.ofComponents_eq]
        exact segments_render (List.cons_ne_nil _ _) fun c' hc' => (inner c' hc').noSlash
      have hhead : (ofComponents (c :: rest)).segments.head? = some c.render := by
        rw [hsegments]
        rfl
      -- no other component is written as nothing or as a dot, so that the path begins with none
      rw [components_eq, start, not_isAbsolute_of_head? hhead hc.render_ne_empty, hhead,
        if_neg (by simp), if_neg (by simpa using hc.render_ne_current), hsegments]
      exact filterMap_render inner

/-- A path with a name in it has components. -/
theorem components_ne_nil {name : String} (hmem : name ∈ p.segments) (h : IsName name) :
    p.components ≠ [] := by
  have hcomponent : componentOf? name = some (.name name) :=
    (Component.Inner.name h).componentOf?_render
  rw [components_eq]
  exact List.append_ne_nil_of_right_ne_nil _
    (List.ne_nil_of_mem (List.mem_filterMap.2 ⟨name, hmem, hcomponent⟩))

/-! ## Joined paths and paths above -/

/-- Empty segments have no components. -/
theorem filterMap_of_blank {blank : List String} (h : ∀ segment ∈ blank, segment = "") :
    blank.filterMap componentOf? = [] := by
  refine List.filterMap_eq_nil_iff.2 fun segment hsegment => ?_
  rw [h segment hsegment]
  rfl

/-- The components of a relative path stand behind those of the path that it is joined to. -/
theorem components_join (hp : p.text ≠ "") (hq : q.isAbsolute = false) :
    (p.join q).components = p.components ++ q.segments.filterMap componentOf? := by
  obtain ⟨habsolute, front, blank, hne, hsegments, hblank, hjoined⟩ := join_eq_of_ne_empty hp hq
  have hstart : (p.join q).start = p.start := by
    rw [start, start, habsolute, hjoined, hsegments, List.head?_append_of_ne_nil _ hne,
      List.head?_append_of_ne_nil _ hne]
  rw [components_eq, components_eq, hstart, hjoined, hsegments, List.filterMap_append,
    List.filterMap_append, filterMap_of_blank hblank, List.append_nil, List.append_assoc]

/-- The components above a path are all of its own but the last. -/
theorem eq_of_parentComponents? {above : List Component} (h : p.parentComponents? = some above) :
    p.components ≠ [] ∧ above = p.components.dropLast := by
  unfold parentComponents? at h
  split at h
  · cases h
  · cases h
  · next hlast =>
    refine ⟨fun hnil => ?_, (Option.some.inj h).symm⟩
    rw [hnil] at hlast
    cases hlast

/-- Nothing stands above the empty path and the root only. -/
theorem eq_of_parentComponents?_eq_none (h : p.parentComponents? = none) :
    p.components = [] ∨ p.components = [.root] := by
  unfold parentComponents? at h
  split at h
  · next hlast => exact .inl (List.getLast?_eq_none_iff.1 hlast)
  · next hlast =>
    obtain ⟨front, hfront⟩ := List.getLast?_eq_some_iff.1 hlast
    cases front with
    | nil => exact .inr hfront
    | cons c rest =>
      have hroot := (hfront ▸ proper_components p).inner_of_mem_tail
        (List.mem_append_right rest List.mem_cons_self)
      cases hroot
  · cases h

/-- The beginnings of a list are its prefixes, without the empty one. -/
theorem mem_beginnings {α : Type} {l part : List α} :
    part ∈ beginnings l ↔ part ≠ [] ∧ part <+: l := by
  rw [beginnings, List.mem_reverse, List.mem_map]
  constructor
  · rintro ⟨n, hn, rfl⟩
    have hlt := List.mem_range.1 hn
    refine ⟨List.length_pos_iff.1 ?_, List.take_prefix _ _⟩
    rw [List.length_take]
    omega
  · rintro ⟨hne, hprefix⟩
    have hpos := List.length_pos_iff.2 hne
    have hle := hprefix.length_le
    refine ⟨part.length - 1, List.mem_range.2 (by omega), ?_⟩
    rw [Nat.sub_add_cancel hpos]
    exact (List.prefix_iff_eq_take.1 hprefix).symm

/-- The path of the first components of a path has these components. -/
theorem components_of_front (h : front <+: p.components) :
    (ofComponents front).components = front :=
  ((proper_components p).of_front h).components_ofComponents

/-- So are the components of the path above it. -/
theorem components_of_parent? (h : p.parent? = some q) : q.components = p.components.dropLast := by
  obtain ⟨above, habove, rfl⟩ := Option.map_eq_some_iff.1 h
  obtain ⟨-, rfl⟩ := eq_of_parentComponents? habove
  exact components_of_front (List.dropLast_prefix _)

/-- The paths that are created for a path have some first components of the path. -/
theorem components_of_mem_ancestors (h : q ∈ p.ancestors) :
    q.components ≠ [] ∧ q.components <+: p.components := by
  unfold ancestors at h
  split at h
  · exact absurd h List.not_mem_nil
  · next above habove =>
    obtain ⟨hne, rfl⟩ := eq_of_parentComponents? habove
    rcases List.mem_cons.1 h with rfl | h
    · exact ⟨hne, List.prefix_rfl⟩
    · obtain ⟨front, hfront, rfl⟩ := List.mem_map.1 h
      obtain ⟨hfrontNe, hprefix⟩ := mem_beginnings.1 (List.mem_filter.1 hfront).1
      have hcomponents := hprefix.trans (List.dropLast_prefix _)
      rw [components_of_front hcomponents]
      exact ⟨hfrontNe, hcomponents⟩

end Retrace.Path
