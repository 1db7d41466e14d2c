import Retrace.Proofs.RuleSet.Merged

/-!
# Where the rules of a rule set document stand

A rule set document has a `RuleSet` element at its root, and the `Rule` elements are in a `Rules`
element of it. Reading a document keeps no track of this: it goes through the elements in the order
in which they start, waits for the first `RuleSet` element, wherever that is, and then takes every
`Rule` and every `IncludeAll` element, wherever they are (`Rooted`, `Valid`).

What is read is therefore told by the elements behind that first `RuleSet` element
(`parse_sources`): the action for a rule is that of the last `Rule` element for it, and the general
action that of the last `IncludeAll` element (`Source`). Where these elements stand in the document
(`Element.Within`) decides whether the rule set is the one that the document was meant to have.
-/

namespace Retrace

namespace Markup

/-! ## Elements of a document -/

/-- An element of a document. -/
structure Element where
  tag : Tag
  /-- The names of the elements that it is in, outermost first. -/
  path : List String
  /-- How many elements at the top of the document have ended in front of it. -/
  ended : Nat
deriving DecidableEq

namespace Element

/-- The name of the element, without its namespace. -/
def name (e : Element) : String := String.ofList e.tag.localName

/-- The element is in the first one of the document, along these names from the top. -/
def Within (e : Element) (names : List String) : Prop := e.ended = 0 ∧ names <+: e.path

instance (e : Element) (names : List String) : Decidable (e.Within names) :=
  inferInstanceAs (Decidable (e.ended = 0 ∧ names <+: e.path))

end Element

/-- The elements that are ended once one has ended in the elements of `path`. -/
def endedIn (path : List String) (ended : Nat) : Nat := if path.isEmpty then ended + 1 else ended

/-- The elements of events, in the order in which they start, with those of `path` open. -/
def elementsFrom (path : List String) (ended : Nat) : List Event → List Element
  | [] => []
  | .start tag :: rest =>
    ⟨tag, path, ended⟩ :: elementsFrom (path ++ [String.ofList tag.localName]) ended rest
  | .empty tag :: rest => ⟨tag, path, ended⟩ :: elementsFrom path (endedIn path ended) rest
  | .stop _ :: rest => elementsFrom path.dropLast (endedIn path.dropLast ended) rest

/-- The elements of a document. -/
def Reading.elements (reading : Reading) : List Element := elementsFrom [] 0 reading.events

/-- Those of them that are in the first one, along these names from the top. -/
def Reading.elementsWithin (reading : Reading) (names : List String) : List Element :=
  reading.elements.filter fun e => e.Within names

end Markup

namespace RuleSet

open Markup

variable {d d' : Draft} {e : Element} {es doc before behind : List Element} {root : Element}
  {r : RuleSet} {text id : String} {reading : Reading} {chosen : RuleAction}

/-! ## What an element says -/

/-- The rule that an element names, and the action it has for it. -/
def ruleOf (tag : Tag) : Except RuleSetError (String × RuleAction) := do
  let id ← requiredAttribute tag "Id"
  let name ← requiredAttribute tag "Action"
  let chosen ← action name
  return (id, chosen)

/-- The general action that an element has. -/
def generalOf (tag : Tag) : Except RuleSetError RuleAction := do
  let name ← requiredAttribute tag "Action"
  action name

/-- The action for a rule, if this is a `Rule` element for it. -/
def rule? (id : String) (e : Element) : Option RuleAction :=
  if e.name = "Rule" then
    match ruleOf e.tag with
    | .ok (id', chosen) => if id' = id then some chosen else none
    | .error _ => none
  else none

/-- The general action, if this is an `IncludeAll` element. -/
def general? (e : Element) : Option RuleAction :=
  if e.name = "IncludeAll" then (generalOf e.tag).toOption else none

/-- There is no mistake in the element, if it is one that counts. -/
structure Valid (e : Element) : Prop where
  rule : e.name = "Rule" → ∃ entry, ruleOf e.tag = .ok entry
  general : e.name = "IncludeAll" → ∃ chosen, generalOf e.tag = .ok chosen

/-! ## One element behind another -/

/-- In front of the first `RuleSet` element nothing counts. -/
theorem element_of_no_root (hroot : d.sawRoot = false) (hname : e.name ≠ "RuleSet") :
    element d e.tag = .ok d := by
  unfold element
  split
  · next h => exact absurd h hname
  · rw [hroot]
    rfl
  · rw [hroot]
    rfl
  · rfl

/-- A `RuleSet` element is taken as the root, wherever it is. -/
theorem element_of_root (hname : e.name = "RuleSet") :
    element d e.tag = .ok { d with sawRoot := true } := by
  have hlocal : String.ofList e.tag.localName = "RuleSet" := hname
  simp only [element, hlocal]

/-- Behind the root a `Rule` element sets the action for its rule. -/
theorem element_of_rule (hroot : d.sawRoot = true) (hname : e.name = "Rule") :
    element d e.tag = (fun (id, chosen) =>
      { d with ruleSet := { d.ruleSet with specific := d.ruleSet.specific.insert id chosen } }) <$>
        ruleOf e.tag := by
  have hlocal : String.ofList e.tag.localName = "Rule" := hname
  simp only [element, hlocal, if_pos hroot, ruleOf, map_bind, map_pure]

/-- Behind the root an `IncludeAll` element sets the general action. -/
theorem element_of_includeAll (hroot : d.sawRoot = true) (hname : e.name = "IncludeAll") :
    element d e.tag = (fun general => { d with ruleSet := { d.ruleSet with general } }) <$>
      generalOf e.tag := by
  have hlocal : String.ofList e.tag.localName = "IncludeAll" := hname
  simp only [element, hlocal, if_pos hroot, generalOf, map_bind]
  rfl

/-- All other elements behind the root change nothing. -/
theorem element_of_other (hrule : e.name ≠ "Rule") (hgeneral : e.name ≠ "IncludeAll")
    (hroot : d.sawRoot = true) : element d e.tag = .ok d := by
  unfold element
  split
  · rw [← hroot]
  · next h => exact absurd h hgeneral
  · next h => exact absurd h hrule
  · rfl

/-- What an element behind the first `RuleSet` element does to the rule set read so far. -/
structure Takes (d : Draft) (e : Element) (d' : Draft) : Prop where
  sawRoot : d'.sawRoot = true
  general : d'.ruleSet.general = (general? e).getD d.ruleSet.general
  specific : ∀ id, d'.ruleSet.specific.get? id = (rule? id e).or (d.ruleSet.specific.get? id)

/-- An element without a mistake is taken, and does to the rule set what it says. -/
theorem takes_of_valid (hroot : d.sawRoot = true) (h : Valid e) :
    ∃ d', element d e.tag = .ok d' ∧ Takes d e d' := by
  by_cases hrule : e.name = "Rule"
  · obtain ⟨⟨id', chosen⟩, hentry⟩ := h.rule hrule
    rw [element_of_rule hroot hrule, hentry]
    refine ⟨_, rfl, hroot, ?_, fun id => ?_⟩
    · rw [general?, hrule, if_neg (by decide)]
      rfl
    · rw [rule?, if_pos hrule, hentry]
      dsimp only
      rw [Table.get?_insert]
      split
      · rfl
      · rfl
  · have hno : ∀ id, rule? id e = none := fun id => if_neg hrule
    by_cases hgeneral : e.name = "IncludeAll"
    · obtain ⟨chosen, hchosen⟩ := h.general hgeneral
      rw [element_of_includeAll hroot hgeneral, hchosen]
      refine ⟨_, rfl, hroot, ?_, fun id => ?_⟩
      · rw [general?, if_pos hgeneral, hchosen]
        rfl
      · rw [hno, Option.none_or]
    · refine ⟨d, element_of_other hrule hgeneral hroot, hroot, ?_, fun id => ?_⟩
      · rw [general?, if_neg hgeneral, Option.getD_none]
      · rw [hno, Option.none_or]

/-- An element that is taken has no mistake. -/
theorem valid_of_element (hroot : d.sawRoot = true) (h : element d e.tag = .ok d') : Valid e where
  rule hname := by
    rw [element_of_rule hroot hname] at h
    cases hentry : ruleOf e.tag with
    | error _ =>
      rw [hentry] at h
      cases h
    | ok entry => exact ⟨entry, rfl⟩
  general hname := by
    rw [element_of_includeAll hroot hname] at h
    cases hchosen : generalOf e.tag with
    | error _ =>
      rw [hchosen] at h
      cases h
    | ok chosen => exact ⟨chosen, rfl⟩

/-! ## The elements in order -/

/-- Takes the elements one after the other. -/
def takeAll (d : Draft) (es : List Element) : Except RuleSetError Draft :=
  es.foldlM (fun d e => element d e.tag) d

/-- Elements are taken from the first one on. -/
theorem takeAll_cons (d : Draft) (e : Element) (es : List Element) :
    takeAll d (e :: es) = element d e.tag >>= fun d => takeAll d es := by
  rw [takeAll, List.foldlM_cons]
  rfl

/-- Where elements end makes no difference. -/
theorem foldlM_event (events : List Event) (path : List String) (ended : Nat) (d : Draft) :
    events.foldlM event d = takeAll d (elementsFrom path ended events) := by
  induction events generalizing path ended d with
  | nil => rfl
  | cons event rest ih =>
    rw [List.foldlM_cons]
    cases event with
    | start tag =>
      rw [elementsFrom, takeAll_cons]
      exact bind_congr fun d => ih _ _ d
    | empty tag =>
      rw [elementsFrom, takeAll_cons]
      exact bind_congr fun d => ih _ _ d
    | stop name => exact ih _ _ d

/-- Behind the first `RuleSet` element, an element without a mistake is taken, and the last ones
decide. -/
theorem exists_takeAll (hroot : d.sawRoot = true) (h : ∀ e ∈ es, Valid e) :
    ∃ d', takeAll d es = .ok d' ∧ d'.sawRoot = true ∧
      d'.ruleSet.general = ((es.filterMap general?).getLast?).getD d.ruleSet.general ∧
      ∀ id, d'.ruleSet.specific.get? id =
        ((es.filterMap (rule? id)).getLast?).or (d.ruleSet.specific.get? id) := by
  induction es generalizing d with
  | nil => exact ⟨d, rfl, hroot, rfl, fun id => rfl⟩
  | cons e rest ih =>
    obtain ⟨he, hrest⟩ := List.forall_mem_cons.1 h
    obtain ⟨next, hnext, htakes⟩ := takes_of_valid hroot he
    obtain ⟨d', hd', hlast, hgeneral, hspecific⟩ := ih htakes.sawRoot hrest
    refine ⟨d', ?_, hlast, ?_, fun id => ?_⟩
    · rw [takeAll_cons, hnext]
      exact hd'
    · -- later elements win, and this one counts if none of them says anything
      rw [hgeneral, htakes.general]
      cases hfound : general? e with
      | none => rw [List.filterMap_cons_none hfound, Option.getD_none]
      | some chosen =>
        rw [List.filterMap_cons_some hfound, List.getLast?_cons, Option.getD_some, Option.getD_some]
    · rw [hspecific, htakes.specific]
      cases hfound : rule? id e with
      | none => rw [List.filterMap_cons_none hfound, Option.none_or]
      | some chosen =>
        rw [List.filterMap_cons_some hfound, List.getLast?_cons]
        cases (rest.filterMap (rule? id)).getLast? with
        | none => rfl
        | some last => rfl

/-- If all elements are taken, none has a mistake. -/
theorem valid_of_takeAll (hroot : d.sawRoot = true) (h : takeAll d es = .ok d') :
    ∀ e ∈ es, Valid e := by
  induction es generalizing d with
  | nil => exact fun e he => absurd he List.not_mem_nil
  | cons e rest ih =>
    rw [takeAll_cons] at h
    obtain ⟨next, hnext, hrest⟩ := exists_of_bind_eq_ok h
    have he : Valid e := valid_of_element hroot hnext
    obtain ⟨_, hsame, htakes⟩ := takes_of_valid hroot he
    cases hnext.symm.trans hsame
    exact List.forall_mem_cons.2 ⟨he, ih htakes.sawRoot hrest⟩

/-- Elements in two parts are taken one part after the other. -/
theorem takeAll_append (d : Draft) (es es' : List Element) :
    takeAll d (es ++ es') = takeAll d es >>= fun d => takeAll d es' := List.foldlM_append

/-- Elements without a `RuleSet` element among them leave everything as it is. -/
theorem takeAll_of_no_root (hroot : d.sawRoot = false) (h : ∀ e ∈ es, e.name ≠ "RuleSet") :
    takeAll d es = .ok d := by
  induction es with
  | nil => rfl
  | cons e rest ih =>
    obtain ⟨he, hrest⟩ := List.forall_mem_cons.1 h
    rw [takeAll_cons, element_of_no_root hroot he]
    exact ih hrest

/-! ## The first `RuleSet` element -/

/-- The elements in front of the first `RuleSet` element, this one, and those behind it. -/
structure Rooted (doc before : List Element) (root : Element) (behind : List Element) : Prop where
  split : doc = before ++ root :: behind
  root : root.name = "RuleSet"
  first : ∀ e ∈ before, e.name ≠ "RuleSet"

/-- If there is a `RuleSet` element, there is a first one. -/
theorem exists_rooted (h : ∃ e ∈ doc, e.name = "RuleSet") :
    ∃ before root behind, Rooted doc before root behind := by
  induction doc with
  | nil =>
    obtain ⟨e, he, -⟩ := h
    cases he
  | cons first rest ih =>
    by_cases hname : first.name = "RuleSet"
    · exact ⟨[], first, rest, rfl, hname, fun e he => absurd he List.not_mem_nil⟩
    · obtain ⟨e, he, hroot⟩ := h
      have hrest : e ∈ rest := by
        refine (List.mem_cons.1 he).resolve_left ?_
        rintro rfl
        exact hname hroot
      obtain ⟨before, root, behind, rfl, hname', hfirst⟩ := ih ⟨e, hrest, hroot⟩
      exact ⟨first :: before, root, behind, rfl, hname', List.forall_mem_cons.2 ⟨hname, hfirst⟩⟩

/-- What is known behind the first `RuleSet` element. -/
def Draft.atRoot : Draft := { sawRoot := true }

theorem Draft.ruleSet_atRoot : atRoot.ruleSet = {} := rfl

/-- What stands in front of the root, and the root itself, leave nothing but the knowledge that it
was there. -/
theorem Rooted.takeAll_eq (h : Rooted doc before root behind) :
    takeAll {} doc = takeAll .atRoot behind := by
  rw [h.split, takeAll_append, takeAll_of_no_root rfl h.first]
  show takeAll {} (root :: behind) = _
  rw [takeAll_cons, element_of_root h.root]
  rfl

/-- It is at the root if it is the first element of all. -/
theorem Rooted.head?_iff (h : Rooted doc before root behind) :
    (∃ e ∈ doc.head?, e.name = "RuleSet") ↔ before = [] := by
  rw [h.split]
  cases before with
  | nil => exact iff_of_true ⟨root, rfl, h.root⟩ rfl
  | cons first rest =>
    refine iff_of_false ?_ (List.cons_ne_nil first rest)
    rintro ⟨e, ⟨⟩, hname⟩
    exact h.first first List.mem_cons_self hname

/-! ## The last element that says something -/

/-- Of the elements that say something, `e` is the last one. -/
inductive Source (f : Element → Option RuleAction) (es : List Element) (e : Element)
    (chosen : RuleAction) : Prop
  | intro {front behind : List Element} (split : es = front ++ e :: behind)
    (found : f e = some chosen) (last : ∀ e' ∈ behind, f e' = none)

variable {f : Element → Option RuleAction}

/-- The last thing that is said has an element that says it, with none behind it that says anything.
-/
theorem getLast?_filterMap_eq_some_iff :
    (es.filterMap f).getLast? = some chosen ↔ ∃ e, Source f es e chosen := by
  constructor
  · intro h
    induction es using List.reverseRecOn with
    | nil => cases h
    | append_singleton es e ih =>
      rw [List.filterMap_append, List.getLast?_append] at h
      cases hfound : f e with
      | some other =>
        rw [List.filterMap_cons_some hfound] at h
        cases h
        exact ⟨e, .intro rfl hfound fun e' he' => absurd he' List.not_mem_nil⟩
      | none =>
        rw [List.filterMap_cons_none hfound] at h
        obtain ⟨e', hsource⟩ := ih h
        obtain ⟨rfl, hfound', hlast⟩ := hsource
        refine ⟨e', .intro (List.append_assoc _ _ _) hfound' ?_⟩
        exact List.forall_mem_append.2 ⟨hlast, List.forall_mem_singleton.2 hfound⟩
  · rintro ⟨e, rfl, hfound, hlast⟩
    rw [List.filterMap_append, List.filterMap_cons_some hfound, List.filterMap_eq_nil_iff.2 hlast,
      List.getLast?_concat]

/-- Nothing is said if no element says anything. -/
theorem getLast?_filterMap_eq_none_iff :
    (es.filterMap f).getLast? = none ↔ ∀ e ∈ es, f e = none := by
  rw [List.getLast?_eq_none_iff, List.filterMap_eq_nil_iff]

/-- The last one of several elements is the last one of more in front of them. -/
theorem Source.append (h : Source f es e chosen) (front : List Element) :
    Source f (front ++ es) e chosen := by
  obtain ⟨rfl, hfound, hlast⟩ := h
  exact .intro (List.append_assoc _ _ _).symm hfound hlast

/-- It is the last one of those with some property if it has it. -/
theorem Source.filter_iff (h : Source f es e chosen) (p : Element → Bool) :
    Source f (es.filter p) e chosen ↔ p e = true := by
  obtain ⟨rfl, hfound, hlast⟩ := h
  constructor
  · rintro ⟨hsplit, -, -⟩
    have hmem : e ∈ List.filter p _ := hsplit ▸ List.mem_append_right _ List.mem_cons_self
    exact (List.mem_filter.1 hmem).2
  · intro hp
    rw [List.filter_append, List.filter_cons_of_pos hp]
    exact .intro rfl hfound fun e' he' => hlast e' (List.mem_filter.1 he').1

/-- The last element behind the root that says something is the last one of the document. -/
theorem Rooted.source (h : Rooted doc before root behind) (hsource : Source f behind e chosen) :
    Source f doc e chosen := by
  have happend := hsource.append (before ++ [root])
  rwa [List.append_assoc, List.singleton_append, ← h.split] at happend

/-! ## Documents -/

/-- What is read is what the elements make of nothing, if there is a `RuleSet` element among them. -/
theorem parseReading_eq_ok_iff : parseReading text reading = .ok r ↔
    Text.isBlank text = false ∧ reading.failure = none ∧
      ∃ d, takeAll {} reading.elements = .ok d ∧ d.sawRoot = true ∧ d.ruleSet = r := by
  have helements : reading.events.foldlM event {} = takeAll {} reading.elements :=
    foldlM_event _ _ _ _
  unfold parseReading ofReading
  rw [helements]
  cases hblank : Text.isBlank text with
  | true => simp
  | false =>
    cases hfailure : reading.failure with
    | some error =>
      cases htake : takeAll {} reading.elements with
      | error _ => simp [bind, Except.bind]
      | ok d => simp [bind, Except.bind]
    | none =>
      cases htake : takeAll {} reading.elements with
      | error _ => simp [bind, Except.bind]
      | ok d => cases hroot : d.sawRoot <;> simp [bind, Except.bind, hroot]

/-- A text is read if only valid elements stand behind its first `RuleSet` element. -/
theorem exists_parseReading_iff : (∃ r, parseReading text reading = .ok r) ↔
    Text.isBlank text = false ∧ reading.failure = none ∧
      ∃ before root behind, Rooted reading.elements before root behind ∧
        ∀ e ∈ behind, Valid e := by
  constructor
  · rintro ⟨r, h⟩
    obtain ⟨hblank, hfailure, d, htake, hroot, -⟩ := parseReading_eq_ok_iff.1 h
    refine ⟨hblank, hfailure, ?_⟩
    have hexists : ∃ e ∈ reading.elements, e.name = "RuleSet" := by
      by_contra hnone
      have hother : ∀ e ∈ reading.elements, e.name ≠ "RuleSet" :=
        fun e he hname => hnone ⟨e, he, hname⟩
      cases htake.symm.trans (takeAll_of_no_root rfl hother)
      cases hroot
    obtain ⟨before, root, behind, hrooted⟩ := exists_rooted hexists
    exact ⟨before, root, behind, hrooted, valid_of_takeAll rfl (hrooted.takeAll_eq ▸ htake)⟩
  · rintro ⟨hblank, hfailure, before, root, behind, hrooted, hvalid⟩
    obtain ⟨d, htake, hroot, -, -⟩ := exists_takeAll (rfl : Draft.atRoot.sawRoot = true) hvalid
    have hall : takeAll {} reading.elements = .ok d := hrooted.takeAll_eq.trans htake
    exact ⟨d.ruleSet, parseReading_eq_ok_iff.2 ⟨hblank, hfailure, d, hall, hroot, rfl⟩⟩

/-- Whatever the events are that the markup of a text is read as: the text is read as a rule set iff it
is not blank, its markup has no mistake, it has a `RuleSet` element, and there is no mistake in any
`Rule` or `IncludeAll` element behind the first one. That element is at the root iff nothing is in
front of it. The action for a rule is that of the last `Rule` element for it behind the first
`RuleSet` element, and the general action that of the last `IncludeAll` element there, or to change
nothing if there is none. Such an element is the last of those in the `Rules` element of the root, or
in the root, iff it is there itself. -/
theorem parse_sources (text : String) (reading : Reading) :
    parse text = parseReading text (read text) ∧
    ((∃ r, parseReading text reading = .ok r) ↔
      Text.isBlank text = false ∧ reading.failure = none ∧
        ∃ before root behind, Rooted reading.elements before root behind ∧
          ∀ e ∈ behind, Valid e) ∧
    ∀ r, parseReading text reading = .ok r →
      ∃ before root behind, Rooted reading.elements before root behind ∧
        ((∃ e ∈ reading.elements.head?, e.name = "RuleSet") ↔ before = []) ∧
        (∀ id chosen, r.specific.get? id = some chosen ↔ ∃ e, Source (rule? id) behind e chosen) ∧
        (∀ chosen, r.general = chosen ↔ (∃ e, Source general? behind e chosen) ∨
          chosen = .unchanged ∧ ∀ e ∈ behind, general? e = none) ∧
        (∀ id e chosen, Source (rule? id) behind e chosen →
          (Source (rule? id) (reading.elementsWithin ["RuleSet", "Rules"]) e chosen ↔
            e.Within ["RuleSet", "Rules"])) ∧
        (∀ e chosen, Source general? behind e chosen →
          (Source general? (reading.elementsWithin ["RuleSet"]) e chosen ↔
            e.Within ["RuleSet"])) := by
  refine ⟨rfl, exists_parseReading_iff, fun r h => ?_⟩
  obtain ⟨-, -, before, root, behind, hrooted, hvalid⟩ := exists_parseReading_iff.1 ⟨r, h⟩
  obtain ⟨-, -, d, htake, -, rfl⟩ := parseReading_eq_ok_iff.1 h
  rw [hrooted.takeAll_eq] at htake
  obtain ⟨d', htake', -, hgeneral, hspecific⟩ :=
    exists_takeAll (rfl : Draft.atRoot.sawRoot = true) hvalid
  cases htake.symm.trans htake'
  refine ⟨before, root, behind, hrooted, hrooted.head?_iff, fun id chosen => ?_, fun chosen => ?_,
    fun id e chosen hsource => ((hrooted.source hsource).filter_iff _).trans decide_eq_true_iff,
    fun e chosen hsource => ((hrooted.source hsource).filter_iff _).trans decide_eq_true_iff⟩
  · rw [hspecific, Draft.ruleSet_atRoot, Table.get?_empty, Option.or_none,
      getLast?_filterMap_eq_some_iff]
  · rw [hgeneral, Draft.ruleSet_atRoot, ← getLast?_filterMap_eq_some_iff,
      ← getLast?_filterMap_eq_none_iff]
    cases (behind.filterMap general?).getLast? with
    | none => simp [eq_comm]
    | some last => simp

/-- A document with a rule behind its `Rules` element, which has another action for it. -/
def straying : String :=
  "<RuleSet><Rules><Rule Id=\"CA1\" Action=\"Error\"/></Rules>" ++
    "<Rule Id=\"CA1\" Action=\"None\"/></RuleSet>"

/-- The root of this document. -/
def rootElement : Element := ⟨⟨"RuleSet".toList⟩, [], 0⟩

/-- The element for its rules. -/
def rulesElement : Element := ⟨⟨"Rules".toList⟩, ["RuleSet"], 0⟩

/-- The rule in it. -/
def nestedRule : Element := ⟨⟨"Rule Id=\"CA1\" Action=\"Error\"".toList⟩, ["RuleSet", "Rules"], 0⟩

/-- The rule behind it. -/
def strayRule : Element := ⟨⟨"Rule Id=\"CA1\" Action=\"None\"".toList⟩, ["RuleSet"], 0⟩

/-- The last element of this document is not among its rules. -/
theorem elements_straying :
    (read straying).elements = [rootElement, rulesElement, nestedRule, strayRule] := by decide +kernel

/-- The rule that is not in the `Rules` element is the one that decides. -/
theorem parse_sources_of_straying :
    ∃ r, parse straying = .ok r ∧ r.specific.get? "CA1" = some .suppress ∧
      ∃ before root behind, Rooted (read straying).elements before root behind ∧
        Source (rule? "CA1") behind strayRule .suppress ∧ ¬ strayRule.Within ["RuleSet", "Rules"] ∧
        ¬ Source (rule? "CA1") ((read straying).elementsWithin ["RuleSet", "Rules"]) strayRule
          .suppress := by
  have hrooted :
      Rooted (read straying).elements [] rootElement [rulesElement, nestedRule, strayRule] :=
    ⟨elements_straying, by decide +kernel, fun e he => absurd he List.not_mem_nil⟩
  have hrules : Valid rulesElement := ⟨fun h => absurd h (by decide), fun h => absurd h (by decide)⟩
  have hnested : Valid nestedRule :=
    ⟨fun _ => ⟨("CA1", .error), by decide +kernel⟩, fun h => absurd h (by decide)⟩
  have hstray : Valid strayRule :=
    ⟨fun _ => ⟨("CA1", .suppress), by decide +kernel⟩, fun h => absurd h (by decide)⟩
  have hvalid : ∀ e ∈ [rulesElement, nestedRule, strayRule], Valid e :=
    List.forall_mem_cons.2 ⟨hrules, List.forall_mem_cons.2
      ⟨hnested, List.forall_mem_singleton.2 hstray⟩⟩
  obtain ⟨-, haccepted, hread⟩ := parse_sources straying (read straying)
  obtain ⟨r, hr⟩ := haccepted.2 ⟨by decide +kernel, by decide +kernel, [], _, _, hrooted, hvalid⟩
  obtain ⟨before, root, behind, hrooted', hfirst, hspecific, -, hfilter, -⟩ := hread r hr
  -- there is only one first `RuleSet` element
  have hbefore : before = [] := hfirst.1 (hrooted.head?_iff.2 rfl)
  have hsplit := hrooted'.split
  rw [hbefore, elements_straying] at hsplit
  obtain ⟨-, rfl⟩ := List.cons.inj hsplit
  have hsource :
      Source (rule? "CA1") ([rulesElement, nestedRule] ++ [strayRule]) strayRule .suppress :=
    .intro rfl (by decide +kernel) fun e he => absurd he List.not_mem_nil
  have hwithin : ¬ strayRule.Within ["RuleSet", "Rules"] := by decide
  exact ⟨r, hr, (hspecific _ _).2 ⟨_, hsource⟩, before, root, _, hrooted', hsource, hwithin,
    mt (hfilter _ _ _ hsource).1 hwithin⟩

/-- A document with a `RuleSet` element that is not its root. -/
def foreign : String := "<Other><RuleSet/></Other>"

/-- That every document which is read has a `RuleSet` element as its root, and the actions of the
rules in its `Rules` element, is false. -/
theorem not_forall_parse_nested :
    ¬ ∀ (text : String) (r : RuleSet), parse text = .ok r →
      (∃ e ∈ (read text).elements.head?, e.name = "RuleSet") ∧
      ∀ id chosen, r.specific.get? id = some chosen →
        ∃ e, Source (rule? id) ((read text).elementsWithin ["RuleSet", "Rules"]) e chosen := by
  intro h
  have helements : (read foreign).elements =
      [⟨⟨"Other".toList⟩, [], 0⟩, ⟨⟨"RuleSet".toList⟩, ["Other"], 0⟩] := by decide +kernel
  have hother : ∀ e ∈ (read foreign).elements.head?, e.name ≠ "RuleSet" := by
    rw [helements]
    rintro e ⟨⟩
    decide +kernel
  have hrooted : Rooted (read foreign).elements [⟨⟨"Other".toList⟩, [], 0⟩] _ [] :=
    ⟨helements, by decide +kernel, List.forall_mem_singleton.2 (by decide +kernel)⟩
  have haccepted : ∃ r, parseReading foreign (read foreign) = .ok r := exists_parseReading_iff.2
    ⟨by decide +kernel, by decide +kernel, _, _, _, hrooted, fun e he => absurd he List.not_mem_nil⟩
  obtain ⟨r, hr⟩ := haccepted
  obtain ⟨⟨e, he, hroot⟩, -⟩ := h foreign r hr
  exact hother e he hroot

end RuleSet

end Retrace
