import Mathlib.Data.List.Basic
import Retrace.Proofs.Report.References
import Retrace.Proofs.Session.Selection

/-!
# Decorated names

A result without a place carries the location of its diagnostic as a decorated name. The name of the
unit is written as it is, whatever characters it has, and yet the location can be told from the
name: brackets open and close in the name of the unit as they like, but the span behind it has none,
so that it starts at the last bracket that opens.

* `eq_of_append_cons` : texts that are cut at the last place of a character are cut at the same
  place;
* `LineSpan.eq_of_toList_render` : a span is cut at its dash, each end at its colon, and a number is
  determined by its digits;
* `Location.eq_of_render` : locations with equal names are equal.

`Report.process_decorated` takes this to the results of a report.
-/

namespace Retrace

/-! ## Texts that are cut at a character -/

section Cut

variable {α : Type} {c : α} {front back front' back' : List α}

/-- Texts that are cut at the last place of a character are cut at the same place. -/
theorem eq_of_append_cons (hback : c ∉ back) (hback' : c ∉ back')
    (h : front ++ c :: back = front' ++ c :: back') : front = front' ∧ back = back' := by
  rcases List.append_eq_append_iff.1 h with ⟨more, rfl, hmore⟩ | ⟨more, rfl, hmore⟩
  · cases more with
    | nil => exact ⟨(List.append_nil front).symm, (List.cons.inj hmore).2⟩
    | cons first rest =>
      obtain ⟨rfl, hrest⟩ := List.cons.inj hmore
      exact absurd (hrest ▸ List.mem_append_right rest List.mem_cons_self) hback
  · cases more with
    | nil => exact ⟨List.append_nil front', (List.cons.inj hmore).2.symm⟩
    | cons first rest =>
      obtain ⟨rfl, hrest⟩ := List.cons.inj hmore
      exact absurd (hrest ▸ List.mem_append_right rest List.mem_cons_self) hback'

end Cut

/-! ## Positions and spans -/

/-- Different numbers have different digits. -/
theorem toDigits_inj {m n : Nat} (h : Nat.toDigits 10 m = Nat.toDigits 10 n) : m = n := by
  calc
    m = Nat.ofDigitChars 10 (Nat.toDigits 10 m) 0 := Nat.ofDigitChars_ten_toDigits.symm
    _ = Nat.ofDigitChars 10 (Nat.toDigits 10 n) 0 := by rw [h]
    _ = n := Nat.ofDigitChars_ten_toDigits

/-- What is no digit is not in the digits of a number. -/
theorem not_mem_toDigits {c : Char} (hc : c.isDigit = false) (n : Nat) : c ∉ Nat.toDigits 10 n := by
  intro hmem
  have hdigit : c.isDigit := Nat.isDigit_of_mem_toDigits (by decide) (by decide) hmem
  rw [hc] at hdigit
  cases hdigit

namespace LinePosition

variable {p q : LinePosition}

/-- A position is written as its line, a colon and its character. -/
theorem toList_render (p : LinePosition) :
    p.render.toList = Nat.toDigits 10 p.line ++ ':' :: Nat.toDigits 10 p.character := by
  change (Nat.repr p.line ++ ":" ++ Nat.repr p.character).toList = _
  simp

/-- Different positions are written differently. -/
theorem eq_of_toList_render (h : p.render.toList = q.render.toList) : p = q := by
  rw [toList_render, toList_render] at h
  obtain ⟨hline, hcharacter⟩ :=
    eq_of_append_cons (not_mem_toDigits rfl _) (not_mem_toDigits rfl _) h
  cases p
  cases q
  cases toDigits_inj hline
  cases toDigits_inj hcharacter
  rfl

/-- A position is written in digits and a colon. -/
theorem not_mem_render {c : Char} (hdigit : c.isDigit = false) (hcolon : c ≠ ':')
    (p : LinePosition) : c ∉ p.render.toList := by
  rw [toList_render]
  intro hmem
  rcases List.mem_append.1 hmem with hmem | hmem
  · exact not_mem_toDigits hdigit _ hmem
  · rcases List.mem_cons.1 hmem with rfl | hmem
    · exact hcolon rfl
    · exact not_mem_toDigits hdigit _ hmem

end LinePosition

namespace LineSpan

variable {s t : LineSpan}

/-- A span is written as its two ends with a hyphen between them. -/
theorem toList_render (s : LineSpan) :
    s.render.toList = s.start.render.toList ++ '-' :: s.stop.render.toList := by
  change (s.start.render ++ "-" ++ s.stop.render).toList = _
  simp

/-- Different spans are written differently. -/
theorem eq_of_toList_render (h : s.render.toList = t.render.toList) : s = t := by
  rw [toList_render, toList_render] at h
  obtain ⟨hstart, hstop⟩ := eq_of_append_cons (LinePosition.not_mem_render rfl (by decide) _)
    (LinePosition.not_mem_render rfl (by decide) _) h
  cases s
  cases t
  cases LinePosition.eq_of_toList_render hstart
  cases LinePosition.eq_of_toList_render hstop
  rfl

/-- No bracket opens in a span. -/
theorem not_mem_render (s : LineSpan) : '[' ∉ s.render.toList := by
  rw [toList_render]
  intro hmem
  rcases List.mem_append.1 hmem with hmem | hmem
  · exact LinePosition.not_mem_render rfl (by decide) _ hmem
  · rcases List.mem_cons.1 hmem with hdash | hmem
    · exact absurd hdash (by decide)
    · exact LinePosition.not_mem_render rfl (by decide) _ hmem

end LineSpan

/-! ## Locations -/

namespace Location

/-- A location in source is written as the unit and, in brackets, the span. -/
theorem toList_render_source (unit : String) (span : LineSpan) :
    (source unit span).render.toList =
      "SourceFile(".toList ++ (unit.toList ++ '[' :: (span.render.toList ++ "])".toList)) := by
  change ("SourceFile(" ++ unit ++ "[" ++ span.render ++ "])").toList = _
  simp

/-- No location in source is written like that of no source. -/
theorem render_source_ne_none (unit : String) (span : LineSpan) :
    (source unit span).render ≠ none.render := by
  intro h
  have hlist := congrArg String.toList h
  rw [toList_render_source] at hlist
  have hfirst := congrArg List.head? hlist
  cases hfirst

/-- Locations with equal names are equal. -/
theorem eq_of_render {l l' : Location} (h : l.render = l'.render) : l = l' := by
  cases l with
  | none =>
    cases l' with
    | none => rfl
    | source unit span => exact absurd h.symm (render_source_ne_none unit span)
  | source unit span =>
    cases l' with
    | none => exact absurd h (render_source_ne_none unit span)
    | source unit' span' =>
      have hlist := congrArg String.toList h
      rw [toList_render_source, toList_render_source] at hlist
      -- the span starts at the last bracket that opens, whatever the unit is called
      have hfree : ∀ s : LineSpan, '[' ∉ s.render.toList ++ "])".toList := by
        intro s hmem
        rcases List.mem_append.1 hmem with hmem | hmem
        · exact s.not_mem_render hmem
        · exact absurd hmem (by decide)
      obtain ⟨hunit, hspan⟩ :=
        eq_of_append_cons (hfree span) (hfree span') (List.append_cancel_left hlist)
      rw [String.toList_inj.1 hunit, LineSpan.eq_of_toList_render (List.append_cancel_right hspan)]

end Location

/-! ## Results -/

/-- The decorated names of the places of a result. -/
def Sarif.Result.decoratedNames (r : Sarif.Result) : List String :=
  r.locations.flatMap fun p => p.logical.map Sarif.LogicalLocation.decoratedName

namespace Report

variable {ν : Type} {s : Session ν} {rules : List Sarif.Rule} {d d' : Diagnostic}
  {r r' : Sarif.Result}

/-- A result has the written location as its decorated name if there is no place for it, and none
otherwise. -/
theorem decoratedNames_result (d : Diagnostic) (ruleId : String) (index : Nat) (fileName : Path)
    (answer : Option ResolvedLocation) :
    (result d ruleId index (place fileName d.location answer)).decoratedNames =
      if answer.isNone then [d.location.render] else [] := by
  cases answer with
  | none => rfl
  | some found => rfl

/-- A result has no other decorated name than the location of its diagnostic. -/
theorem Reports.eq_render (h : Reports s rules d r) {name : String}
    (hname : name ∈ r.decoratedNames) : name = d.location.render := by
  obtain ⟨-, -, -⟩ := h
  rw [decoratedNames_result] at hname
  split at hname
  · exact List.mem_singleton.1 hname
  · cases hname

/-- It has this name if the diagnostic has no place. -/
theorem Reports.decoratedNames_eq (hs : s.Reachable) (h : Reports s rules d r) :
    r.decoratedNames = if (s.resolve d).1.isNone then [d.location.render] else [] := by
  cases h with
  | @intro rule index t hdescriptor hlater hindexed =>
    have hplace : (t.resolve d).1 = (s.resolve d).1 := by
      rw [(t.resolve_spec d).2 (hlater.faithful hs.faithful), hlater.direct, hs.resolve_eq]
    rw [decoratedNames_result, hplace]

/-- A location can be told from its decorated name, whatever characters are in the name of its unit.
So in a report, results of diagnostics at different locations have no decorated name in common; and
if the session was only asked for places, reports and the like before, then the results of
diagnostics without a place have one, the location of the diagnostic, and the other results have
none. -/
theorem process_decorated :
    (∀ l l' : Location, l.render = l'.render → l = l') ∧
    ∀ {ν : Type} (s : Session ν) (ds : List Diagnostic),
      ∃ (rules : List Sarif.Rule) (found : List Sarif.Result),
        (process s ds).1 = logOf rules found ∧
        (∀ d r d' r', (d, r) ∈ (ds.filter fun d => d.descriptor.isSome).zip found →
          (d', r') ∈ (ds.filter fun d => d.descriptor.isSome).zip found →
          d.location ≠ d'.location → ∀ name ∈ r.decoratedNames, name ∉ r'.decoratedNames) ∧
        (s.Reachable → List.Forall₂
          (fun d r => r.decoratedNames = if (s.resolve d).1.isNone then [d.location.render] else [])
          (ds.filter fun d => d.descriptor.isSome) found) := by
  refine ⟨fun l l' => Location.eq_of_render, fun s ds => ?_⟩
  obtain ⟨-, -, hresults⟩ := results_spec RuleRegistry.lists_empty s ds
  refine ⟨_, _, rfl, ?_, fun hs => hresults.imp fun d r hr => hr.decoratedNames_eq hs⟩
  intro d r d' r' hr hr' hne name hname hname'
  have hd : name = d.location.render := ((List.forall₂_iff_zip.1 hresults).2 hr).eq_render hname
  have hd' : name = d'.location.render := ((List.forall₂_iff_zip.1 hresults).2 hr').eq_render hname'
  exact hne (Location.eq_of_render (hd.symm.trans hd'))

/-- A diagnostic in a unit of that name, with a rule. -/
def inUnit (name : String) (span : LineSpan) : Diagnostic :=
  { Session.finding span with
    location := .source name span
    descriptor := some ⟨"X1", "Title", "", none, "", [], .warning, true⟩ }

/-- A unit whose name ends like a span, next to one with the rest of the name and that span. -/
theorem process_decorated_of_brackets :
    let s := Session.ofFunction [] [] []
    let d := inUnit "A[1:2-3:4]" ⟨⟨5, 6⟩, ⟨7, 8⟩⟩
    let d' := inUnit "A" ⟨⟨1, 2⟩, ⟨3, 4⟩⟩
    s.Reachable ∧ d.location ≠ d'.location ∧ d.location.render ≠ d'.location.render ∧
      ∃ rules r r', (process s [d, d']).1 = logOf rules [r, r'] ∧
        r.decoratedNames = [d.location.render] ∧ r'.decoratedNames = [d'.location.render] ∧
        ∀ name ∈ r.decoratedNames, name ∉ r'.decoratedNames := by
  intro s d d'
  have hreachable : s.Reachable := .opened rfl
  have hne : d.location ≠ d'.location := by decide
  obtain ⟨rules, found, hlog, hapart, hnames⟩ := process_decorated.2 s [d, d']
  have hboth : [d, d'].filter (fun d => d.descriptor.isSome) = [d, d'] := rfl
  rw [hboth] at hapart hnames
  cases hnames hreachable with
  | @cons _ r _ _ hfirst hrest =>
    cases hrest with
    | @cons _ r' _ _ hsecond hnone =>
      cases hnone
      refine ⟨hreachable, hne, fun h => hne (process_decorated.1 _ _ h), rules, r, r', hlog, hfirst,
        hsecond, hapart d r d' r' List.mem_cons_self ?_ hne⟩
      exact List.mem_cons_of_mem _ List.mem_cons_self

end Report

end Retrace
