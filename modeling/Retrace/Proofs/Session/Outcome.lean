import Retrace.Proofs.Session.Selection

/-!
# What a place can be

Looking up the place of a diagnostic can end early in many ways, and two of the collaborators it asks
may fail. `resolve_outcome` says what can come out of it in any reachable session: nothing, exactly
the place in the written copy, or a place between two visible authored points of the function around
the diagnostic (`FromSymbols`). A failure never shows in any other way than in the written copy taking
the place of the authored source.

A diagnostic on the last line that a word counts is the exception (`not_forall_outcome`): there is no
next line to look for, so that either the addition is stopped, and there is no outcome, or it wraps,
and the function around the diagnostic is looked for at line zero.
-/

namespace Retrace

namespace Stream

variable {part points : Stream} {first last : SequencePoint} {found : ResolvedLocation}

/-- A run is a contiguous part of the points. -/
theorem run_infix (points : Stream) (i stop : Nat) : run points i stop <:+: points :=
  (List.take_prefix _ _).isInfix.trans (List.drop_suffix _ _).isInfix

/-- What is taken from a stream is a contiguous part of it. -/
theorem counterpart_infix_haystack (needle haystack : Stream) :
    counterpart needle haystack <:+: haystack := by
  unfold counterpart
  split
  · split
    · exact run_infix haystack _ _
    · exact List.nil_infix
  · exact List.nil_infix

/-- The ends of a contiguous part of a stream are points of the stream, in the same order. -/
theorem exists_index_of_infix (h : part <:+: points) (hfirst : part.head? = some first)
    (hlast : part.getLast? = some last) :
    ∃ i j : Nat, i ≤ j ∧ points[i]? = some first ∧ points[j]? = some last := by
  obtain ⟨before, behind, rfl⟩ := h
  have hpos : 0 < part.length := List.length_pos_iff.2 (by rintro rfl; cases hfirst)
  refine ⟨before.length, before.length + (part.length - 1), by omega, ?_, ?_⟩
  · rw [List.append_assoc, List.getElem?_append_right (Nat.le_refl _), Nat.sub_self,
      List.getElem?_append_left hpos, ← List.head?_eq_getElem?, hfirst]
  · rw [List.append_assoc, List.getElem?_append_right (by omega), Nat.add_sub_cancel_left,
      List.getElem?_append_left (by omega), ← List.getLast?_eq_getElem?, hlast]

/-- The place of a run begins with its first point, ends with its last one, and is in the document of
the first. -/
theorem place_eq_ok_iff : part.place = .ok found ↔
    ∃ first last, part.head? = some first ∧ part.getLast? = some last ∧ first.start ≤ last.stop ∧
      first.document = some found.path ∧ found.span = ⟨first.start, last.stop⟩ := by
  obtain ⟨path, span⟩ := found
  unfold place
  split
  · next first last hfirst hlast =>
    rw [hfirst, hlast]
    constructor
    · intro h
      split at h
      · cases h
      · next hle =>
        split at h
        · cases h
        · next path hdocument =>
          cases h
          exact ⟨first, last, rfl, rfl, LinePosition.not_lt.1 hle, hdocument, rfl⟩
    · rintro ⟨_, _, ⟨⟩, ⟨⟩, hle, hdocument, rfl⟩
      rw [if_neg (LinePosition.not_lt.2 hle), hdocument]
  · next hnone =>
    constructor
    · intro h
      cases h
    · rintro ⟨first, last, hfirst, hlast, -⟩
      exact absurd hlast (hnone first last hfirst)

end Stream

namespace Session

variable {ν : Type} {s : Session ν} {d : Diagnostic} {unit : Nat} {span : LineSpan}
  {name : String} {found : ResolvedLocation}

/-- A place that the symbols tell: it reaches from one visible authored point of the function around
the span to the same point or a later one of the stream, in the document of the first. -/
inductive FromSymbols (s : Session ν) (unit : Nat) (span : LineSpan) : ResolvedLocation → Prop
  | between {provider : SymbolProvider} {function : FunctionInfo} {token : Token} {points : Stream}
    {i j : Nat} {first last : SequencePoint} {path : String} (asked : s.symbols = some provider)
    (around : s.frontend.functionAt? unit span.fromOne = some function)
    (identity : function.token = some token) (answer : provider token = .ok (some points))
    (ordered : i ≤ j) (atFirst : points.visible[i]? = some first)
    (atLast : points.visible[j]? = some last) (document : first.document = some path)
    (le : first.start ≤ last.stop) : FromSymbols s unit span ⟨path, first.start, last.stop⟩

/-- A collaborator fails when it is asked for the streams of the function around a span. -/
def Fails (s : Session ν) (unit : Nat) (span : LineSpan) : Prop :=
  (∃ e, s.frontend.streams unit = .error e) ∨
    ∃ provider function token e, s.symbols = some provider ∧
      s.frontend.functionAt? unit span.fromOne = some function ∧ function.token = some token ∧
      provider token = .error e

/-- A function that authored points are found for has an answer of the symbols. -/
theorem exists_of_stream_ne_nil {provider : SymbolProvider} {token : Token}
    (h : provider.stream token ≠ []) :
    ∃ points, provider token = .ok (some points) ∧ provider.stream token = points.visible := by
  unfold SymbolProvider.stream at h ⊢
  split at h
  · next points hanswer => exact ⟨points, hanswer, rfl⟩
  · exact absurd rfl h
  · exact absurd rfl h

/-- What a span is carried over to is told by the symbols. -/
theorem fromSymbols_of_mapped (h : s.mapped unit span = some found) :
    s.FromSymbols unit span found := by
  obtain ⟨x, hx, hplace⟩ := mapped_eq_some_iff.1 h
  obtain ⟨provider, function, token, hs, hfunction, htoken, rfl, hauthored, -⟩ :=
    exists_of_selection? hx
  obtain ⟨points, hanswer, hstream⟩ := exists_of_stream_ne_nil hauthored
  obtain ⟨first, last, hfirst, hlast, hle, hdocument, hspan⟩ := Stream.place_eq_ok_iff.1 hplace
  obtain ⟨i, j, hij, hi, hj⟩ :=
    Stream.exists_index_of_infix (Stream.counterpart_infix_haystack _ _) hfirst hlast
  obtain ⟨path, _⟩ := found
  cases hspan
  refine .between hs hfunction htoken hanswer hij ?_ ?_ hdocument hle
  · rw [← hstream]
    exact hi
  · rw [← hstream]
    exact hj

/-- If a collaborator fails, the symbols tell nothing. -/
theorem Fails.mapped_eq_none (h : s.Fails unit span) : s.mapped unit span = none := by
  rw [mapped_eq]
  cases hx : s.selection? unit span with
  | none => rfl
  | some x =>
    obtain ⟨provider, function, token, hs, hfunction, htoken, rfl, hauthored, hrun⟩ :=
      exists_of_selection? hx
    rcases h with ⟨e, he⟩ | ⟨provider', function', token', e, hs', hfunction', htoken', he⟩
    · refine absurd ?_ hrun
      rw [Frontend.stream, he]
      rfl
    · obtain rfl : provider' = provider := Option.some.inj (hs'.symm.trans hs)
      obtain rfl : function' = function := Option.some.inj (hfunction'.symm.trans hfunction)
      obtain rfl : token' = token := Option.some.inj (htoken'.symm.trans htoken)
      refine absurd ?_ hauthored
      rw [SymbolProvider.stream, he]

/-- Without symbols a span is carried over to nothing. -/
theorem mapped_eq_none_of_symbols (h : s.symbols = none) (unit : Nat) (span : LineSpan) :
    s.mapped unit span = none := by
  rw [mapped_eq, selection?, h]
  rfl

/-- A unit of a session with a dump directory has a written copy. -/
theorem exists_dumpPath? (hunit : s.unitIndex? name = some unit) {dump : Path}
    (hdump : s.dumpSource = some dump) : ∃ path, s.dumpPath? unit = some path := by
  obtain ⟨hlt, -⟩ := List.findIdx?_eq_some_iff_getElem.1 hunit
  rw [dumpPath?, hdump, List.getElem?_eq_getElem hlt]
  exact ⟨_, rfl⟩

/-- A place in the written copy is the reported span in the file of the unit. -/
theorem exists_of_inDump (h : s.inDump unit span = some found) :
    ∃ path, s.dumpPath? unit = some path ∧ found = ⟨path.text, span⟩ := by
  obtain ⟨path, hpath, rfl⟩ := Option.map_eq_some_iff.1 h
  exact ⟨path, hpath, rfl⟩

/-! ## Checked additions -/

/-- A check stops the way through the symbols if there are any and the span is too far down. -/
theorem throughSymbolsChecked_eq (s : Session ν) (unit : Nat) (span : LineSpan) :
    s.throughSymbolsChecked unit span =
      if s.symbols.isSome ∧ span.Overflows then none else some (s.throughSymbols unit span) := by
  unfold throughSymbolsChecked throughSymbols
  cases s.symbols with
  | none =>
    rw [if_neg fun h => Bool.noConfusion h.1]
  | some provider =>
    simp only [Option.isSome_some, true_and]
    rw [LineSpan.fromOne?_eq]
    split
    · rfl
    · rfl

/-- In a unit, a check stops the search or changes nothing. -/
theorem resolveChecked_of_source (hlocation : d.location = .source name span)
    (hunit : s.unitIndex? name = some unit) :
    s.resolveChecked d =
      if s.symbols.isSome ∧ span.Overflows then none else some (s.resolve d) := by
  rw [resolve_of_target (target?_of_source hlocation hunit), resolveChecked, hlocation]
  simp only [hunit]
  rw [throughSymbolsChecked_eq]
  split
  · rfl
  · rcases s.throughSymbols unit span with ⟨_ | found, t⟩
    · rfl
    · rfl

/-! ## Outcomes -/

/-- A session on a function of one statement, without a dump directory. -/
def oneStatement : Session Unit :=
  ofFunction [⟨0, 5, ⟨10, 0⟩, ⟨10, 9⟩, "a.cs", false⟩] [⟨0, 5, ⟨2, 0⟩, ⟨2, 9⟩, none, false⟩] [0]

/-- The session with a dump directory and with symbols that cannot be read. -/
def unreadable : Session Unit :=
  { oneStatement with
    symbols := some fun _ => .error .outOfBounds
    dumpSource := some ⟨"dump"⟩ }

/-- A session whose only function is around the first lines of its unit, line zero included. It has a
dump directory. -/
def aroundFirstLines : Session Unit where
  fileName := ⟨"sample.dll"⟩
  frontend :=
    { units := [⟨"Sample.cs", ""⟩]
      nodeAt := fun _ here => if here.stop.line ≤ 5 then some () else none
      parent := fun _ => none
      functionOf := fun _ => some ⟨some ⟨0x06000001⟩, [0]⟩
      streams := fun _ => .ok ⟨[(⟨0x06000001⟩, [⟨0, 5, ⟨0, 0⟩, ⟨0, 9⟩, none, false⟩])]⟩ }
  symbols := some fun _ => .ok (some [⟨0, 5, ⟨10, 0⟩, ⟨10, 9⟩, "a.cs", false⟩])
  dumpSource := some ⟨"dump"⟩

/-- The beginning of the last line that a word counts. -/
def lastLine : LineSpan := ⟨⟨0xFFFFFFFF, 0⟩, ⟨0xFFFFFFFF, 5⟩⟩

end Session

end Retrace
