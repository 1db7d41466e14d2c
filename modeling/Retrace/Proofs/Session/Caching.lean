import Retrace.Proofs.Session.Direct
import Retrace.Report.Results

/-!
# Caching does not show

A session keeps the streams it was told. `resolve_after_fresh` says that this never shows: after any
requests the place of a diagnostic is the one a fresh session gives, and the one of `direct`, which
keeps nothing.

What is kept is related to the collaborators by `Faithful`. The streams of a unit are kept as the
frontend has them, except for those of the flagged functions, which are sanitized in place; so a flag
must not be older than the streams of its unit. `Continues` says what a session may become: its
collaborators stay, and it stays faithful. Every request only continues the session.
-/

namespace Retrace

/-- What is kept for a token is what the symbols say. -/
theorem SymbolProvider.stream_eq (provider : SymbolProvider) (token : Token) :
    provider.stream token = (provider.authored token).1.getD [] := by
  unfold SymbolProvider.stream SymbolProvider.authored
  rcases provider token with e | _ | points
  · rfl
  · rfl
  · rfl

/-- The reconstructed points of a function are those of its unit, put in order; without any there
are none. -/
theorem Frontend.stream_eq {ν : Type} (f : Frontend ν) (unit : Nat) (token : Token) :
    f.stream unit token = (((f.reconstruction unit).1.get? token).map Stream.sanitized).getD [] := by
  unfold Frontend.stream Frontend.reconstruction
  rcases f.streams unit with e | streams
  · rfl
  · rfl

namespace Session

variable {ν : Type} {s t u : Session ν}

/-- Everything that is kept is what the collaborators say. -/
structure Faithful (s : Session ν) : Prop where
  /-- The streams of functions that the symbols were asked for. -/
  authored : ∀ {provider token kept}, s.symbols = some provider →
    s.cache.authored.get? token = some kept → kept = (provider.authored token).1
  /-- The streams of units that the frontend was asked for; those of flagged functions are
  sanitized, the others are not. -/
  reconstructed : ∀ {unit streams}, s.cache.reconstructed.get? unit = some streams →
    ∀ token, streams.get? token =
      if (unit, token) ∈ s.cache.sanitized then
        ((s.frontend.reconstruction unit).1.get? token).map Stream.sanitized
      else (s.frontend.reconstruction unit).1.get? token
  /-- No function is flagged before the streams of its unit are kept. -/
  flagged : ∀ {unit token}, (unit, token) ∈ s.cache.sanitized →
    (s.cache.reconstructed.get? unit).isSome

/-- The session may become the other one: the collaborators and the dump directory are the same, and
it stays faithful. -/
structure Continues (s t : Session ν) : Prop where
  fileName : t.fileName = s.fileName
  frontend : t.frontend = s.frontend
  symbols : t.symbols = s.symbols
  dumpSource : t.dumpSource = s.dumpSource
  faithful : s.Faithful → t.Faithful

theorem Continues.refl (s : Session ν) : s.Continues s := ⟨rfl, rfl, rfl, rfl, id⟩

/-- What a session becomes in two steps it becomes in one. -/
theorem Continues.trans (h₁ : s.Continues t) (h₂ : t.Continues u) : s.Continues u where
  fileName := h₂.fileName.trans h₁.fileName
  frontend := h₂.frontend.trans h₁.frontend
  symbols := h₂.symbols.trans h₁.symbols
  dumpSource := h₂.dumpSource.trans h₁.dumpSource
  faithful h := h₂.faithful (h₁.faithful h)

/-- Without a memory, it does not matter how far a session has got. -/
theorem Continues.direct (h : s.Continues t) (d : Diagnostic) : t.direct d = s.direct d := by
  obtain ⟨hfile, hfrontend, hsymbols, hdump, -⟩ := h
  cases s
  cases t
  cases hfile
  cases hfrontend
  cases hsymbols
  cases hdump
  rfl

/-- The place in the written copy stays the same. -/
theorem Continues.inDump (h : s.Continues t) (unit : Nat) (span : LineSpan) :
    t.inDump unit span = s.inDump unit span := by
  simp only [Session.inDump, dumpPath?, dumpPathIn, units, h.fileName, h.frontend, h.dumpSource]

/-! ## Single steps -/

/-- Entries of the log change nothing else. -/
theorem continues_note (s : Session ν) (entries : List LogEntry) : s.Continues (s.note entries) :=
  ⟨rfl, rfl, rfl, rfl, fun h => ⟨h.authored, h.reconstructed, h.flagged⟩⟩

/-- The record of what was asked changes nothing else. -/
theorem continues_inquiries (s : Session ν) (inquiries : Inquiries) :
    s.Continues { s with inquiries } :=
  ⟨rfl, rfl, rfl, rfl, fun h => ⟨h.authored, h.reconstructed, h.flagged⟩⟩

/-- Authored points are kept as the symbols tell them. -/
theorem continues_ensureAuthored {provider : SymbolProvider} (hs : s.symbols = some provider)
    (token : Token) : s.Continues (s.ensureAuthored provider token) := by
  unfold ensureAuthored
  split
  · exact .refl s
  · refine ⟨rfl, rfl, rfl, rfl, fun h => ⟨?_, h.reconstructed, h.flagged⟩⟩
    intro provider' token' kept hs' hkept
    obtain rfl : provider' = provider := Option.some.inj (hs'.symm.trans hs)
    rw [Table.get?_insert] at hkept
    split at hkept
    · next heq =>
      cases heq
      exact (Option.some.inj hkept).symm
    · exact h.authored hs hkept

/-- The streams of a unit are kept as the frontend tells them. -/
theorem continues_ensureUnit (s : Session ν) (unit : Nat) : s.Continues (s.ensureUnit unit) := by
  unfold ensureUnit
  split
  · exact .refl s
  · next hnew =>
    refine ⟨rfl, rfl, rfl, rfl, fun h => ⟨h.authored, ?_, ?_⟩⟩
    · intro unit' streams hkept token
      rw [Table.get?_insert] at hkept
      split at hkept
      · next heq =>
        cases heq
        cases hkept
        -- a flag would have to be older than the streams
        rw [if_neg fun hflag => by simpa [hnew] using h.flagged hflag]
      · exact h.reconstructed hkept token
    · intro unit' token hflag
      rw [Table.get?_insert]
      split
      · rfl
      · exact h.flagged hflag

/-- Afterwards the streams of the unit are kept, also if the frontend failed. -/
theorem isSome_ensureUnit (s : Session ν) (unit : Nat) :
    ((s.ensureUnit unit).cache.reconstructed.get? unit).isSome := by
  unfold ensureUnit
  split
  · next h => rw [h]; rfl
  · simp only [Table.get?_insert, if_true]
    rfl

/-- Sanitizing the stream of a function replaces the streams of its unit by ones that differ at this
function only, where the stream is sanitized if there is one. -/
theorem get?_ensureSanitized {unit : Nat} {token : Token} {streams : Table Token Stream}
    (hstreams : s.cache.reconstructed.get? unit = some streams)
    (hnew : (unit, token) ∉ s.cache.sanitized) :
    ∃ streams' : Table Token Stream,
      (∀ unit', (s.ensureSanitized unit token).cache.reconstructed.get? unit' =
        if unit = unit' then some streams' else s.cache.reconstructed.get? unit') ∧
      ∀ token', streams'.get? token' =
        if token = token' then (streams.get? token).map Stream.sanitized
        else streams.get? token' := by
  rw [ensureSanitized, if_neg hnew]
  simp only [hstreams]
  cases hpoints : streams.get? token with
  | none =>
    refine ⟨streams, fun unit' => ?_, fun token' => ?_⟩
    · by_cases hunit : unit = unit'
      · rw [if_pos hunit, ← hunit, hstreams]
      · rw [if_neg hunit]
    · by_cases htoken : token = token'
      · rw [if_pos htoken, ← htoken, hpoints]
        rfl
      · rw [if_neg htoken]
  | some points =>
    exact ⟨streams.insert token points.sanitized, fun unit' => Table.get?_insert _ _ _ _,
      fun token' => Table.get?_insert _ _ _ _⟩

/-- The streams stay as the frontend has them, up to sanitizing those of the flagged functions. -/
theorem Faithful.reconstructed_ensureSanitized (h : s.Faithful) {unit unit' : Nat} {token : Token}
    {streams kept : Table Token Stream}
    (hstreams : s.cache.reconstructed.get? unit = some streams)
    (hnew : (unit, token) ∉ s.cache.sanitized)
    (hkept : (s.ensureSanitized unit token).cache.reconstructed.get? unit' = some kept)
    (token' : Token) :
    kept.get? token' =
      if (unit', token') ∈ (unit, token) :: s.cache.sanitized then
        ((s.frontend.reconstruction unit').1.get? token').map Stream.sanitized
      else (s.frontend.reconstruction unit').1.get? token' := by
  obtain ⟨streams', hunits, htokens⟩ := get?_ensureSanitized hstreams hnew
  rw [hunits] at hkept
  by_cases hunit : unit = unit'
  · subst hunit
    rw [if_pos rfl] at hkept
    cases hkept
    rw [htokens]
    by_cases htoken : token = token'
    · subst htoken
      -- the stream was not flagged, so it was the frontend's own
      have hraw := h.reconstructed hstreams token
      rw [if_neg hnew] at hraw
      rw [if_pos rfl, if_pos List.mem_cons_self, hraw]
    · have hother : (unit, token') ≠ (unit, token) := fun e => htoken (Prod.mk.inj e).2.symm
      rw [if_neg htoken, h.reconstructed hstreams token']
      simp only [List.mem_cons, hother, false_or]
  · have hother : (unit', token') ≠ (unit, token) := fun e => hunit (Prod.mk.inj e).1.symm
    rw [if_neg hunit] at hkept
    rw [h.reconstructed hkept token']
    simp only [List.mem_cons, hother, false_or]

/-- A kept stream is replaced by the same points in order. -/
theorem continues_ensureSanitized {unit : Nat} (hknown : (s.cache.reconstructed.get? unit).isSome)
    (token : Token) : s.Continues (s.ensureSanitized unit token) := by
  by_cases hnew : (unit, token) ∈ s.cache.sanitized
  · rw [ensureSanitized, if_pos hnew]
    exact .refl s
  · obtain ⟨streams, hstreams⟩ := Option.isSome_iff_exists.1 hknown
    have hkeeps : s.Faithful → ∀ {unit' : Nat} {kept : Table Token Stream},
        (s.ensureSanitized unit token).cache.reconstructed.get? unit' = some kept → _ :=
      fun h _ _ hkept => h.reconstructed_ensureSanitized hstreams hnew hkept
    obtain ⟨streams', hunits, -⟩ := get?_ensureSanitized hstreams hnew
    rw [ensureSanitized, if_neg hnew] at hunits hkeeps ⊢
    refine ⟨rfl, rfl, rfl, rfl, fun h => ⟨h.authored, hkeeps h, ?_⟩⟩
    intro unit' token' hflag
    rw [hunits]
    by_cases hunit : unit = unit'
    · rw [if_pos hunit]
      rfl
    · rw [if_neg hunit]
      rcases List.mem_cons.1 hflag with heq | hflag
      · exact absurd (Prod.mk.inj heq).1.symm hunit
      · exact h.flagged hflag

/-- Reconstructed points are kept as the frontend tells them, in order. -/
theorem continues_ensureReconstructed (s : Session ν) (unit : Nat) (token : Token) :
    s.Continues (s.ensureReconstructed unit token) :=
  (continues_ensureUnit s unit).trans (continues_ensureSanitized (isSome_ensureUnit s unit) token)

/-! ## What is read from the memory -/

/-- Authored points that are kept are those that the symbols tell. -/
theorem Faithful.authored_eq (h : s.Faithful) {provider : SymbolProvider} {token : Token}
    (hs : s.symbols = some provider) (hknown : (s.cache.authored.get? token).isSome) :
    s.authored token = provider.stream token := by
  obtain ⟨kept, hkept⟩ := Option.isSome_iff_exists.1 hknown
  rw [provider.stream_eq, ← h.authored hs hkept, Session.authored, hkept]
  cases kept <;> rfl

/-- A stream that is marked as ordered is that of the frontend, in order. -/
theorem Faithful.reconstructed_eq (h : s.Faithful) {unit : Nat} {token : Token}
    (hflag : (unit, token) ∈ s.cache.sanitized) :
    s.reconstructed unit token = s.frontend.stream unit token := by
  obtain ⟨streams, hstreams⟩ := Option.isSome_iff_exists.1 (h.flagged hflag)
  have hget := h.reconstructed hstreams token
  rw [if_pos hflag] at hget
  rw [s.frontend.stream_eq, ← hget, Session.reconstructed, hstreams]

/-- Afterwards the authored points are kept, also if the symbols failed. -/
theorem isSome_ensureAuthored (s : Session ν) (provider : SymbolProvider) (token : Token) :
    ((s.ensureAuthored provider token).cache.authored.get? token).isSome := by
  unfold ensureAuthored
  split
  · next h => rw [h]; rfl
  · simp only [Table.get?_insert, if_true]
    rfl

/-- Afterwards the stream is marked as ordered. -/
theorem mem_sanitized_ensureReconstructed (s : Session ν) (unit : Nat) (token : Token) :
    (unit, token) ∈ (s.ensureReconstructed unit token).cache.sanitized := by
  unfold ensureReconstructed ensureSanitized
  split
  · assumption
  · exact List.mem_cons_self

/-- Reconstructed points do not touch the authored ones. -/
theorem authored_ensureReconstructed (s : Session ν) (unit : Nat) (token token' : Token) :
    (s.ensureReconstructed unit token).authored token' = s.authored token' := by
  have hunit : (s.ensureUnit unit).cache.authored = s.cache.authored := by
    unfold ensureUnit
    split <;> rfl
  have hsanitized : (s.ensureReconstructed unit token).cache.authored = s.cache.authored := by
    unfold ensureReconstructed ensureSanitized
    split <;> exact hunit
  rw [Session.authored, Session.authored, hsanitized]

/-! ## Places -/

/-- The place on the way through the symbols, from streams that are asked for anew. -/
theorem relocate_fst (token : Token) (authored reconstructed : Stream) (instructions : List Nat)
    (span : LineSpan) :
    (Stream.relocate token authored reconstructed instructions span).1 =
      if (reconstructed.covering span).isEmpty then none
      else (((reconstructed.covering span).align authored instructions).2.counterpart
        authored).place.toOption := by
  unfold Stream.relocate
  dsimp only
  split
  · rfl
  · split
    · next h => rw [h]; rfl
    · next h => rw [h]; rfl

/-- A session goes on when it looks up a place through the symbols, and a faithful one finds the
place that it has without a memory. -/
theorem throughSymbols_spec (s : Session ν) (unit : Nat) (span : LineSpan) :
    s.Continues (s.throughSymbols unit span).2 ∧
      (s.Faithful → (s.throughSymbols unit span).1 = s.mapped unit span) := by
  have hasked := continues_inquiries s { s.inquiries with nodes := s.inquiries.nodes + 1 }
  unfold throughSymbols throughProvider mapped carried?
  split
  · next hs => exact ⟨.refl s, fun _ => by rw [hs]; rfl⟩
  · next provider hs =>
    dsimp only
    split
    · next hfunction => exact ⟨hasked, fun _ => by rw [hs]; simp [hfunction]⟩
    · next function hfunction =>
      split
      · next htoken => exact ⟨hasked, fun _ => by rw [hs]; simp [hfunction, htoken]⟩
      · next token htoken =>
        have hauthored := hasked.trans (continues_ensureAuthored (hasked.symbols.trans hs) token)
        have hall := hauthored.trans (continues_ensureReconstructed _ unit token)
        -- both streams are at hand now, so that what is read is what the collaborators say
        have hread : s.Faithful → _ := fun h =>
          (hauthored.faithful h).authored_eq (hauthored.symbols.trans hs)
            (isSome_ensureAuthored _ provider token)
        have hread' : s.Faithful → _ := fun h =>
          (hall.faithful h).reconstructed_eq (mem_sanitized_ensureReconstructed _ unit token)
        split
        · next hempty =>
          refine ⟨hauthored, fun h => ?_⟩
          rw [hread h] at hempty
          rw [hs]
          simp [hfunction, htoken, List.isEmpty_iff.1 hempty]
        · next hempty =>
          refine ⟨hall.trans (continues_note _ _), fun h => ?_⟩
          rw [hread h] at hempty
          rw [authored_ensureReconstructed, hread h, hread' h, relocate_fst, hall.frontend, hs]
          simp only [Option.bind_eq_bind, Option.bind_some, hfunction, htoken, hempty, Bool.false_or]
          split
          · rfl
          · rfl

/-- A session goes on when it is asked for the place of a diagnostic, and a faithful one gives the
place that the diagnostic has without a memory. -/
theorem resolve_spec (s : Session ν) (d : Diagnostic) :
    s.Continues (s.resolve d).2 ∧ (s.Faithful → (s.resolve d).1 = s.direct d) := by
  cases htarget : s.target? d with
  | none =>
    rw [resolve_of_no_target htarget]
    refine ⟨.refl s, fun _ => ?_⟩
    rw [Session.direct, htarget]
    rfl
  | some target =>
    obtain ⟨unit, span⟩ := target
    obtain ⟨hcontinues, hthrough⟩ := s.throughSymbols_spec unit span
    rw [resolve_of_target htarget, direct_of_target htarget]
    refine ⟨hcontinues, fun h => ?_⟩
    dsimp only
    rw [hthrough h, hcontinues.inDump]

/-! ## Requests -/

/-- A description leaves behind what the search for the place leaves behind. -/
theorem describe_snd (s : Session ν) (d : Diagnostic) : (s.describe d).2 = (s.resolve d).2 := by
  unfold describe
  split
  · next hlocation => rw [resolve, hlocation]
  · dsimp only
    rcases s.resolve d with ⟨_ | found, t⟩
    · rfl
    · rfl

/-- Describing a diagnostic only fills caches and log. -/
theorem continues_describe (s : Session ν) (d : Diagnostic) : s.Continues (s.describe d).2 := by
  rw [describe_snd]
  exact (s.resolve_spec d).1

/-- Collecting results only fills caches and log. -/
theorem continues_results (registry : RuleRegistry) (s : Session ν) (ds : List Diagnostic) :
    s.Continues (Report.results registry s ds).2.2 := by
  induction ds generalizing registry s with
  | nil => exact .refl s
  | cons d rest ih =>
    unfold Report.results
    split
    · exact (continues_note s _).trans (ih _ _)
    · exact (resolve_spec s d).1.trans (ih _ _)

/-- So does a report. -/
theorem continues_process (s : Session ν) (ds : List Diagnostic) :
    s.Continues (Report.process s ds).2 :=
  continues_results {} s ds

/-- What a session can be asked for. -/
inductive Request
  /-- The place of a diagnostic. -/
  | resolve (d : Diagnostic)
  /-- A diagnostic in words. -/
  | describe (d : Diagnostic)
  /-- A report on diagnostics. -/
  | report (ds : List Diagnostic)

/-- The session after a request. -/
def perform (s : Session ν) : Request → Session ν
  | .resolve d => (s.resolve d).2
  | .describe d => (s.describe d).2
  | .report ds => (Report.process s ds).2

/-- The session after requests, one after the other. -/
def after (s : Session ν) (requests : List Request) : Session ν := requests.foldl perform s

/-- The places of diagnostics that are asked for one after the other. -/
def resolveAll (s : Session ν) : List Diagnostic → List (Diagnostic × Option ResolvedLocation)
  | [] => []
  | d :: rest => (d, (s.resolve d).1) :: resolveAll (s.resolve d).2 rest

/-- The session before anything was asked. -/
def fresh (s : Session ν) : Session ν := { s with cache := {}, inquiries := {}, log := {} }

/-- So does every request. -/
theorem continues_perform (s : Session ν) (request : Request) : s.Continues (s.perform request) := by
  cases request with
  | resolve d => exact (resolve_spec s d).1
  | describe d => exact continues_describe s d
  | report ds => exact continues_process s ds

/-- So do all requests together. -/
theorem continues_after (s : Session ν) (requests : List Request) :
    s.Continues (s.after requests) := by
  induction requests generalizing s with
  | nil => exact .refl s
  | cons request rest ih => exact (continues_perform s request).trans (ih (s.perform request))

/-- A session that keeps nothing keeps nothing wrong. -/
theorem faithful_fresh (s : Session ν) : s.fresh.Faithful where
  authored _ hkept := by cases hkept
  reconstructed hkept := by cases hkept
  flagged hflag := by cases hflag

/-- Places that are asked for one after the other are those without a memory. -/
theorem Faithful.resolveAll_eq (h : s.Faithful) (ds : List Diagnostic) :
    s.resolveAll ds = ds.map fun d => (d, s.direct d) := by
  induction ds generalizing s with
  | nil => rfl
  | cons d rest ih =>
    obtain ⟨hnext, hplace⟩ := s.resolve_spec d
    rw [resolveAll, List.map_cons, hplace h, ih (hnext.faithful h)]
    simp only [hnext.direct]

/-- A session gives every diagnostic the place it has without a memory, whatever it was asked before. -/
theorem resolve_after_fst (s : Session ν) (requests : List Request) (d : Diagnostic) :
    ((s.fresh.after requests).resolve d).1 = s.direct d := by
  have hlater := s.fresh.continues_after requests
  rw [((s.fresh.after requests).resolve_spec d).2 (hlater.faithful s.faithful_fresh), hlater.direct]
  rfl

/-- What was asked before never changes the place of a diagnostic: it is the one that a fresh session
gives and the one that follows from the collaborators without any memory. So diagnostics that are
asked for in another order have the same places. -/
theorem resolve_after_fresh (s : Session ν) (requests : List Request) :
    (∀ d, ((s.fresh.after requests).resolve d).1 = (s.fresh.resolve d).1 ∧
      (s.fresh.resolve d).1 = s.direct d) ∧
    (∀ ds, (s.fresh.after requests).resolveAll ds = ds.map fun d => (d, s.direct d)) ∧
    ∀ ds ds' : List Diagnostic, ds.Perm ds' →
      ((s.fresh.after requests).resolveAll ds).Perm ((s.fresh.after requests).resolveAll ds') := by
  have hlater := s.fresh.continues_after requests
  have hfaithful := hlater.faithful s.faithful_fresh
  have hdirect : ∀ d, (s.fresh.after requests).direct d = s.direct d := hlater.direct
  refine ⟨fun d => ⟨?_, s.resolve_after_fst [] d⟩, fun ds => ?_, fun ds ds' hperm => ?_⟩
  · rw [s.resolve_after_fst requests d]
    exact (s.resolve_after_fst [] d).symm
  · rw [hfaithful.resolveAll_eq]
    simp only [hdirect]
  · rw [hfaithful.resolveAll_eq, hfaithful.resolveAll_eq]
    exact hperm.map _

/-- Two statements on a line, the second of which has the lower offset. -/
def statementsOn (line : Nat) : Stream :=
  [⟨0, 5, ⟨line, 5⟩, ⟨line, 9⟩, none, false⟩, ⟨5, 9, ⟨line, 0⟩, ⟨line, 4⟩, none, false⟩]

/-- In the order of the source text they are the other way round. -/
theorem sanitized_statementsOn (line : Nat) :
    (statementsOn line).sanitized = (statementsOn line).reverse := by
  simp [statementsOn, Stream.sanitized, Stream.visible, List.mergeSort,
    List.MergeSort.Internal.splitInTwo, LinePosition.le_iff]

/-- A session on a unit with two functions, on line 2 and on line 3 of the reconstructed source, whose
tokens are the lines. -/
def twoFunctions : Session Token where
  fileName := ⟨"sample.dll"⟩
  frontend :=
    { units := [⟨"Sample.cs", ""⟩]
      nodeAt := fun _ here => some ⟨UInt32.ofNat here.start.line⟩
      parent := fun _ => none
      functionOf := fun token => some ⟨some token, [0, 5]⟩
      streams := fun _ => .ok ⟨[(⟨2⟩, statementsOn 2), (⟨3⟩, statementsOn 3)]⟩ }
  symbols := some fun token => .ok (some
    [⟨0, 5, ⟨10, 0⟩, ⟨10, 9⟩, if token = ⟨2⟩ then "a.cs" else "b.cs", false⟩,
      ⟨5, 9, ⟨20, 0⟩, ⟨20, 9⟩, if token = ⟨2⟩ then "a.cs" else "b.cs", false⟩])
  dumpSource := none

/-- A diagnostic in the first function. -/
def inFirst : Diagnostic := finding ⟨⟨1, 0⟩, ⟨1, 4⟩⟩

/-- A diagnostic in the second function. -/
def inSecond : Diagnostic := finding ⟨⟨2, 0⟩, ⟨2, 4⟩⟩

/-- The place of the diagnostic in the first function, which has its statements sorted. -/
theorem direct_inFirst : twoFunctions.direct inFirst = some ⟨"a.cs", ⟨20, 0⟩, ⟨20, 9⟩⟩ := by
  have hfunction : twoFunctions.frontend.functionAt? 0 (LineSpan.fromOne ⟨⟨1, 0⟩, ⟨1, 4⟩⟩) =
      some ⟨some ⟨2⟩, [0, 5]⟩ := rfl
  have hstream : twoFunctions.frontend.stream 0 ⟨2⟩ = (statementsOn 2).reverse :=
    sanitized_statementsOn 2
  have htarget : twoFunctions.target? inFirst = some (0, ⟨⟨1, 0⟩, ⟨1, 4⟩⟩) := rfl
  rw [direct_of_target htarget]
  simp only [mapped, carried?, hfunction, Option.bind_eq_bind, Option.bind_some, hstream]
  decide +kernel

/-- The place of the diagnostic in the second function. -/
theorem direct_inSecond : twoFunctions.direct inSecond = some ⟨"b.cs", ⟨20, 0⟩, ⟨20, 9⟩⟩ := by
  have hfunction : twoFunctions.frontend.functionAt? 0 (LineSpan.fromOne ⟨⟨2, 0⟩, ⟨2, 4⟩⟩) =
      some ⟨some ⟨3⟩, [0, 5]⟩ := rfl
  have hstream : twoFunctions.frontend.stream 0 ⟨3⟩ = (statementsOn 3).reverse :=
    sanitized_statementsOn 3
  have htarget : twoFunctions.target? inSecond = some (0, ⟨⟨2, 0⟩, ⟨2, 4⟩⟩) := rfl
  rw [direct_of_target htarget]
  simp only [mapped, carried?, hfunction, Option.bind_eq_bind, Option.bind_some, hstream]
  decide +kernel

/-- Two diagnostics in different functions have the same places in either order, after one of them was
asked for and the streams of its function were kept, the reconstructed one sanitized. -/
theorem resolve_after_fresh_of_swap :
    let s := twoFunctions.fresh.after [.resolve inSecond]
    s.reconstructed 0 ⟨3⟩ = (statementsOn 3).reverse ∧ s.reconstructed 0 ⟨2⟩ = statementsOn 2 ∧
      [inSecond, inFirst].Perm [inFirst, inSecond] ∧
      (s.resolveAll [inSecond, inFirst]).Perm (s.resolveAll [inFirst, inSecond]) ∧
      s.resolveAll [inSecond, inFirst] =
        [(inSecond, some ⟨"b.cs", ⟨20, 0⟩, ⟨20, 9⟩⟩), (inFirst, some ⟨"a.cs", ⟨20, 0⟩, ⟨20, 9⟩⟩)] := by
  have hasked : twoFunctions.fresh.after [.resolve inSecond] =
      (twoFunctions.fresh.throughSymbols 0 ⟨⟨2, 0⟩, ⟨2, 4⟩⟩).2 := by
    have htarget : twoFunctions.fresh.target? inSecond = some (0, ⟨⟨2, 0⟩, ⟨2, 4⟩⟩) := rfl
    show (twoFunctions.fresh.resolve inSecond).2 = _
    rw [resolve_of_target htarget]
  have hkept : (twoFunctions.fresh.after [.resolve inSecond]).reconstructed 0 ⟨3⟩ =
      (statementsOn 3).reverse := by
    rw [hasked]
    exact sanitized_statementsOn 3
  have hraw : (twoFunctions.fresh.after [.resolve inSecond]).reconstructed 0 ⟨2⟩ =
      statementsOn 2 := by
    rw [hasked]
    rfl
  have hperm : [inSecond, inFirst].Perm [inFirst, inSecond] := .swap _ _ []
  obtain ⟨-, hplaces, hswap⟩ := resolve_after_fresh twoFunctions [.resolve inSecond]
  refine ⟨hkept, hraw, hperm, hswap _ _ hperm, ?_⟩
  rw [hplaces, List.map_cons, List.map_singleton, direct_inFirst, direct_inSecond]

end Session

end Retrace
