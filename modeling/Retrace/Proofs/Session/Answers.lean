import Retrace.Proofs.Session.Inquiries

/-!
# The record is complete

A record of inquiries bounds what a session asks for only if nothing is asked for behind its back.
`answering` exchanges the answers of the collaborators, and `after_answering` says that answers to what
the record does not list leave everything as it is: the places, the memory, the record and the log. So
the record of a session lists all that the session depends on.

Together with the growth of the record, `inquiries_after` says what any session asks for.
-/

namespace Retrace.Session

variable {ν : Type} {s t u : Session ν}

/-- The session with other answers of the collaborators to what a session asks them for. -/
def answering (s : Session ν) (provider : SymbolProvider)
    (streams : Nat → Except Error (Table Token Stream)) : Session ν :=
  { s with
    symbols := s.symbols.map fun _ => provider
    frontend := { s.frontend with streams } }

/-- The other answers are the same to these inquiries. -/
structure Agrees (s : Session ν) (provider : SymbolProvider)
    (streams : Nat → Except Error (Table Token Stream)) (asked : Inquiries) : Prop where
  tokens : ∀ p ∈ s.symbols, ∀ token ∈ asked.tokens, provider token = p token
  units : ∀ unit ∈ asked.units, streams unit = s.frontend.streams unit

variable {provider : SymbolProvider} {streams : Nat → Except Error (Table Token Stream)}
  {asked : Inquiries}

/-- Answers that are the same to many inquiries are the same to some of them. -/
theorem Agrees.of_included {asked' : Inquiries} (h : s.Agrees provider streams asked')
    (hincluded : asked.Included asked') : s.Agrees provider streams asked where
  tokens p hp token htoken := h.tokens p hp token (hincluded.tokens htoken)
  units unit hunit := h.units unit (hincluded.units hunit)

/-- Other answers agree with a session as long as its collaborators are the same. -/
theorem Agrees.of_continues (h : s.Agrees provider streams asked) (hcontinues : s.Continues t) :
    t.Agrees provider streams asked where
  tokens := by rw [hcontinues.symbols]; exact h.tokens
  units := by rw [hcontinues.frontend]; exact h.units

/-- Authored points are kept as the collaborators answer, so that the other answers give the same if
they agree. -/
theorem ensureAuthored_answering {p : SymbolProvider} (hs : s.symbols = some p) (token : Token)
    (h : s.Agrees provider streams (s.ensureAuthored p token).inquiries) :
    (s.answering provider streams).ensureAuthored provider token =
      (s.ensureAuthored p token).answering provider streams := by
  unfold ensureAuthored at h ⊢
  cases hkept : s.cache.authored.get? token with
  | some kept =>
    have hkept' : (s.answering provider streams).cache.authored.get? token = some kept := hkept
    rw [hkept']
  | none =>
    have hkept' : (s.answering provider streams).cache.authored.get? token = none := hkept
    rw [hkept] at h
    have hsame : provider token = p token :=
      h.tokens p hs token (List.mem_append_right _ (List.mem_singleton_self token))
    have hauthored : provider.authored token = p.authored token := by
      unfold SymbolProvider.authored
      rw [hsame]
    rw [hkept']
    dsimp only
    rw [hauthored]
    rfl

/-- So are the reconstructed points of a unit. -/
theorem ensureUnit_answering (unit : Nat)
    (h : s.Agrees provider streams (s.ensureUnit unit).inquiries) :
    (s.answering provider streams).ensureUnit unit =
      (s.ensureUnit unit).answering provider streams := by
  unfold ensureUnit at h ⊢
  cases hkept : s.cache.reconstructed.get? unit with
  | some kept =>
    have hkept' : (s.answering provider streams).cache.reconstructed.get? unit = some kept := hkept
    rw [hkept']
  | none =>
    have hkept' : (s.answering provider streams).cache.reconstructed.get? unit = none := hkept
    rw [hkept] at h
    have hsame : streams unit = s.frontend.streams unit :=
      h.units unit (List.mem_append_right _ (List.mem_singleton_self unit))
    have hreconstruction : (s.answering provider streams).frontend.reconstruction unit =
        s.frontend.reconstruction unit := by
      unfold Frontend.reconstruction answering
      dsimp only
      rw [hsame]
    rw [hkept']
    dsimp only
    rw [hreconstruction]
    rfl

/-- Streams that are kept are put in order without asking anything. -/
theorem ensureSanitized_answering (s : Session ν) (unit : Nat) (token : Token) :
    (s.answering provider streams).ensureSanitized unit token =
      (s.ensureSanitized unit token).answering provider streams := by
  unfold ensureSanitized
  by_cases hflag : (unit, token) ∈ s.cache.sanitized
  · have hflag' : (unit, token) ∈ (s.answering provider streams).cache.sanitized := hflag
    rw [if_pos hflag, if_pos hflag']
  · have hflag' : (unit, token) ∉ (s.answering provider streams).cache.sanitized := hflag
    rw [if_neg hflag, if_neg hflag']
    rfl

/-- Answers that are not asked for do not change what a session makes of a function. -/
theorem ensureReconstructed_answering (unit : Nat) (token : Token)
    (h : s.Agrees provider streams (s.ensureReconstructed unit token).inquiries) :
    (s.answering provider streams).ensureReconstructed unit token =
      (s.ensureReconstructed unit token).answering provider streams := by
  unfold ensureReconstructed at h ⊢
  rw [inquiries_ensureSanitized] at h
  rw [ensureUnit_answering unit h, ensureSanitized_answering]

/-- Authored points that are kept are told without asking anything. -/
theorem authored_answering (s : Session ν) (token : Token) :
    (s.answering provider streams).authored token = s.authored token := rfl

/-- A span is carried over without asking anything, once the streams are known. -/
theorem relocated_answering (s : Session ν) (unit : Nat) (span : LineSpan)
    (instructions : List Nat) (token : Token) :
    (s.answering provider streams).relocated unit span instructions token =
      ((s.relocated unit span instructions token).1,
        (s.relocated unit span instructions token).2.answering provider streams) := by
  unfold relocated
  rfl

/-- The place of a span in a function is the same with the other answers, if they agree on what was
asked for. -/
theorem lookUp_answering {p : SymbolProvider} (hs : s.symbols = some p) (unit : Nat)
    (span : LineSpan) (instructions : List Nat) (token : Token)
    (h : s.Agrees provider streams (s.lookUp p unit span instructions token).2.inquiries) :
    (s.answering provider streams).lookUp provider unit span instructions token =
      ((s.lookUp p unit span instructions token).1,
        (s.lookUp p unit span instructions token).2.answering provider streams) := by
  have hcontinues := continues_ensureAuthored hs token
  unfold lookUp at h ⊢
  dsimp only at h ⊢
  by_cases hempty : ((s.ensureAuthored p token).authored token).isEmpty
  · rw [if_pos hempty] at h ⊢
    rw [ensureAuthored_answering hs token h, authored_answering, if_pos hempty]
  · rw [if_neg hempty] at h ⊢
    have hafter : s.Agrees provider streams
        ((s.ensureAuthored p token).ensureReconstructed unit token).inquiries := h
    have hunit : ((s.ensureAuthored p token).ensureReconstructed unit token).inquiries =
        ((s.ensureAuthored p token).ensureUnit unit).inquiries := inquiries_ensureSanitized _ _ _
    have hbefore : s.Agrees provider streams (s.ensureAuthored p token).inquiries :=
      hafter.of_included (hunit ▸ included_ensureUnit _ unit)
    rw [ensureAuthored_answering hs token hbefore, authored_answering, if_neg hempty,
      ensureReconstructed_answering unit token (hafter.of_continues hcontinues),
      relocated_answering]

/-- Answers that are not asked for do not change the place of a span, nor what it leaves behind. -/
theorem throughSymbols_answering (unit : Nat) (span : LineSpan)
    (h : s.Agrees provider streams (s.throughSymbols unit span).2.inquiries) :
    (s.answering provider streams).throughSymbols unit span =
      ((s.throughSymbols unit span).1, (s.throughSymbols unit span).2.answering provider streams) := by
  rw [throughSymbols_eq] at h ⊢
  rw [throughSymbols_eq]
  cases hs : s.symbols with
  | none =>
    have hs' : (s.answering provider streams).symbols = none := by simp [answering, hs]
    rw [hs']
  | some p =>
    have hs' : (s.answering provider streams).symbols = some provider := by simp [answering, hs]
    -- the function is found by the tree, which is the same with other answers
    have hfunction : (s.answering provider streams).frontend.functionAt? unit span.fromOne =
        s.frontend.functionAt? unit span.fromOne := rfl
    rw [hs] at h
    rw [hs', hfunction]
    dsimp only at h ⊢
    cases hfound : s.frontend.functionAt? unit span.fromOne with
    | none => rfl
    | some function =>
      rw [hfound] at h
      dsimp only at h ⊢
      cases htoken : function.token with
      | none => rfl
      | some token =>
        rw [htoken] at h
        exact lookUp_answering (s := s.counted) hs unit span function.instructions token
          (h.of_continues (continues_inquiries s _))

/-- Answers that are not asked for do not change the place of a diagnostic. -/
theorem resolve_answering (d : Diagnostic)
    (h : s.Agrees provider streams (s.resolve d).2.inquiries) :
    (s.answering provider streams).resolve d =
      ((s.resolve d).1, (s.resolve d).2.answering provider streams) := by
  have hsame : (s.answering provider streams).target? d = s.target? d := rfl
  cases htarget : s.target? d with
  | none => rw [resolve_of_no_target htarget, resolve_of_no_target (hsame.trans htarget)]
  | some target =>
    obtain ⟨unit, span⟩ := target
    rw [resolve_of_target htarget] at h ⊢
    rw [resolve_of_target (hsame.trans htarget), throughSymbols_answering unit span h]
    rfl

/-- A diagnostic is described in the same words with the other answers. -/
theorem describe_answering (d : Diagnostic)
    (h : s.Agrees provider streams (s.describe d).2.inquiries) :
    (s.answering provider streams).describe d =
      ((s.describe d).1, (s.describe d).2.answering provider streams) := by
  rw [describe_snd] at h
  unfold describe
  cases d.location with
  | none => rfl
  | source name span =>
    dsimp only
    rw [resolve_answering d h]
    rcases s.resolve d with ⟨_ | place, t⟩
    · rfl
    · rfl

/-- Diagnostics have the same results with the other answers. -/
theorem results_answering (registry : RuleRegistry) (ds : List Diagnostic)
    (h : s.Agrees provider streams (Report.results registry s ds).2.2.inquiries) :
    Report.results registry (s.answering provider streams) ds =
      ((Report.results registry s ds).1, (Report.results registry s ds).2.1,
        (Report.results registry s ds).2.2.answering provider streams) := by
  induction ds generalizing registry s with
  | nil => rfl
  | cons d rest ih =>
    unfold Report.results at h ⊢
    cases hdescriptor : d.descriptor with
    | none =>
      rw [hdescriptor] at h
      exact ih registry (h.of_continues (continues_note s _))
    | some rule =>
      rw [hdescriptor] at h
      dsimp only at h ⊢
      have hlater := asks_results (registry.register rule).2 (s.resolve d).2 rest
      rw [resolve_answering d (h.of_included hlater.included),
        ih _ (h.of_continues (asks_resolve s d).continues)]
      rfl

/-- Answers that are not asked for do not change what a request leaves behind. -/
theorem perform_answering (request : Request)
    (h : s.Agrees provider streams (s.perform request).inquiries) :
    (s.answering provider streams).perform request =
      (s.perform request).answering provider streams := by
  cases request with
  | resolve d => exact congrArg Prod.snd (resolve_answering d h)
  | describe d => exact congrArg Prod.snd (describe_answering d h)
  | report ds => exact congrArg (fun found => found.2.2) (results_answering {} ds h)

/-- Requests are performed from the first one on. -/
theorem after_cons (s : Session ν) (request : Request) (rest : List Request) :
    s.after (request :: rest) = (s.perform request).after rest := rfl

/-- Answers that are not asked for do not change what requests leave behind. -/
theorem after_answering (requests : List Request)
    (h : s.Agrees provider streams (s.after requests).inquiries) :
    (s.answering provider streams).after requests =
      (s.after requests).answering provider streams := by
  induction requests generalizing s with
  | nil => rfl
  | cons request rest ih =>
    have hlater := asks_after (s.perform request) rest
    rw [after_cons] at h ⊢
    rw [after_cons, perform_answering request (h.of_included hlater.included)]
    exact ih (h.of_continues (continues_perform s request))

/-! ## What is asked for -/

/-- Whatever a session is asked for, it asks for the streams of a function or of a unit once at most.
It asks for a unit only if the symbols told visible points of a function there that a diagnostic is
in, and for nothing without symbols. And what it did not ask for does not matter to it. -/
theorem inquiries_after (s : Session ν) (requests : List Request) :
    let t := s.fresh.after requests
    t.inquiries.tokens.Nodup ∧ t.inquiries.units.Nodup ∧
      (∀ unit ∈ t.inquiries.units, ∃ token ∈ t.inquiries.tokens, ∃ request ∈ requests,
        ∃ d ∈ request.diagnostics, s.Warrants d token unit) ∧
      (s.symbols = none → t.inquiries = {}) ∧
      ∀ provider streams, s.Agrees provider streams t.inquiries →
        (s.fresh.answering provider streams).after requests = t.answering provider streams := by
  intro t
  have hasks := asks_after s.fresh requests
  have hrecorded : t.Recorded := hasks.recorded s.recorded_fresh
  refine ⟨hrecorded.authored.nodup, hrecorded.reconstructed.nodup, fun unit hunit => ?_,
    hasks.silent, fun provider streams hagrees => ?_⟩
  · rcases hasks.warranted s.faithful_fresh s.recorded_fresh unit hunit with hold | hnew
    · cases hold
    · exact hnew
  · exact after_answering requests ⟨hagrees.tokens, hagrees.units⟩

/-- A session whose frontend fails. -/
def failing : Session Unit :=
  let s := ofFunction [⟨0, 5, ⟨10, 0⟩, ⟨10, 9⟩, "a.cs", false⟩] [] [0]
  { s with frontend := { s.frontend with streams := fun _ => .error .outOfBounds } }

/-- The same session without symbols. -/
def silent : Session Unit := { failing with symbols := none }

/-- Three requests about the same place. -/
def askedAgain : List Request :=
  let d := finding ⟨⟨1, 0⟩, ⟨1, 9⟩⟩
  [.resolve d, .describe d, .resolve d]

/-- The symbols of `failing` are asked once, although three requests need them. -/
theorem tokens_failing :
    (failing.fresh.after askedAgain).inquiries.tokens = [⟨0x06000001⟩] := by decide

/-- Its frontend is asked once, although it fails. -/
theorem units_failing : (failing.fresh.after askedAgain).inquiries.units = [0] := by decide

/-- Symbols that know the function of `failing` and no other one. -/
def otherSymbols : SymbolProvider := fun token =>
  if token = ⟨0x06000001⟩ then .ok (some [⟨0, 5, ⟨10, 0⟩, ⟨10, 9⟩, "a.cs", false⟩]) else .ok none

/-- Streams of units that fail for the first one only. -/
def otherStreams (unit : Nat) : Except Error (Table Token Stream) :=
  if unit = 0 then .error .outOfBounds else .ok {}

/-- The other answers are the same to these two questions. -/
theorem agrees_failing :
    failing.Agrees otherSymbols otherStreams (failing.fresh.after askedAgain).inquiries := by
  constructor
  · rintro p ⟨⟩ token htoken
    rw [tokens_failing] at htoken
    exact if_pos (List.mem_singleton.1 htoken)
  · intro unit hunit
    rw [units_failing] at hunit
    exact if_pos (List.mem_singleton.1 hunit)

/-- The streams of a unit are asked for once although the frontend fails each time it is asked. -/
theorem inquiries_after_of_failing :
    (failing.fresh.after askedAgain).inquiries.tokens.Nodup ∧
      (failing.fresh.after askedAgain).inquiries.units.Nodup ∧
      0 ∈ (failing.fresh.after askedAgain).inquiries.units ∧
      (∃ token ∈ (failing.fresh.after askedAgain).inquiries.tokens, ∃ request ∈ askedAgain,
        ∃ d ∈ request.diagnostics, failing.Warrants d token 0) ∧
      silent.symbols = none ∧ (silent.fresh.after askedAgain).inquiries = {} ∧
      failing.Agrees otherSymbols otherStreams (failing.fresh.after askedAgain).inquiries ∧
      (failing.fresh.answering otherSymbols otherStreams).after askedAgain =
        (failing.fresh.after askedAgain).answering otherSymbols otherStreams := by
  have hunit : 0 ∈ (failing.fresh.after askedAgain).inquiries.units := by
    rw [units_failing]
    exact List.mem_cons_self
  obtain ⟨htokens, hunits, hreason, -, hother⟩ := inquiries_after failing askedAgain
  obtain ⟨-, -, -, hsilent, -⟩ := inquiries_after silent askedAgain
  exact ⟨htokens, hunits, hunit, hreason 0 hunit, rfl, hsilent rfl, agrees_failing,
    hother otherSymbols otherStreams agrees_failing⟩

end Retrace.Session
