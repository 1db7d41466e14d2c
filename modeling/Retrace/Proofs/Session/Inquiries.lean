import Retrace.Proofs.Session.Caching

/-!
# Nothing is asked twice

A session asks the symbols for the streams of functions and the frontend for the streams of units,
and its record of inquiries says what it asked for, in order. The record and the memory agree
(`Recorded`): what was asked for is what is kept, whether the answer was a stream, nothing or a
failure, and only what is not kept is asked for.

`Asks` says how the record grows on the way from one session to a later one: nothing is asked for
again, the frontend is asked for a unit only after the symbols told visible points of a function there,
and without symbols nobody is asked. `asks_after` says that requests let it grow in this way only.
-/

namespace Retrace

/-- The list names the keys of the table, each of them once. -/
structure Table.ListedBy {κ α : Type} [DecidableEq κ] (t : Table κ α) (keys : List κ) : Prop where
  nodup : keys.Nodup
  mem_iff : ∀ k, k ∈ keys ↔ (t.get? k).isSome

/-- A new key goes to the end of the list. -/
theorem Table.ListedBy.insert {κ α : Type} [DecidableEq κ] {t : Table κ α} {keys : List κ} {k : κ}
    (h : t.ListedBy keys) (hnew : t.get? k = none) (a : α) :
    (t.insert k a).ListedBy (keys ++ [k]) where
  nodup := by
    have hmem : k ∉ keys := by simp [h.mem_iff, hnew]
    rw [List.nodup_append]
    refine ⟨h.nodup, by simp, ?_⟩
    rintro k₁ hk₁ k₂ hk₂ rfl
    exact hmem (List.mem_singleton.1 hk₂ ▸ hk₁)
  mem_iff k' := by
    rw [Table.get?_insert, List.mem_append, List.mem_singleton, h.mem_iff]
    by_cases heq : k = k'
    · simp [heq]
    · have hne : k' ≠ k := fun e => heq e.symm
      simp [heq, hne]

/-- Everything that the first record lists is in the second one. -/
structure Inquiries.Included (a b : Inquiries) : Prop where
  tokens : a.tokens ⊆ b.tokens
  units : a.units ⊆ b.units

theorem Inquiries.Included.refl (a : Inquiries) : a.Included a :=
  ⟨List.Subset.refl _, List.Subset.refl _⟩

/-- What is included in two steps is included. -/
theorem Inquiries.Included.trans {a b c : Inquiries} (h₁ : a.Included b) (h₂ : b.Included c) :
    a.Included c :=
  ⟨List.Subset.trans h₁.tokens h₂.tokens, List.Subset.trans h₁.units h₂.units⟩

namespace Session

variable {ν : Type} {s t u : Session ν} {reason reason' : Token → Nat → Prop}

/-! ## The record and the memory -/

/-- The record names what is kept, and nothing twice. -/
structure Recorded (s : Session ν) : Prop where
  authored : s.cache.authored.ListedBy s.inquiries.tokens
  reconstructed : s.cache.reconstructed.ListedBy s.inquiries.units

/-- A session that has asked nothing keeps nothing. -/
theorem recorded_fresh (s : Session ν) : s.fresh.Recorded where
  authored := ⟨.nil, by simp [fresh]⟩
  reconstructed := ⟨.nil, by simp [fresh]⟩

/-- What is kept of the symbols is recorded where they are asked. -/
theorem Recorded.ensureAuthored (h : s.Recorded) (provider : SymbolProvider) (token : Token) :
    (s.ensureAuthored provider token).Recorded := by
  unfold Session.ensureAuthored
  split
  · exact h
  · next hnew => exact ⟨h.authored.insert hnew _, h.reconstructed⟩

/-- What is kept of the frontend is recorded where it is asked. -/
theorem Recorded.ensureUnit (h : s.Recorded) (unit : Nat) : (s.ensureUnit unit).Recorded := by
  unfold Session.ensureUnit
  split
  · exact h
  · next hnew => exact ⟨h.authored, h.reconstructed.insert hnew _⟩

/-- Sanitizing the stream of a function brings no unit into the memory and drops none. -/
theorem isSome_ensureSanitized (s : Session ν) (unit : Nat) (token : Token) (unit' : Nat) :
    ((s.ensureSanitized unit token).cache.reconstructed.get? unit').isSome =
      (s.cache.reconstructed.get? unit').isSome := by
  by_cases hflag : (unit, token) ∈ s.cache.sanitized
  · rw [Session.ensureSanitized, if_pos hflag]
  · cases hstreams : s.cache.reconstructed.get? unit with
    | none =>
      rw [Session.ensureSanitized, if_neg hflag]
      simp only [hstreams]
    | some streams =>
      obtain ⟨streams', hunits, -⟩ := get?_ensureSanitized hstreams hflag
      rw [hunits]
      split
      · next heq =>
        rw [← heq, hstreams]
        rfl
      · rfl

/-- Streams are put in order without asking anything. -/
theorem inquiries_ensureSanitized (s : Session ν) (unit : Nat) (token : Token) :
    (s.ensureSanitized unit token).inquiries = s.inquiries := by
  unfold Session.ensureSanitized
  split <;> rfl

/-- So the record goes on to name what is kept. -/
theorem Recorded.ensureSanitized (h : s.Recorded) (unit : Nat) (token : Token) :
    (s.ensureSanitized unit token).Recorded := by
  have hauthored : (s.ensureSanitized unit token).cache.authored = s.cache.authored := by
    unfold Session.ensureSanitized
    split <;> rfl
  refine ⟨?_, ?_, fun unit' => ?_⟩
  · rw [hauthored, inquiries_ensureSanitized]
    exact h.authored
  · rw [inquiries_ensureSanitized]
    exact h.reconstructed.nodup
  · rw [inquiries_ensureSanitized, isSome_ensureSanitized]
    exact h.reconstructed.mem_iff unit'

/-! ## How the record grows -/

/-- The session may become the other one, and on the way nothing is asked for again, units are asked
for with a reason only, and nothing is asked for without symbols. -/
structure Asks (reason : Token → Nat → Prop) (s t : Session ν) : Prop where
  continues : s.Continues t
  recorded : s.Recorded → t.Recorded
  included : s.inquiries.Included t.inquiries
  warranted : s.Faithful → s.Recorded → ∀ unit ∈ t.inquiries.units,
    unit ∈ s.inquiries.units ∨ ∃ token ∈ t.inquiries.tokens, reason token unit
  silent : s.symbols = none → t.inquiries = s.inquiries

/-- What leaves the record and what it lists alone asks for nothing. -/
theorem Continues.asks (h : s.Continues t) (hinquiries : t.inquiries = s.inquiries)
    (hrecorded : s.Recorded → t.Recorded) : Asks reason s t where
  continues := h
  recorded := hrecorded
  included := by rw [hinquiries]; exact .refl _
  warranted _ _ unit hunit := by rw [hinquiries] at hunit; exact Or.inl hunit
  silent _ := hinquiries

theorem Asks.refl (s : Session ν) : Asks reason s s := (Continues.refl s).asks rfl id

/-- What is asked for in two steps is asked for in one. -/
theorem Asks.trans (h₁ : Asks reason s t) (h₂ : Asks reason t u) : Asks reason s u where
  continues := h₁.continues.trans h₂.continues
  recorded h := h₂.recorded (h₁.recorded h)
  included := h₁.included.trans h₂.included
  warranted hfaithful hrecorded unit hunit := by
    have hlater := h₂.warranted (h₁.continues.faithful hfaithful) (h₁.recorded hrecorded) unit hunit
    rcases hlater with hold | hnew
    · rcases h₁.warranted hfaithful hrecorded unit hold with hold | ⟨token, htoken, hreason⟩
      · exact Or.inl hold
      · exact Or.inr ⟨token, h₂.included.tokens htoken, hreason⟩
    · exact Or.inr hnew
  silent hs := (h₂.silent (h₁.continues.symbols.trans hs)).trans (h₁.silent hs)

/-- A reason to ask is also a weaker reason. -/
theorem Asks.mono (h : Asks reason s t) (himp : ∀ token unit, reason token unit → reason' token unit) :
    Asks reason' s t where
  continues := h.continues
  recorded := h.recorded
  included := h.included
  warranted hfaithful hrecorded unit hunit :=
    (h.warranted hfaithful hrecorded unit hunit).imp_right fun ⟨token, htoken, hreason⟩ =>
      ⟨token, htoken, himp token unit hreason⟩
  silent := h.silent

/-- Entries of the log ask for nothing. -/
theorem asks_note (s : Session ν) (entries : List LogEntry) : Asks reason s (s.note entries) :=
  (continues_note s entries).asks rfl fun h => ⟨h.authored, h.reconstructed⟩

/-- The symbols are asked for a function at most once. -/
theorem asks_ensureAuthored {provider : SymbolProvider} (hs : s.symbols = some provider)
    (token : Token) : Asks reason s (s.ensureAuthored provider token) where
  continues := continues_ensureAuthored hs token
  recorded h := h.ensureAuthored provider token
  included := by
    unfold ensureAuthored
    split
    · exact .refl _
    · exact ⟨List.subset_append_left _ _, List.Subset.refl _⟩
  warranted _ _ unit hunit := by
    unfold ensureAuthored at hunit
    split at hunit <;> exact Or.inl hunit
  silent hnone := by rw [hs] at hnone; cases hnone

/-- What was asked for stays on the record. -/
theorem included_ensureUnit (s : Session ν) (unit : Nat) :
    s.inquiries.Included (s.ensureUnit unit).inquiries := by
  unfold ensureUnit
  split
  · exact .refl _
  · exact ⟨List.Subset.refl _, List.subset_append_left _ _⟩

/-- A unit is asked for with the reason that a function was asked for before. -/
theorem asks_ensureUnit {provider : SymbolProvider} (hs : s.symbols = some provider) {unit : Nat}
    (hreason : s.Faithful → s.Recorded → ∃ token ∈ s.inquiries.tokens, reason token unit) :
    Asks reason s (s.ensureUnit unit) where
  continues := continues_ensureUnit s unit
  recorded h := h.ensureUnit unit
  included := included_ensureUnit s unit
  warranted hfaithful hrecorded unit' hunit' := by
    obtain ⟨token, htoken, hneeded⟩ := hreason hfaithful hrecorded
    unfold ensureUnit at hunit' ⊢
    split at hunit'
    · exact Or.inl hunit'
    · next hnew =>
      rcases List.mem_append.1 hunit' with hold | hlast
      · exact Or.inl hold
      · rw [List.mem_singleton.1 hlast]
        exact Or.inr ⟨token, htoken, hneeded⟩
  silent hnone := by rw [hs] at hnone; cases hnone

/-- Putting streams in order asks for nothing. -/
theorem asks_ensureSanitized {unit : Nat} (hknown : (s.cache.reconstructed.get? unit).isSome)
    (token : Token) : Asks reason s (s.ensureSanitized unit token) :=
  (continues_ensureSanitized hknown token).asks (inquiries_ensureSanitized s unit token)
    fun h => h.ensureSanitized unit token

/-! ## Requests -/

/-- The symbols know visible points of the function around a span of a unit, which has this token. -/
def Needs (s : Session ν) (unit : Nat) (span : LineSpan) (token : Token) : Prop :=
  ∃ provider function, s.symbols = some provider ∧
    s.frontend.functionAt? unit span.fromOne = some function ∧ function.token = some token ∧
    provider.stream token ≠ []

/-- A diagnostic is a reason to ask for the streams of a unit: it is reported there, and the symbols
know visible points of the function around it. -/
def Warrants (s : Session ν) (d : Diagnostic) (token : Token) (unit : Nat) : Prop :=
  ∃ span, s.target? d = some (unit, span) ∧ s.Needs unit span token

/-- Whether a diagnostic is a reason depends on the collaborators only. -/
theorem Continues.warrants_iff (h : s.Continues t) {d : Diagnostic} {token : Token} {unit : Nat} :
    t.Warrants d token unit ↔ s.Warrants d token unit := by
  obtain ⟨hfile, hfrontend, hsymbols, hdump, -⟩ := h
  cases s
  cases t
  cases hfile
  cases hfrontend
  cases hsymbols
  cases hdump
  rfl

/-- The session that has asked for one more node. -/
def counted (s : Session ν) : Session ν :=
  { s with inquiries := { s.inquiries with nodes := s.inquiries.nodes + 1 } }

/-- The place of a span in a function whose streams are known. -/
def relocated (s : Session ν) (unit : Nat) (span : LineSpan) (instructions : List Nat)
    (token : Token) : Option ResolvedLocation × Session ν :=
  let (found, notes) := Stream.relocate token (s.authored token) (s.reconstructed unit token)
    instructions span.fromOne
  (found, s.note notes)

/-- The place of a span in a function of a unit. -/
def lookUp (s : Session ν) (provider : SymbolProvider) (unit : Nat) (span : LineSpan)
    (instructions : List Nat) (token : Token) : Option ResolvedLocation × Session ν :=
  let s := s.ensureAuthored provider token
  if (s.authored token).isEmpty then (none, s)
  else (s.ensureReconstructed unit token).relocated unit span instructions token

/-- The way through the symbols is the search for a function, and then its streams. -/
theorem throughSymbols_eq (s : Session ν) (unit : Nat) (span : LineSpan) :
    s.throughSymbols unit span =
      match s.symbols with
      | none => (none, s)
      | some provider =>
        match s.frontend.functionAt? unit span.fromOne with
        | none => (none, s.counted)
        | some function =>
          match function.token with
          | none => (none, s.counted)
          | some token => s.counted.lookUp provider unit span function.instructions token := by
  unfold throughSymbols
  rfl

/-- The search for a function asks for no streams. -/
theorem asks_counted {provider : SymbolProvider} (hs : s.symbols = some provider) :
    Asks reason s s.counted where
  continues := continues_inquiries s _
  recorded h := ⟨h.authored, h.reconstructed⟩
  included := ⟨List.Subset.refl _, List.Subset.refl _⟩
  warranted _ _ _ hunit := Or.inl hunit
  silent hnone := by rw [hs] at hnone; cases hnone

/-- The streams of a unit are asked for if the symbols know visible points of the function. -/
theorem asks_lookUp {provider : SymbolProvider} (hs : s.symbols = some provider) (unit : Nat)
    (span : LineSpan) (instructions : List Nat) (token : Token)
    (hreason : provider.stream token ≠ [] → reason token unit) :
    Asks reason s (s.lookUp provider unit span instructions token).2 := by
  have hauthored : Asks reason s (s.ensureAuthored provider token) := asks_ensureAuthored hs token
  have hs' := hauthored.continues.symbols.trans hs
  have hknown := isSome_ensureAuthored s provider token
  unfold lookUp
  dsimp only
  split
  · exact hauthored
  · next hnonempty =>
    have hunit : Asks reason s ((s.ensureAuthored provider token).ensureUnit unit) := by
      refine hauthored.trans (asks_ensureUnit hs' fun hfaithful hrecorded => ?_)
      refine ⟨token, (hrecorded.authored.mem_iff token).2 hknown, hreason fun hempty => ?_⟩
      exact hnonempty (List.isEmpty_iff.2 ((hfaithful.authored_eq hs' hknown).trans hempty))
    exact (hunit.trans (asks_ensureSanitized (isSome_ensureUnit _ unit) token)).trans
      (asks_note _ _)

/-- The frontend is asked for a unit only if the symbols know the function. -/
theorem asks_throughSymbols (s : Session ν) (unit : Nat) (span : LineSpan)
    (hreason : ∀ token, s.Needs unit span token → reason token unit) :
    Asks reason s (s.throughSymbols unit span).2 := by
  rw [throughSymbols_eq]
  split
  · exact .refl s
  · next provider hs =>
    have hcounted : Asks reason s s.counted := asks_counted hs
    split
    · exact hcounted
    · next function hfunction =>
      split
      · exact hcounted
      · next token htoken =>
        have hs' : s.counted.symbols = some provider := hs
        refine hcounted.trans (asks_lookUp hs' unit span function.instructions token ?_)
        intro hstream
        exact hreason token ⟨provider, function, hs, hfunction, htoken, hstream⟩

/-- The place of a diagnostic is asked for by this diagnostic only. -/
theorem asks_resolve (s : Session ν) (d : Diagnostic) :
    Asks (s.Warrants d) s (s.resolve d).2 := by
  cases htarget : s.target? d with
  | none =>
    rw [resolve_of_no_target htarget]
    exact .refl s
  | some target =>
    obtain ⟨unit, span⟩ := target
    rw [resolve_of_target htarget]
    exact asks_throughSymbols s unit span fun token hneeds => ⟨span, htarget, hneeds⟩

/-- So is its description. -/
theorem asks_describe (s : Session ν) (d : Diagnostic) :
    Asks (s.Warrants d) s (s.describe d).2 := by
  rw [describe_snd]
  exact asks_resolve s d

/-- Results ask by one of their diagnostics. -/
theorem asks_results (registry : RuleRegistry) (s : Session ν) (ds : List Diagnostic) :
    Asks (fun token unit => ∃ d ∈ ds, s.Warrants d token unit) s
      (Report.results registry s ds).2.2 := by
  induction ds generalizing registry s with
  | nil => exact .refl s
  | cons d rest ih =>
    have hothers : ∀ {t : Session ν} (registry : RuleRegistry), s.Continues t →
        Asks (fun token unit => ∃ d' ∈ d :: rest, s.Warrants d' token unit) t
          (Report.results registry t rest).2.2 := fun registry hcontinues =>
      (ih registry _).mono fun token unit ⟨d', hd', hwarrants⟩ =>
        ⟨d', List.mem_cons_of_mem d hd', hcontinues.warrants_iff.1 hwarrants⟩
    unfold Report.results
    split
    · exact (asks_note s _).trans (hothers _ (continues_note s _))
    · next rule _ =>
      have hfirst : Asks (fun token unit => ∃ d' ∈ d :: rest, s.Warrants d' token unit) s
          (s.resolve d).2 :=
        (asks_resolve s d).mono fun token unit hwarrants => ⟨d, List.mem_cons_self, hwarrants⟩
      exact hfirst.trans (hothers _ hfirst.continues)

/-- The diagnostics that a request is about. -/
def Request.diagnostics : Request → List Diagnostic
  | .resolve d => [d]
  | .describe d => [d]
  | .report ds => ds

/-- A request asks by one of its diagnostics. -/
theorem asks_perform (s : Session ν) (request : Request) :
    Asks (fun token unit => ∃ d ∈ request.diagnostics, s.Warrants d token unit) s
      (s.perform request) := by
  cases request with
  | resolve d => exact (asks_resolve s d).mono fun _ _ h => ⟨d, List.mem_cons_self, h⟩
  | describe d => exact (asks_describe s d).mono fun _ _ h => ⟨d, List.mem_cons_self, h⟩
  | report ds => exact asks_results {} s ds

/-- Requests ask by one of the diagnostics of one of them. -/
theorem asks_after (s : Session ν) (requests : List Request) :
    Asks (fun token unit => ∃ request ∈ requests, ∃ d ∈ request.diagnostics,
      s.Warrants d token unit) s (s.after requests) := by
  induction requests generalizing s with
  | nil => exact .refl s
  | cons request rest ih =>
    have hfirst := asks_perform s request
    refine (hfirst.mono ?_).trans ((ih (s.perform request)).mono ?_)
    · rintro token unit ⟨d, hd, hwarrants⟩
      exact ⟨request, List.mem_cons_self, d, hd, hwarrants⟩
    · rintro token unit ⟨later, hlater, d, hd, hwarrants⟩
      exact ⟨later, List.mem_cons_of_mem request hlater, d, hd,
        hfirst.continues.warrants_iff.1 hwarrants⟩

end Session

end Retrace
