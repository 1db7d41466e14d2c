import Retrace.Session.Basic

/-!
# Streams of a session

What the collaborators say about the streams of functions (`SymbolProvider.authored`,
`Frontend.reconstruction`), and how a session asks for it at most once.
-/

namespace Retrace

/-- The visible authored points of a function, and what the log says if the symbols fail. -/
def SymbolProvider.authored (provider : SymbolProvider) (token : Token) :
    Option Stream × List LogEntry :=
  match provider token with
  | .ok points => (points.map Stream.visible, [])
  | .error e => (none, [⟨.warn, s!"Failed to read debug symbols of {token.render}: {e.message}"⟩])

/-- The reconstructed streams of a unit as the frontend has them, and what the log says if it fails.
-/
def Frontend.reconstruction {ν : Type} (f : Frontend ν) (unit : Nat) :
    Table Token Stream × List LogEntry :=
  match f.streams unit with
  | .ok streams => (streams, [])
  | .error e => ({}, [⟨.warn, s!"Failed to create sequence points for unit {unit}: {e.message}"⟩])

namespace Session

variable {ν : Type}

/-- Makes sure that the authored stream of a function is known. -/
def ensureAuthored (s : Session ν) (provider : SymbolProvider) (token : Token) : Session ν :=
  match s.cache.authored.get? token with
  | some _ => s
  | none =>
    let (stream, notes) := provider.authored token
    { s with
      cache := { s.cache with authored := s.cache.authored.insert token stream }
      inquiries := { s.inquiries with tokens := s.inquiries.tokens ++ [token] }
      log := s.log.addAll notes }

/-- The authored stream of a function, empty if it is not known or there is none. -/
def authored (s : Session ν) (token : Token) : Stream :=
  match s.cache.authored.get? token with
  | some (some points) => points
  | _ => []

/-- Makes sure that the streams of a unit are known. -/
def ensureUnit (s : Session ν) (unit : Nat) : Session ν :=
  match s.cache.reconstructed.get? unit with
  | some _ => s
  | none =>
    let (streams, notes) := s.frontend.reconstruction unit
    { s with
      cache := { s.cache with reconstructed := s.cache.reconstructed.insert unit streams }
      inquiries := { s.inquiries with units := s.inquiries.units ++ [unit] }
      log := s.log.addAll notes }

/-- Makes sure that the reconstructed stream of a function is sanitized, in the place where the
frontend's stream was. -/
def ensureSanitized (s : Session ν) (unit : Nat) (token : Token) : Session ν :=
  if (unit, token) ∈ s.cache.sanitized then s
  else
    let reconstructed :=
      match s.cache.reconstructed.get? unit with
      | none => s.cache.reconstructed
      | some streams =>
        match streams.get? token with
        | none => s.cache.reconstructed
        | some points => s.cache.reconstructed.insert unit (streams.insert token points.sanitized)
    { s with
      cache := { s.cache with reconstructed, sanitized := (unit, token) :: s.cache.sanitized } }

/-- Makes sure that the reconstructed stream of a function is known and sanitized. -/
def ensureReconstructed (s : Session ν) (unit : Nat) (token : Token) : Session ν :=
  (s.ensureUnit unit).ensureSanitized unit token

/-- The reconstructed stream of a function, empty if it is not known or there is none. -/
def reconstructed (s : Session ν) (unit : Nat) (token : Token) : Stream :=
  match s.cache.reconstructed.get? unit with
  | none => []
  | some streams => (streams.get? token).getD []

end Session

end Retrace
