import Retrace.Bytes.Malformed

/-!
# Errors

What can go wrong between loading a binary and writing its report, and how it is worded in the log.
Frontends and engines report failures in the same terms.
-/

namespace Retrace

/-- Why a file or directory could not be used. -/
inductive FileError
  | notFound | notADirectory | isADirectory | alreadyExists
  /-- The content is not UTF-8. -/
  | notText
deriving DecidableEq

/-- The wording of a file error. -/
def FileError.message : FileError → String
  | .notFound => "No such file or directory (os error 2)"
  | .notADirectory => "Not a directory (os error 20)"
  | .isADirectory => "Is a directory (os error 21)"
  | .alreadyExists => "File exists (os error 17)"
  | .notText => "stream did not contain valid UTF-8"

/-- Why a step failed. -/
inductive Error
  | malformed (cause : Malformed)
  | outOfBounds
  /-- The binary is of a kind that the frontend does not read. -/
  | notSupported
  | empty
  | file (cause : FileError)
  | ruleSet (reason : String)
  | config (reason : String)
  | other (message : String)
deriving DecidableEq

/-- The wording of an error. -/
def Error.message : Error → String
  | .malformed cause => "Malformed - " ++ cause.message
  | .outOfBounds => "Out of Bound read would have occurred!"
  | .notSupported => "This file type is not supported"
  | .empty => "Provided input was empty"
  | .file cause => cause.message
  | .ruleSet reason => "Invalid rule set - " ++ reason
  | .config reason => "Invalid configuration - " ++ reason
  | .other message => message

/-- A decoding failure as an error. -/
def DecodeError.toError : DecodeError → Error
  | .outOfBounds => .outOfBounds
  | .malformed cause => .malformed cause

end Retrace
