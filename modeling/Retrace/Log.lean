/-!
# Log

What is reported while binaries are processed. Each entry has a level; entries beyond the log's
threshold are dropped.
-/

namespace Retrace

/-- How much an entry matters, most important first. -/
inductive LogLevel
  | error | warn | info | debug | trace
deriving DecidableEq

/-- The level's place in the order, counted from one. -/
def LogLevel.rank : LogLevel → Nat
  | .error => 1
  | .warn => 2
  | .info => 3
  | .debug => 4
  | .trace => 5

/-- Up to which level entries are kept. -/
inductive LogThreshold
  | off
  | upTo (level : LogLevel)
deriving DecidableEq

namespace LogThreshold

/-- The threshold's place in the order, zero for `off`. -/
def rank : LogThreshold → Nat
  | off => 0
  | upTo level => level.rank

/-- Whether entries of a level are kept. -/
def admits (t : LogThreshold) (level : LogLevel) : Bool := level.rank ≤ t.rank

/-- The threshold of a name, in any case of its ASCII letters. Some levels have two names. -/
def ofName? (name : String) : Option LogThreshold :=
  match name.toLower with
  | "off" | "none" => some off
  | "error" | "critical" => some (upTo .error)
  | "warn" | "warning" => some (upTo .warn)
  | "info" | "information" => some (upTo .info)
  | "debug" => some (upTo .debug)
  | "trace" => some (upTo .trace)
  | _ => none

end LogThreshold

/-- One entry. -/
structure LogEntry where
  level : LogLevel
  text : String
deriving DecidableEq

/-- The entries kept so far, oldest first, and the threshold for those to come. -/
structure Log where
  threshold : LogThreshold := .upTo .trace
  entries : List LogEntry := []

/-- Adds an entry, unless the threshold drops it. -/
def Log.add (log : Log) (entry : LogEntry) : Log :=
  if log.threshold.admits entry.level then { log with entries := log.entries ++ [entry] } else log

/-- Adds entries in order. -/
def Log.addAll (log : Log) (entries : List LogEntry) : Log := entries.foldl Log.add log

end Retrace
