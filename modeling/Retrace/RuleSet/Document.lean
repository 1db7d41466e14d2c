import Retrace.File.Storage
import Retrace.Markup.Event
import Retrace.Markup.Reference
import Retrace.RuleSet.Basic
import Retrace.Text.Blank

/-!
# Rule set documents

A rule set is written as markup: an `IncludeAll` element sets the general action, each `Rule`
element an action of its own. `RuleSet.ofReading` interprets the events of a document in order and
stops at the first mistake, be it one of the elements or of the markup.
-/

namespace Retrace

/-- What is wrong with a rule set document. -/
inductive RuleSetError
  /-- There is nothing but white space. -/
  | blank
  | markup (error : Markup.EventError)
  | attributes (error : Markup.AttributeError)
  | reference (error : Markup.ReferenceError)
  | missingAttribute (element attributeName : String)
  | unknownAction (name : String)
  | noRoot
deriving DecidableEq

/-- A document error as an error of the library. -/
def RuleSetError.toError : RuleSetError → Error
  | .blank => .empty
  | .markup error => .ruleSet error.message
  | .attributes error => .ruleSet error.message
  | .reference error => .ruleSet error.message
  | .missingAttribute element attributeName =>
    .ruleSet s!"{element} element without {attributeName} attribute"
  | .unknownAction name => .ruleSet s!"unknown rule action - {name}"
  | .noRoot => .ruleSet "missing RuleSet element"

namespace RuleSet

/-- The value of the first attribute of that local name. -/
def requiredAttribute (tag : Markup.Tag) (name : String) : Except RuleSetError String :=
  let attributes := tag.attributes
  match attributes.read.find? fun a => Markup.localName a.key == name.toList with
  | some a =>
    match Markup.expand a.value with
    | .ok text => .ok text
    | .error e => .error (.reference e)
  | none =>
    match attributes.failure with
    | some e => .error (.attributes e)
    | none => .error (.missingAttribute (String.ofList tag.localName) name)

/-- The action that a text names. -/
def action (name : String) : Except RuleSetError RuleAction :=
  match RuleAction.ofName? name with
  | some a => .ok a
  | none => .error (.unknownAction name)

/-- The rule set read so far. -/
structure Draft where
  ruleSet : RuleSet := {}
  /-- Whether a `RuleSet` element was seen. -/
  sawRoot : Bool := false

/-- Interprets an element by its local name. Elements before the first `RuleSet` do not count. -/
def element (d : Draft) (tag : Markup.Tag) : Except RuleSetError Draft :=
  match String.ofList tag.localName with
  | "RuleSet" => .ok { d with sawRoot := true }
  | "IncludeAll" =>
    if d.sawRoot then do
      let general ← action (← requiredAttribute tag "Action")
      return { d with ruleSet := { d.ruleSet with general } }
    else .ok d
  | "Rule" =>
    if d.sawRoot then do
      let id ← requiredAttribute tag "Id"
      let name ← requiredAttribute tag "Action"
      let chosen ← action name
      let specific := d.ruleSet.specific.insert id chosen
      return { d with ruleSet := { d.ruleSet with specific } }
    else .ok d
  | _ => .ok d

/-- Interprets an event. -/
def event (d : Draft) : Markup.Event → Except RuleSetError Draft
  | .start tag => element d tag
  | .empty tag => element d tag
  | .stop _ => .ok d

/-- The rule set of a document. -/
def ofReading (r : Markup.Reading) : Except RuleSetError RuleSet := do
  let d ← r.events.foldlM event {}
  match r.failure with
  | some e => .error (.markup e)
  | none => if d.sawRoot then .ok d.ruleSet else .error .noRoot

/-- The rule set of a text whose markup is read as `reading`. -/
def parseReading (text : String) (reading : Markup.Reading) : Except RuleSetError RuleSet :=
  if Text.isBlank text then .error .blank else ofReading reading

/-- The rule set of a text. -/
def parse (text : String) : Except RuleSetError RuleSet := parseReading text (Markup.read text)

/-- The rule set of a file. -/
def ofFile {σ : Type} (disk : Storage σ) (files : σ) (path : Path) : Except Error RuleSet :=
  match disk.readText path files with
  | .error e => .error (.file e)
  | .ok text =>
    match parse text with
    | .ok ruleSet => .ok ruleSet
    | .error e => .error (.ruleSet s!"{path.text}: {e.toError.message}")

/-- The rule sets of files, merged in order. -/
def ofFiles {σ : Type} (disk : Storage σ) (files : σ) (paths : List Path) : Except Error RuleSet :=
  (paths.mapM (ofFile disk files)).map merge

end RuleSet

end Retrace
