import SketchSense.Collation
import SketchSense.Location

/-!
# Diagnostics

* `Severity`, with its rank in reports and its names;
* `Diagnostic`, a message at a place, with its notes as children;
* `comparePosition` and `compareFull`, the orders in which diagnostics are listed;
* `sortAndDedup`, a list in full order without repeats;
* `render`, the text form of a diagnostic.
-/

namespace SketchSense

/-- How serious a message is, least serious first. -/
inductive Severity where
  | ignored
  | note
  | warning
  | error
  | fatal
  deriving DecidableEq, Repr

namespace Severity

/-- Place in the order of severities. -/
def level : Severity → Nat
  | ignored => 0
  | note => 1
  | warning => 2
  | error => 3
  | fatal => 4

def compare (a b : Severity) : Ordering := Ord.compare a.level b.level

/-- Place in a report: errors, then warnings, then the rest. -/
def rank : Severity → Nat
  | error | fatal => 0
  | warning => 1
  | ignored | note => 2

/-- Severities that are reported on their own. -/
def isReportable : Severity → Bool
  | warning | error | fatal => true
  | ignored | note => false

/-- The name at the head of a rendered diagnostic. -/
def label : Severity → String
  | ignored => "Ignored"
  | note => "Note"
  | warning => "Warning"
  | error => "Error"
  | fatal => "Fatal"

/-- Every severity, the least serious first. -/
def all : List Severity := [ignored, note, warning, error, fatal]

/-- The severity with a name. -/
def ofLabel? (label : String) : Option Severity := all.find? (·.label = label)

/-- No two severities have one name. -/
theorem ofLabel?_label (s : Severity) : ofLabel? s.label = some s := by cases s <;> rfl

/-- The name inside a sentence. -/
def word : Severity → String
  | ignored => "ignored"
  | note => "note"
  | warning => "warning"
  | error => "error"
  | fatal => "fatal"

end Severity

/-- A message at a place of the sketch; its notes are its children. -/
structure Diagnostic where
  location : Location
  severity : Severity
  message : String
  children : List Diagnostic
  deriving Repr

instance : Inhabited Diagnostic := ⟨⟨default, .ignored, "", []⟩⟩

namespace Diagnostic

/-- The message of a file that could not be parsed. -/
def parseFailureMessage : String := "Failed to parse translation unit"

/-- The error reported for a file that could not be parsed. -/
def parseFailure (file : FilePath) : Diagnostic :=
  ⟨⟨file, 0, 0⟩, .error, parseFailureMessage, []⟩

/-- The same error with the file named in the message. -/
def parseFailureIn (file : FilePath) : Diagnostic :=
  ⟨⟨file, 0, 0⟩, .error, s!"{parseFailureMessage} ({file.display})", []⟩

/-! ## Order and repeats -/

/-- What two diagnostics share when one repeats the other. -/
def repeatKey (d : Diagnostic) : String :=
  s!"{d.location.file.display}:{d.location.line}:{d.location.column}:{d.message}"

/-- Order by rank and place. -/
def comparePosition (a b : Diagnostic) : Ordering :=
  (Ord.compare a.severity.rank b.severity.rank).then (a.location.compare b.location)

/-- Order by rank, place, message and severity. -/
def compareFull (a b : Diagnostic) : Ordering :=
  (comparePosition a b).then
    ((Ord.compare a.message b.message).then (a.severity.compare b.severity))

/-- The list in full order; of entries with one key and one severity the first is kept. -/
def sortAndDedup (ds : List Diagnostic) : List Diagnostic :=
  keepFirst (fun d => (d.repeatKey, d.severity)) (sortBy compareFull ds)

/-! ## Text form -/

/-- The place in front of a message; none if there is no file or no line. -/
def placeText (l : Location) : String :=
  if ¬ l.file.isEmpty ∧ l.line > 0 then l.display ++ ": " else ""

mutual

/-- A diagnostic as text, moved right by `indent`; children are two further to the right. -/
def renderAt (indent : Nat) : Diagnostic → String
  | ⟨location, severity, message, children⟩ =>
    String.ofList (List.replicate indent ' ') ++ severity.label ++ ": " ++ placeText location
      ++ message ++ renderChildren (indent + 2) children

def renderChildren (indent : Nat) : List Diagnostic → String
  | [] => ""
  | d :: ds => "\n" ++ renderAt indent d ++ renderChildren indent ds

end

def render (d : Diagnostic) : String := renderAt 0 d

/-- A list of diagnostics as text, one after the other. -/
def renderAll (ds : List Diagnostic) : String := "\n".intercalate (ds.map render)

end Diagnostic

end SketchSense
