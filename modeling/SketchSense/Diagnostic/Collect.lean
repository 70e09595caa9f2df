import SketchSense.Diagnostic.Basic
import SketchSense.FilePath.Root

/-!
# From engine messages to diagnostics

The engine reports a flat list of messages; a note belongs to the message before it. Each message
has up to three locations, of which the one inside the sketch is shown.

* `RawDiagnostic`, a message of the engine;
* `Scope`, a sketch root with a coordinate map, and `Scope.preferred`, the location shown;
* `Scope.collect`, the reported diagnostics in the sketch's coordinates.
-/

namespace SketchSense

/-- A message of the engine. `spelling` is where the text stands, `expansion` where a macro using
it stands, and `presumed` follows line markers. -/
structure RawDiagnostic where
  severity : Severity
  message : String
  spelling : Location
  expansion : Location
  presumed : Location
  children : List RawDiagnostic
  deriving Repr

instance : Inhabited RawDiagnostic := ⟨⟨.ignored, "", default, default, default, []⟩⟩

/-- A message with one location and no children. -/
def RawDiagnostic.at (severity : Severity) (l : Location) (message : String) : RawDiagnostic :=
  ⟨severity, message, l, l, l, []⟩

def RawDiagnostic.isNote (d : RawDiagnostic) : Bool := d.severity = .note

/-- What diagnostics are collected for: the directory of the sketch and the map of the file. -/
structure Scope where
  root : FilePath
  map : CoordinateMap

namespace Scope

/-- Whether a location lies in a file of the sketch. -/
def holds (s : Scope) (l : Location) : Bool := !l.isUnknown && l.file.isInside s.root

/-- The location shown: one in the sketch and outside generated headers, else one in the sketch,
else one that names a file. -/
def preferred (s : Scope) (d : RawDiagnostic) : Location :=
  let candidates := [d.expansion, d.spelling, d.presumed]
  let own := candidates.find? fun l => s.holds l && !l.file.isPrototypeHeader
  let inside := candidates.find? s.holds
  let known := [d.spelling, d.expansion, d.presumed].find? fun l => !l.isUnknown
  (own.or (inside.or known)).getD d.spelling

/-- A note in the sketch's coordinates. A note without a file keeps its location. -/
def note? (s : Scope) (d : RawDiagnostic) : Option Diagnostic :=
  let l := s.preferred d
  let place := if l.isUnknown then some l else s.map.toEdited l
  place.map fun l => ⟨l, d.severity, d.message, []⟩

/-- The notes of a message, each once. -/
def notes (s : Scope) (ds : List RawDiagnostic) : List Diagnostic :=
  keepFirst Diagnostic.repeatKey (ds.filterMap s.note?)

/-- A message with its notes, if it is to be reported. -/
def report? (s : Scope) (d : RawDiagnostic) (following : List RawDiagnostic) :
    Option Diagnostic :=
  let l := s.preferred d
  if s.holds l && d.severity.isReportable then
    (s.map.toEdited l).map fun l =>
      ⟨l, d.severity, d.message, s.notes (d.children.filter RawDiagnostic.isNote ++ following)⟩
  else none

/-- The reported messages in the order of the engine. The notes directly after a message are
its own. -/
def reports (s : Scope) : List RawDiagnostic → List Diagnostic
  | [] => []
  | d :: rest => (s.report? d (rest.takeWhile RawDiagnostic.isNote)).toList ++ reports s rest

/-- The diagnostics of a list of engine messages, by rank and place. -/
def collect (s : Scope) (ds : List RawDiagnostic) : List Diagnostic :=
  sortBy Diagnostic.comparePosition (s.reports ds)

end Scope

end SketchSense
