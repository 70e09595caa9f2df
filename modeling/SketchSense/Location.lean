import SketchSense.Fault
import SketchSense.FilePath.Sketch

/-!
# Locations and the coordinate map

* `Location`, a point in a file, its order and its written form; lines and columns count from 1
  and line 0 means "no position";
* `CoordinateMap`, how an edited file was presented to the engine, with `toAnalyzed` and
  `toEdited`.
-/

namespace SketchSense

/-- A point in a file. -/
structure Location where
  file : FilePath
  line : Nat
  column : Nat
  deriving BEq, Repr

instance : Inhabited Location := ⟨⟨⟨""⟩, 0, 0⟩⟩

namespace Location

/-- The location that names no file. -/
def nowhere : Location := default

def isUnknown (l : Location) : Bool := l.file.isEmpty

def compare (a b : Location) : Ordering :=
  (a.file.compare b.file).then ((Ord.compare a.line b.line).then (Ord.compare a.column b.column))

instance : Ord Location := ⟨compare⟩

/-- The path as it is stored, the line and the column. -/
def display (l : Location) : String := s!"{l.file.text}:{l.line}:{l.column}"

/-- Locations in order, without repeats. -/
def sortUnique (ls : List Location) : List Location :=
  dropRepeats (sortBy compare ls)

end Location

/-- The extent of a body, from its opening brace to just past its closing brace. -/
structure BodyRange where
  startLine : Nat
  startColumn : Nat
  endLine : Nat
  endColumn : Nat
  deriving DecidableEq, Repr

/-- How a file was presented to the engine. A plain file is presented as it is; a sketch entry
under another name, with a generated header and with its lines shifted by what was inserted. -/
structure CoordinateMap where
  edited : FilePath
  analyzed : FilePath
  header : Option FilePath
  lineShift : Nat
  deriving Repr

namespace CoordinateMap

/-- The map of a file that is presented as it is. -/
def identity (p : FilePath) : CoordinateMap := ⟨p, p, none, 0⟩

/-- A position in the file, as the engine sees it. -/
def toAnalyzed (m : CoordinateMap) (line column : Nat) : Except Fault Location := do
  return ⟨m.analyzed, ← bounded (line + m.lineShift), column⟩

def isHeader (m : CoordinateMap) (p : FilePath) : Bool :=
  p.isPrototypeHeader || m.header.any (· == p)

/-- Whether the file is presented under another name and `p` is that name. -/
def isRenamed (m : CoordinateMap) (p : FilePath) : Bool :=
  p == m.analyzed && !(m.analyzed == m.edited)

/-- A location of the engine, as the editor knows it; none inside a generated header and on lines
that were inserted. -/
def toEdited (m : CoordinateMap) (l : Location) : Option Location :=
  if m.isHeader l.file then none
  else if m.isRenamed l.file then
    if m.lineShift < l.line then some ⟨m.edited, l.line - m.lineShift, l.column⟩ else none
  else if l.file.isAnalyzedEntry then some { l with file := l.file.editedName }
  else some l

end CoordinateMap

end SketchSense
