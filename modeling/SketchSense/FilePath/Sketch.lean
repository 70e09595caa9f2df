import SketchSense.FilePath.Kind
import SketchSense.Text.Search

/-!
# Names around a sketch entry

A sketch entry `Blink.ino` is analysed as `Blink.ino.cpp`, and its generated prototypes are in
`Blink.ino.hpp`. Neither file exists on disk.

* `analyzedName`, `prototypeHeader`, `includeDirective`: from the entry to its synthetic files;
* `isAnalyzedEntry`, `isPrototypeHeader`, `editedName`: back again.
-/

namespace SketchSense.FilePath

/-- The name under which a file is analysed: a sketch entry gains `.cpp`. -/
def analyzedName (p : FilePath) : FilePath :=
  if p.kind = .sketchEntry then p.append ".cpp" else p

/-- The generated header of a sketch entry. -/
def prototypeHeader (p : FilePath) : FilePath := p.append ".hpp"

/-- The line that includes the generated header. -/
def includeDirective (p : FilePath) : String :=
  "#include \"" ++ p.prototypeHeader.fileName?.getD "" ++ "\""

/-- Whether the file name is longer than `tail` and ends with it, ASCII case aside. -/
def nameEndsWith (p : FilePath) (tail : String) : Bool :=
  match p.fileName? with
  | some n => tail.utf8ByteSize < n.utf8ByteSize
      && Text.endsWith tail.toList (asciiLower n).toList
  | none => false

/-- The analysed form of a sketch entry. -/
def isAnalyzedEntry (p : FilePath) : Bool := p.nameEndsWith ".ino.cpp"

/-- The generated header of a sketch entry. -/
def isPrototypeHeader (p : FilePath) : Bool := p.nameEndsWith ".ino.hpp"

/-- The sketch entry that a synthetic name belongs to; any other path is its own. -/
def editedName (p : FilePath) : FilePath :=
  if p.isAnalyzedEntry || p.isPrototypeHeader then p.withoutExtension else p

end SketchSense.FilePath
