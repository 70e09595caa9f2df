import SketchSense.FilePath.Sketch
import SketchSense.Text.Lossy

/-!
# Paths of octets

The system gives paths as octets. Separators, dots and the order of paths are a matter of the octets
alone; whether a name ends in some text is asked of the text that its octets spell, if they do, and a
path is shown as a text in any case. `FilePath` stands for the paths that are texts.

* `OctetPath`, with `ofText`, the path that a text spells, and `spelled`, which has a character for
  each octet;
* `OctetPath.kind`, and the names around a sketch entry as for `FilePath`;
* `OctetPath.display`, the path as it is shown.
-/

namespace SketchSense

/-- A path as the system gives it. -/
structure OctetPath where
  octets : List UInt8
  deriving Repr

namespace OctetPath

/-- The octets of a path that is a text. -/
def ofText (p : FilePath) : OctetPath := ⟨ContentHash.textBytes p.text⟩

/-- The path with a character for each octet. Its steps, its names and its place in the order are
those of the octets. -/
def spelled (p : OctetPath) : FilePath := ⟨String.ofList (p.octets.map Char.ofUInt8)⟩

/-- The path that has an octet for each character. -/
def ofSpelled (p : FilePath) : OctetPath := ⟨p.text.toList.map Char.toUInt8⟩

/-- The text of a name that has a character for each octet. -/
def readName? (name : String) : Option String := Text.textOf? (name.toList.map Char.toUInt8)

instance : BEq OctetPath := ⟨fun p q => p.spelled == q.spelled⟩

def compare (p q : OctetPath) : Ordering := p.spelled.compare q.spelled

def parent? (p : OctetPath) : Option OctetPath := p.spelled.parent?.map ofSpelled

/-- The file name, if it is a text. -/
def fileNameText? (p : OctetPath) : Option String := p.spelled.fileName?.bind readName?

/-- The extension, if it is a text. -/
def extensionText? (p : OctetPath) : Option String := p.spelled.extension?.bind readName?

def kind (p : OctetPath) : FileKind :=
  match p.extensionText? with
  | some ext => .ofExtension (asciiLower ext)
  | none => .other

/-- The path with the octets of `tail` behind its own. -/
def append (p : OctetPath) (tail : String) : OctetPath :=
  ⟨p.octets ++ ContentHash.textBytes tail⟩

def withoutExtension (p : OctetPath) : OctetPath := ofSpelled p.spelled.withoutExtension

/-- The path as it is shown, with forward slashes only. -/
def display (p : OctetPath) : String := FilePath.display ⟨Text.lossyText p.octets⟩

/-! ## Names around a sketch entry -/

def analyzedName (p : OctetPath) : OctetPath :=
  if p.kind = .sketchEntry then p.append ".cpp" else p

def prototypeHeader (p : OctetPath) : OctetPath := p.append ".hpp"

/-- Whether the file name is a text that is longer than `tail` and ends with it, ASCII case aside. -/
def nameEndsWith (p : OctetPath) (tail : String) : Bool :=
  match p.fileNameText? with
  | some n => tail.utf8ByteSize < n.utf8ByteSize
      && Text.endsWith tail.toList (asciiLower n).toList
  | none => false

def isAnalyzedEntry (p : OctetPath) : Bool := p.nameEndsWith ".ino.cpp"

def isPrototypeHeader (p : OctetPath) : Bool := p.nameEndsWith ".ino.hpp"

/-- The sketch entry that a synthetic name belongs to; any other path is its own. -/
def editedName (p : OctetPath) : OctetPath :=
  if p.isAnalyzedEntry || p.isPrototypeHeader then p.withoutExtension else p

end OctetPath

end SketchSense
