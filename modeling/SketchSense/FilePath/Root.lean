import SketchSense.FilePath.Basic

/-!
# Normal paths and the sketch root

Paths are normalised by their text alone, so files that exist only in an editor have stable
identities too.

* `NormalPath`, a path without `.` and `..` steps, and `FilePath.normalize`;
* `FilePath.isInside`, whether a path lies strictly inside a directory.
-/

namespace SketchSense

/-- A path of names only, from the root or not. -/
structure NormalPath where
  absolute : Bool
  names : List String
  deriving DecidableEq, Repr

namespace NormalPath

def toFilePath (n : NormalPath) : FilePath :=
  ⟨(if n.absolute then "/" else "") ++ "/".intercalate n.names⟩

/-- The path after one more step. A step up from the root stays there. -/
def step (n : NormalPath) : Component → NormalPath
  | .root => ⟨true, []⟩
  | .current => n
  | .up => { n with names := n.names.dropLast }
  | .name s => { n with names := n.names ++ [s] }

/-- The path reached by a sequence of steps. -/
def ofComponents (steps : List Component) : NormalPath := steps.foldl step ⟨false, []⟩

end NormalPath

namespace FilePath

/-- The path `p` taken from `base`, without `.` and `..` steps. -/
def normal (p base : FilePath) : NormalPath := .ofComponents (base.join p).components

def normalize (p base : FilePath) : FilePath := (p.normal base).toFilePath

/-- Whether `p` lies strictly inside the directory `root`. An empty root holds nothing. -/
def isInside (p root : FilePath) : Bool :=
  !root.isEmpty && !p.isEmpty &&
    let inner := p.normalize ⟨"/"⟩
    let outer := root.normalize ⟨"/"⟩
    !(inner == outer) && inner.startsWith outer

end FilePath

end SketchSense
