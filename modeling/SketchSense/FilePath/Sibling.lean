import SketchSense.FilePath.Kind

/-!
# Sources beside a header

* `siblingSources`, the implementation files that may define what a header declares: same
  directory and stem, extension `.cpp`, `.cc` or `.cxx`.
-/

namespace SketchSense.FilePath

/-- Extensions of the sources looked for, in the order in which they are tried. -/
def siblingExtensions : List String := ["cpp", "cc", "cxx"]

/-- The sources beside a header; none for any other file. -/
def siblingSources (p : FilePath) : List FilePath :=
  match p.kind, p.fileStem? with
  | .header, some stem =>
    let dir := p.parent?.getD ⟨""⟩
    siblingExtensions.map fun ext => dir.join ⟨stem ++ "." ++ ext⟩
  | _, _ => []

end SketchSense.FilePath
