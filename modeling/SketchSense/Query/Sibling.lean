import SketchSense.Cache.Builder
import SketchSense.Cursor.FunctionKey
import SketchSense.FilePath.Sibling
import SketchSense.Query.Texts

/-!
# Definitions beside a header

A function declared in a header is defined, as a rule, in a source file beside it. That file is
parsed on its own, whether it is open or not.

* `siblingDefinition?`, the definition of a function in a source beside its header.
-/

namespace SketchSense

variable {σ : Type}

/-- The definition of a function in the first of some sources that has it. Sources without text and
those that cannot be parsed are passed over. -/
def definitionAmong? (b : UnitBuilder σ) (texts : SourceTexts) (key : FunctionKey) :
    List FilePath → EngineM σ (Option Location)
  | [] => return none
  | path :: rest =>
    match texts.text? path with
    | none => definitionAmong? b texts key rest
    | some code => do
      match ← b.parseDetached path code with
      | .error _ => definitionAmong? b texts key rest
      | .ok u =>
        match u.findFunction? path key true with
        | some l => return some l
        | none => definitionAmong? b texts key rest

/-- The definition of a declared function in a source beside the header that declares it. -/
def siblingDefinition? (b : UnitBuilder σ) (texts : SourceTexts) (declaration : Cursor) :
    EngineM σ (Option Location) :=
  match FunctionKey.ofCursor? declaration with
  | none => return none
  | some key => definitionAmong? b texts key declaration.location.file.siblingSources

end SketchSense
