import SketchSense.Completion.Ranking
import SketchSense.Symbol.Collect

/-!
# Completions of a unit

* `CachedUnit.complete`, what the engine proposes at a position, with the items of the sketch
  marked.
-/

namespace SketchSense

/-- The file in which the sketch declares a name: that of the first symbol of the name inside
`root`. -/
def declaredIn? (symbols : List Symbol) (root : FilePath) (name : String) : Option FilePath :=
  (symbols.find? fun s => s.name = name && s.location.file.isInside root).map (·.location.file)

/-- A proposal of the engine as an item. It is the sketch's own if the sketch declares its name or
if it is declared in a file of the sketch. -/
def Candidate.item (c : Candidate) (symbols : List Symbol) (root : FilePath) : CompletionItem :=
  let declared := c.file.map (·.editedName)
  let own := declaredIn? symbols root c.text
  { text := c.text
    label := c.label
    resultType := c.resultType
    kind := c.kind
    priority := c.priority
    file := own.or declared
    fromSketch := own.isSome || declared.any (·.isInside root)
    overloads := 0 }

/-- The items at a position. The unit may be older than the text: `unsaved` and `map` are those of
the current text, which the engine is given. -/
def CachedUnit.complete {σ : Type} (e : CachedUnit) (engine : Engine σ) (s : σ)
    (unsaved : List FileBuffer) (map : CoordinateMap) (line column : Nat) (root : FilePath) :
    Except Fault (List CompletionItem) := do
  let l ← map.toAnalyzed line column
  let symbols := e.symbols
  let named := (engine.candidates s e.unit l unsaved).filter (·.text ≠ "")
  return named.map (·.item symbols root)

end SketchSense
