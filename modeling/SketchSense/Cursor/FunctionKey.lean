import SketchSense.Cursor.Tree

/-!
# Functions across units

The same function is recognised in two compilation units by its name and the shape of its parameter
list.

* `FunctionKey`, with `ofCursor?` and `fits`;
* `CompilationUnit.findFunction?`, the first function of a file with a given key.
-/

namespace SketchSense

/-- A function's name, the number of its parameters and whether more may follow. -/
structure FunctionKey where
  name : String
  arity : Nat
  isVariadic : Bool
  deriving DecidableEq, Repr

namespace FunctionKey

/-- The key of a named function. -/
def ofCursor? (c : Cursor) : Option FunctionKey :=
  if c.kind.isFunctionLike ∧ c.spelling ≠ "" then
    some ⟨c.spelling, c.parameters.length, c.isVariadic⟩
  else none

/-- Whether a cursor is a function with this key. -/
def fits (k : FunctionKey) (c : Cursor) : Bool :=
  c.kind.isFunctionLike && c.spelling = k.name && c.parameters.length = k.arity
    && c.isVariadic = k.isVariadic

/-- A function has the key that is made of it. -/
theorem fits_of_ofCursor? {c : Cursor} {k : FunctionKey} (h : ofCursor? c = some k) :
    k.fits c = true := by
  unfold ofCursor? at h
  split at h
  · next hc =>
    simp only [Option.some.injEq] at h
    subst h
    simp [fits, hc.1]
  · simp at h

end FunctionKey

/-- The place of the first function of `file` that has the key. -/
def CompilationUnit.findFunction? (u : CompilationUnit) (file : FilePath) (key : FunctionKey)
    (definitionOnly : Bool) : Option Location :=
  (u.preorder.find? fun (c, _) =>
    key.fits c && c.location.file == file && (!definitionOnly || c.isDefinition)).map
      (·.1.location)

end SketchSense
