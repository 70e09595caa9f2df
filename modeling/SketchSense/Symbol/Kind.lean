import SketchSense.Cursor.Basic

/-!
# Kinds of symbols

* `SymbolKind`, what a listed symbol is, with `ofCursor?` and its written name.
-/

namespace SketchSense

/-- What a listed symbol is. -/
inductive SymbolKind where
  | function
  | method
  | constructor
  | destructor
  | functionTemplate
  | var
  | field
  | parameter
  | enumConstant
  | structType
  | classType
  | unionType
  | enumType
  | typedefName
  | macroName
  deriving DecidableEq, Repr

namespace SymbolKind

/-- Every kind, in the order above. -/
def all : List SymbolKind :=
  [function, method, constructor, destructor, functionTemplate, var, field, parameter, enumConstant,
    structType, classType, unionType, enumType, typedefName, macroName]

theorem mem_all (k : SymbolKind) : k ∈ all := by cases k <;> decide

/-- The symbol kind of a cursor kind that can be listed. -/
def ofCursor? : CursorKind → Option SymbolKind
  | .function => some function
  | .method => some method
  | .constructor => some constructor
  | .destructor => some destructor
  | .functionTemplate => some functionTemplate
  | .var => some var
  | .field => some field
  | .parameter => some parameter
  | .enumConstant => some enumConstant
  | .structType => some structType
  | .classType => some classType
  | .unionType => some unionType
  | .enumType => some enumType
  | .typedefName => some typedefName
  | .macroDefinition => some macroName
  | _ => none

def isFunctionLike : SymbolKind → Bool
  | function | method | constructor | destructor | functionTemplate => true
  | _ => false

/-- The written name of a kind. -/
def name : SymbolKind → String
  | function => "function"
  | method => "method"
  | constructor => "constructor"
  | destructor => "destructor"
  | functionTemplate => "function_template"
  | var => "variable"
  | field => "field"
  | parameter => "parameter"
  | enumConstant => "enum_constant"
  | structType => "struct"
  | classType => "class"
  | unionType => "union"
  | enumType => "enum"
  | typedefName => "typedef"
  | macroName => "macro"

/-- The kind with a written name. -/
def ofName? (name : String) : Option SymbolKind := all.find? (·.name = name)

/-- No two kinds are written alike. -/
theorem ofName?_name (k : SymbolKind) : ofName? k.name = some k := by cases k <;> rfl

/-- Symbols are exactly the cursors that declare a name. -/
theorem isSome_ofCursor? (k : CursorKind) : (ofCursor? k).isSome = k.isSymbol := by
  cases k <;> rfl

end SymbolKind

end SketchSense
