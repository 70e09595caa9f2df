import SketchSense.Location

/-!
# Cursors

A cursor is a node of the tree that the engine makes of a compilation unit.

* `CursorKind`, what a node is, with the classes of kinds that queries ask for;
* `Parameter`, a parameter of a function;
* `Cursor`, a node with its names, place and type.
-/

namespace SketchSense

/-- What a node of a tree is. -/
inductive CursorKind where
  | function
  | method
  | constructor
  | destructor
  | functionTemplate
  | var
  | field
  | parameter
  | templateParameter
  | enumConstant
  | structType
  | classType
  | unionType
  | enumType
  | typedefName
  | classTemplate
  | macroDefinition
  | macroExpansion
  | compound
  | declReference
  | memberReference
  | call
  | typeReference
  | namespaceScope
  | other
  deriving DecidableEq, Repr

namespace CursorKind

/-- Every kind, in the order above. -/
def all : List CursorKind :=
  [function, method, constructor, destructor, functionTemplate, var, field, parameter,
    templateParameter, enumConstant, structType, classType, unionType, enumType, typedefName,
    classTemplate, macroDefinition, macroExpansion, compound, declReference, memberReference, call,
    typeReference, namespaceScope, other]

theorem mem_all (k : CursorKind) : k ∈ all := by cases k <;> decide

def isFunctionLike : CursorKind → Bool
  | function | method | constructor | destructor | functionTemplate => true
  | _ => false

/-- Kinds that declare a name a query can ask for. -/
def isSymbol : CursorKind → Bool
  | function | method | constructor | destructor | functionTemplate
  | var | field | parameter | enumConstant
  | structType | classType | unionType | enumType | typedefName | macroDefinition => true
  | _ => false

/-- Kinds that hold members. -/
def isContainer : CursorKind → Bool
  | classType | structType | unionType | classTemplate | enumType | namespaceScope => true
  | _ => false

/-- Kinds that use a name declared elsewhere. -/
def isReference : CursorKind → Bool
  | declReference | memberReference | call | typeReference | macroExpansion => true
  | _ => false

/-- Place of a kind in a list of completions. -/
def score : CursorKind → Nat
  | function | method | constructor | destructor | functionTemplate => 0
  | var | field | parameter | templateParameter => 1
  | classType | structType | classTemplate | enumType => 2
  | enumConstant => 3
  | macroDefinition => 4
  | _ => 5

/-- The name of a kind in a sentence; empty for kinds that are not named. -/
def word : CursorKind → String
  | function => "function"
  | method => "method"
  | constructor => "constructor"
  | destructor => "destructor"
  | functionTemplate => "function template"
  | var => "variable"
  | field => "field"
  | parameter => "parameter"
  | templateParameter => "template parameter"
  | enumConstant => "enum constant"
  | structType => "struct"
  | classType => "class"
  | unionType => "union"
  | enumType => "enum"
  | typedefName => "typedef"
  | classTemplate => "class template"
  | macroDefinition | macroExpansion => "macro"
  | _ => ""

end CursorKind

/-- A parameter of a function; its name may be empty. -/
structure Parameter where
  typeName : String
  name : String
  deriving DecidableEq, Repr

/-- A node of a compilation unit. `usr` names the entity it belongs to across units and is empty
where there is none. -/
structure Cursor where
  id : Nat
  kind : CursorKind := .other
  spelling : String := ""
  displayName : String := ""
  usr : String := ""
  location : Location := default
  extentEnd : Location := default
  resultType : String := ""
  typeName : String := ""
  isDefinition : Bool := false
  isStatic : Bool := false
  isVariadic : Bool := false
  parameters : List Parameter := []
  briefComment : Option String := none
  rawComment : Option String := none
  deriving Repr

end SketchSense
