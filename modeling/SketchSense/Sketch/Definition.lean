import SketchSense.Collation
import SketchSense.Engine.Basic
import SketchSense.Text.Blank

/-!
# Functions of a sketch

Functions of a sketch may be used before they are declared; their prototypes are found by parsing
the sketch on its own and are put into a generated header.

* `Definition`, a function of a sketch with its prototype, and `definitions?`, those of a sketch;
* `prototypeHeader`, the text of the generated header, and `generatedHeader`, that of a text.
-/

namespace SketchSense

/-- A function defined at the top level of a sketch. -/
structure Definition where
  name : String
  /-- Line of the name. -/
  line : Nat
  /-- The declaration without its `;`, or empty if there is no name or no result type. -/
  prototype : String
  deriving DecidableEq, Repr

/-- A parameter as it is declared. -/
def Parameter.declaration (p : Parameter) : String :=
  String.ofList (Text.trim (p.typeName ++ " " ++ p.name).toList)

/-- The declaration of a function without its `;`. -/
def Cursor.prototype (c : Cursor) : String :=
  if c.spelling = "" ∨ c.resultType = "" then ""
  else
    let parameters :=
      c.parameters.map Parameter.declaration ++ if c.isVariadic then ["..."] else []
    (if c.isStatic then "static " else "") ++ c.resultType ++ " " ++ c.spelling ++ "("
      ++ ", ".intercalate parameters ++ ")"

def Definition.ofCursor (c : Cursor) : Definition := ⟨c.spelling, c.location.line, c.prototype⟩

/-- The functions that a unit defines at the top level of `file`, by line. -/
def CompilationUnit.definitionsIn (u : CompilationUnit) (file : FilePath) : List Definition :=
  let defined := u.topLevel.filter fun c =>
    c.kind = .function && c.isDefinition && c.location.file == file
  sortBy (fun a b => compare a.line b.line) (defined.map .ofCursor)

/-- The request that looks for the functions of a text. -/
def scanRequest (path : FilePath) (code : String) (args : List String) : ParseRequest :=
  ⟨path, ["-x", "c++"] ++ args, [⟨path, code⟩], .scan⟩

/-- The functions of a text; none if it cannot be parsed. -/
def definitions? {σ : Type} (e : Engine σ) (path : FilePath) (code : String)
    (args : List String) : EngineM σ (Option (List Definition)) := do
  match ← e.parse (scanRequest path code args) with
  | .ok u => return some (u.definitionsIn path)
  | .error _ => return none

/-! ## The generated header -/

/-- The lines of one prototype, after a marker that names where it was found. -/
def Definition.headerLines (d : Definition) (origin : String) : String :=
  "#line " ++ toString d.line ++ " \"" ++ origin ++ "\"\n" ++ d.prototype ++ ";\n"

/-- The definitions whose prototypes are declared: each prototype once. -/
def declaredOnce (ds : List Definition) : List Definition :=
  keepFirst (·.prototype) (ds.filter (·.prototype ≠ ""))

/-- The header that declares the functions of a sketch; empty if there are none. -/
def prototypeHeader (path : FilePath) (ds : List Definition) : String :=
  match declaredOnce ds with
  | [] => ""
  | ds => "#pragma once\n" ++ String.join (ds.map (·.headerLines path.display))

/-- The header of a text; empty if it cannot be parsed. -/
def generatedHeader {σ : Type} (e : Engine σ) (path : FilePath) (code : String)
    (args : List String) : EngineM σ String := do
  return ((← definitions? e path code args).map (prototypeHeader path)).getD ""

end SketchSense
