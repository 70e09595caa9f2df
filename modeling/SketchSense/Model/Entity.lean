import SketchSense.Diagnostic.Collect
import SketchSense.Model.Declaration
import SketchSense.Text.Search

/-!
# What a file declares

Each declaration and each `#define` of a file makes an entity: a cursor, the cursors below it and
the words of its body, which may refer to other entities.

* `Entity`, with the cursors of functions, records, members, variables and macros;
* `FileModel.ofBuffer`, the entities and the reported errors and warnings of a file.
-/

namespace SketchSense.Model

/-- A cursor that is not yet numbered, with the length of its name. -/
structure Named where
  cursor : Cursor
  nameLength : Nat

/-- A top-level cursor with the cursors directly below it. -/
structure Entity where
  top : Named
  below : List Named := []
  /-- Words that may refer to entities; they are in the first cursor below. -/
  uses : List Token := []

def Place.inFile (p : Place) (file : FilePath) : Location := ⟨file, p.line, p.column⟩

/-- Location of the name and of the end of a name that stands alone. -/
def Token.location (t : Token) (file : FilePath) : Location := t.place.inFile file

def Token.endLocation (t : Token) (file : FilePath) : Location := t.stop.inFile file

/-! ## Functions -/

/-- The parameter types of a function as they are shown. -/
def FunctionHead.argumentText (h : FunctionHead) : String :=
  ", ".intercalate (h.parameters.map (·.typeName) ++ if h.isVariadic then ["..."] else [])

/-- The cursor of a function. -/
def FunctionHead.cursor (h : FunctionHead) (file : FilePath) (isDefinition : Bool)
    (extentEnd : Location) : Cursor :=
  let name := h.name.text
  { id := 0
    kind := .function
    spelling := name
    displayName := s!"{name}({h.argumentText})"
    usr := "c:@F@" ++ name
    location := h.name.location file
    extentEnd
    resultType := h.resultType
    typeName := s!"{h.resultType} ({h.argumentText})"
    isDefinition
    isStatic := h.isStatic
    isVariadic := h.isVariadic
    parameters := h.parameters }

/-- The cursor of a parameter, at the first place behind the function's name where it is named. -/
def FunctionHead.parameter? (h : FunctionHead) (file : FilePath) (p : Parameter) : Option Named :=
  if p.name = "" then none
  else (h.rest.find? (·.isWord p.name)).map fun t =>
    ⟨{ id := 0
       kind := .parameter
       spelling := p.name
       displayName := p.name
       location := t.location file
       extentEnd := t.endLocation file
       typeName := p.typeName
       isDefinition := true }, t.length⟩

/-- A function with its body and its parameters. -/
def FunctionHead.defined (h : FunctionHead) (file : FilePath) (block : Block)
    (inside : List Token) : Entity :=
  let stop := block.last.endLocation file
  let body : Named :=
    ⟨{ id := 0, kind := .compound, location := block.opening.location file, extentEnd := stop }, 0⟩
  { top := ⟨h.cursor file true stop, h.name.length⟩
    below := body :: h.parameters.filterMap (h.parameter? file)
    uses := inside.filter fun t => t.word?.isSome }

/-- The end of the last of some tokens. -/
def lastEnd (file : FilePath) (ts : List Token) : Location :=
  (ts.getLast?.map (·.endLocation file)).getD default

/-! ## Members of records -/

def mentionsCall (ts : List Token) : Bool := ts.any (·.isMark '(')

/-- The tokens before a `=`. -/
def declarator (ts : List Token) : List Token := ts.takeWhile (!·.isMark '=')

/-- A member function or a field. -/
def member? (file : FilePath) (owner : String) (d : Declaration) : Option Named :=
  match FunctionHead.read? d.tokens with
  | some head =>
    let stop := match d.block with
      | some block => block.last.endLocation file
      | none => lastEnd file d.tokens
    let cursor := head.cursor file d.block.isSome stop
    some ⟨{ cursor with kind := .method, usr := s!"c:@S@{owner}@F@{head.name.text}" },
      head.name.length⟩
  | none =>
    let decl := declarator d.tokens
    match decl.getLast? with
    | some t =>
      match t.word? with
      | some name =>
        if d.block.isSome ∨ d.tokens.length < 2 ∨ mentionsCall d.tokens ∨ decl.length < 2 then none
        else some
          ⟨{ id := 0
             kind := .field
             spelling := name
             displayName := name
             usr := s!"c:@S@{owner}@FI@{name}"
             location := t.location file
             extentEnd := t.endLocation file
             typeName := typeText decl.dropLast
             isDefinition := true }, t.length⟩
      | none => none
    | none => none

/-- The kind of record that a word introduces. -/
def recordKind? (t : Token) : Option CursorKind :=
  match t.word? with
  | some "struct" => some .structType
  | some "class" => some .classType
  | some "union" => some .unionType
  | some "enum" => some .enumType
  | _ => none

/-- A record or an enumeration with a name; enumerators are not read. -/
def record? (file : FilePath) (head : List Token) (block : Block) : Except Fault (Option Entity) :=
  match head with
  | first :: t :: _ =>
    match recordKind? first, t.word? with
    | some kind, some name =>
      let top : Named :=
        ⟨{ id := 0
           kind
           spelling := name
           displayName := name
           usr := "c:@S@" ++ name
           location := t.location file
           extentEnd := block.last.endLocation file
           typeName := name
           isDefinition := true }, t.length⟩
      if kind = .enumType then .ok (some { top })
      else match block.inside with
        | .error e => .error e
        | .ok inside =>
          .ok (some { top, below := (declarations true inside).filterMap (member? file name) })
    | _, _ => .ok none
  | _ => .ok none

/-! ## Statements -/

/-- The kind and the key of what a statement declares that is no function. -/
def variableKind? (first : Option String) (name : String) : Option (CursorKind × String) :=
  match first with
  | some "typedef" => some (.typedefName, "c:@T@" ++ name)
  | some "return" | some "using" | some "struct" | some "class" | some "enum" | some "union" =>
    none
  | _ => some (.var, "c:@" ++ name)

/-- A declared function, a variable or a typedef. -/
def statement? (file : FilePath) (ts : List Token) : Option Entity :=
  match FunctionHead.read? ts with
  | some head => some { top := ⟨head.cursor file false (lastEnd file ts), head.name.length⟩ }
  | none =>
    let decl := declarator ts
    match decl.getLast? with
    | none => none
    | some t =>
      match t.word? with
      | none => none
      | some name =>
        if decl.length < 2 ∨ mentionsCall decl then none
        else (variableKind? (decl.head?.bind Token.word?) name).map fun (kind, usr) =>
          let types := decl.dropLast.filter fun t => !t.isStorage && !t.isWord "typedef"
          { top :=
              ⟨{ id := 0
                 kind
                 spelling := name
                 displayName := name
                 usr
                 location := t.location file
                 extentEnd := t.endLocation file
                 typeName := typeText types
                 isDefinition := !decl.any (·.isWord "extern")
                 isStatic := decl.any (·.isWord "static") }, t.length⟩ }

/-- The entity that a declaration makes, if any. -/
def Declaration.entity? (file : FilePath) (d : Declaration) : Except Fault (Option Entity) :=
  match d.block with
  | none => .ok (statement? file d.tokens)
  | some block =>
    match FunctionHead.read? d.tokens with
    | none => record? file d.tokens block
    | some head =>
      match block.inside with
      | .error e => .error e
      | .ok inside => .ok (some (head.defined file block inside))

/-! ## Directives -/

/-- What a directive asks for. -/
inductive DirectiveKind where
  | error (message : List Char)
  | warning (message : List Char)
  | define (rest : List Char)
  | other

def Directive.kind (d : Directive) : DirectiveKind :=
  match Text.after? "error".toList d.body with
  | some rest => .error (Text.trim rest)
  | none =>
    match Text.after? "warning".toList d.body with
    | some rest => .warning (Text.trim rest)
    | none =>
      match Text.after? "define".toList d.body with
      | some rest => .define rest
      | none => .other

def Directive.location (d : Directive) (file : FilePath) : Location := d.place.inFile file

/-- The message of an `#error` or a `#warning`. -/
def Directive.report? (file : FilePath) (d : Directive) : Option RawDiagnostic :=
  match d.kind with
  | .error message => some (.at .error (d.location file) (String.ofList message))
  | .warning message => some (.at .warning (d.location file) (String.ofList message))
  | _ => none

/-- Bytes from the `#` of a definition to the blank space before its name. -/
def defineWidth : Nat := "#define".length

/-- The macro of a `#define`. -/
def Directive.macro? (file : FilePath) (d : Directive) : Option Entity :=
  match d.kind with
  | .define rest =>
    let name := (Text.trimStart rest).takeWhile isWordPart
    let blank := rest.takeWhile Text.isBlank
    let column := d.place.column + defineWidth + Text.utf8Length blank
    let spelling := String.ofList name
    if name = [] then none
    else some
      { top :=
          ⟨{ id := 0
             kind := .macroDefinition
             spelling
             displayName := spelling
             usr := "c:macro@" ++ spelling
             location := ⟨file, d.place.line, column⟩
             extentEnd := ⟨file, d.place.line, column + name.length⟩
             isDefinition := true }, name.length⟩ }
  | _ => none

/-! ## Files -/

/-- What a file declares and reports. -/
structure FileModel where
  entities : List Entity
  diagnostics : List RawDiagnostic

/-- What a file declares: its macros first, then its declarations in order. -/
def FileModel.ofBuffer (b : FileBuffer) : Except Fault FileModel := do
  let lexed ← lex b.code
  let declared ← (declarations false lexed.tokens).mapM (Declaration.entity? b.path)
  return {
    entities := lexed.directives.filterMap (Directive.macro? b.path) ++ declared.filterMap id
    diagnostics := lexed.directives.filterMap (Directive.report? b.path) }

end SketchSense.Model
