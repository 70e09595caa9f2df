import SketchSense.Cache.Builder
import SketchSense.Symbol.Kind

/-!
# Symbols of a unit

* `Symbol`, a declared name in the sketch's coordinates;
* `CachedUnit.symbols`, all symbols of a unit, and `CachedUnit.members`, those of one entity;
* `Container` and `CachedUnit.container?`, the record or namespace around a position.
-/

namespace SketchSense

/-- A declared name. -/
structure Symbol where
  name : String
  displayName : String
  location : Location
  kind : SymbolKind
  parameters : List Parameter
  body : Option BodyRange
  usr : String
  deriving Repr

/-! ## Symbols -/

/-- The body of a function that is in the same file as its name. -/
def CompilationUnit.bodyOf? (u : CompilationUnit) (c : Cursor) : Option Cursor :=
  if c.kind.isFunctionLike then
    (u.children c).find? fun b =>
      b.kind = .compound && b.location.file == c.location.file
        && b.extentEnd.file == c.location.file
  else none

namespace CachedUnit

/-- The extent of the body of a function, in the sketch's coordinates. -/
def bodyRange? (e : CachedUnit) (c : Cursor) : Option BodyRange := do
  let body ← e.unit.bodyOf? c
  let start ← e.map.toEdited body.location
  let stop ← e.map.toEdited body.extentEnd
  return ⟨start.line, start.column, stop.line, stop.column⟩

/-- The name shown for a symbol. Constructors and destructors have no result type. -/
def shownName (kind : SymbolKind) (c : Cursor) : String :=
  let shown := if c.displayName = "" then c.spelling else c.displayName
  if kind = .constructor ∨ kind = .destructor then
    match Text.after? "void ".toList shown.toList with
    | some rest => String.ofList rest
    | none => shown
  else shown

/-- The symbol of a cursor, if it declares a name in the sketch's coordinates. -/
def symbol? (e : CachedUnit) (c : Cursor) : Option Symbol :=
  match SymbolKind.ofCursor? c.kind with
  | none => none
  | some kind =>
    if c.spelling = "" ∨ c.location.isUnknown then none
    else (e.map.toEdited c.location).map fun location =>
      { name := c.spelling
        displayName := shownName kind c
        location
        kind
        parameters := if kind.isFunctionLike then c.parameters else []
        body := if kind.isFunctionLike then e.bodyRange? c else none
        usr := c.usr }

end CachedUnit

/-- Order by name, file and line. -/
def Symbol.compare (a b : Symbol) : Ordering :=
  (Ord.compare a.name b.name).then
    ((a.location.file.compare b.location.file).then (Ord.compare a.location.line b.location.line))

/-- Whether two cursors stand for one entity: by key, or else by node. -/
def Cursor.sameEntity (a b : Cursor) : Bool :=
  if a.usr ≠ "" ∧ b.usr ≠ "" then a.usr = b.usr else a.id = b.id

namespace CachedUnit

/-- All symbols of a unit. -/
def symbols (e : CachedUnit) : List Symbol :=
  sortBy Symbol.compare (e.unit.preorder.filterMap fun (c, _) => e.symbol? c)

/-- Whether a cursor is directly below an entity. -/
def isBelow (e : CachedUnit) (owner : Cursor) (parent : Option Cursor) : Bool :=
  match parent with
  | some p => (e.unit.canonical p).sameEntity (e.unit.canonical owner)
  | none => false

/-- The symbols directly below an entity, in all its declarations. -/
def members (e : CachedUnit) (owner : Cursor) : List Symbol :=
  sortBy Symbol.compare <| e.unit.preorder.filterMap fun (c, parent) =>
    if e.isBelow owner parent then e.symbol? c else none

end CachedUnit

/-! ## Containers -/

/-- A record, an enumeration or a namespace with its members. -/
structure Container where
  name : String
  kind : CursorKind
  location : Location
  members : List Symbol
  deriving Repr

/-- Whether a location is in the extent of a cursor. -/
def Cursor.covers (c : Cursor) (l : Location) : Bool :=
  let isBefore (a b : Location) : Bool :=
    a.line < b.line || (a.line = b.line && a.column < b.column)
  c.location.file == l.file && c.extentEnd.file == l.file
    && !isBefore l c.location && isBefore l c.extentEnd

/-- The innermost container around a position. An inner one comes later in the tree. -/
def CachedUnit.container? (e : CachedUnit) (line column : Nat) :
    Except Fault (Option Container) := do
  let l ← e.map.toAnalyzed line column
  let around := e.unit.preorder.filter fun (c, _) => c.kind.isContainer && c.covers l
  return around.getLast?.bind fun (c, _) =>
    (e.map.toEdited c.location).map fun location =>
      ⟨c.spelling, c.kind, location, e.members c⟩

end SketchSense
