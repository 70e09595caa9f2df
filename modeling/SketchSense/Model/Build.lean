import SketchSense.Cursor.Tree
import SketchSense.Model.Entity

/-!
# Units of the model engine

Entities are numbered in the order in which they are declared; then every word in a body that is
the name of an entity becomes a node that refers to it.

* `numberAll`, the declared nodes, and `Use.draft?`, a node that refers to one of them;
* `link`, the links of a node by the key of its entity;
* `buildUnit`, the unit of a main file and the texts given with it.
-/

namespace SketchSense.Model

/-! ## Numbering -/

/-- A node whose links are not yet known. `target` is what a reference refers to. -/
structure Draft where
  cursor : Cursor
  parent : Option Nat
  target : Option Nat
  nameLength : Nat

def Named.draft (n : Named) (id : Nat) (parent : Option Nat) : Draft :=
  ⟨{ n.cursor with id }, parent, none, n.nameLength⟩

/-- Numbers the cursors below a node. -/
def numberBelow (parent : Nat) : Nat → List Named → List Draft
  | _, [] => []
  | id, n :: ns => n.draft id (some parent) :: numberBelow parent (id + 1) ns

def Entity.size (e : Entity) : Nat := 1 + e.below.length

def Entity.drafts (e : Entity) (id : Nat) : List Draft :=
  e.top.draft id none :: numberBelow id (id + 1) e.below

/-- A word in the body of a function, and the number of that body. -/
structure Use where
  file : FilePath
  token : Token
  owner : Nat

def Entity.pending (e : Entity) (id : Nat) : List Use :=
  e.uses.map fun t => ⟨e.top.cursor.location.file, t, id + 1⟩

/-- Numbers entities one after the other. -/
def numberAll (id : Nat) : List Entity → List Draft
  | [] => []
  | e :: es => e.drafts id ++ numberAll (id + e.size) es

/-- The uses of names in the bodies of entities that are numbered one after the other. -/
def usesOf (id : Nat) : List Entity → List Use
  | [] => []
  | e :: es => e.pending id ++ usesOf (id + e.size) es

theorem length_numberBelow (parent id : Nat) (ns : List Named) :
    (numberBelow parent id ns).length = ns.length := by
  induction ns generalizing id with
  | nil => rfl
  | cons n ns ih => simp [numberBelow, ih]

theorem length_drafts (e : Entity) (id : Nat) : (e.drafts id).length = e.size := by
  simp [Entity.drafts, Entity.size, length_numberBelow, Nat.add_comm]

/-! ## References -/

/-- Whether a name can be referred to: parameters cannot. -/
def isTarget (c : Cursor) : Bool := c.kind.isSymbol && c.kind ≠ .parameter

/-- The first declared entity of a name. -/
def target? (declared : List Draft) (name : String) : Option Cursor :=
  (declared.map (·.cursor)).find? fun c => isTarget c && c.spelling = name

/-- The node of a use, if it is the name of an entity. -/
def Use.draft? (declared : List Draft) (u : Use) : Option Draft := do
  let name ← u.token.word?
  let target ← target? declared name
  let kind := if target.kind = .macroDefinition then .macroExpansion else .declReference
  return {
    cursor :=
      { id := 0
        kind
        spelling := name
        displayName := name
        usr := target.usr
        location := u.token.location u.file
        extentEnd := u.token.endLocation u.file
        typeName := target.typeName }
    parent := some u.owner
    target := some target.id
    nameLength := u.token.length }

/-- Numbers nodes from `id` on. -/
def renumber (id : Nat) : List Draft → List Draft
  | [] => []
  | d :: ds => { d with cursor := { d.cursor with id } } :: renumber (id + 1) ds

/-! ## Links -/

/-- The first cursor of an entity that satisfies `p`. -/
def firstOf (cursors : List Cursor) (usr : String) (p : Cursor → Bool) : Option Nat :=
  if usr = "" then none
  else (cursors.find? fun c => c.usr = usr && c.kind.isSymbol && p c).map (·.id)

/-- A node with its links: a declaration refers to itself. -/
def link (cursors : List Cursor) (d : Draft) : Node where
  cursor := d.cursor
  parent := d.parent
  referenced := d.target.or (if d.cursor.kind.isSymbol then some d.cursor.id else none)
  definition := firstOf cursors d.cursor.usr (·.isDefinition)
  canonical :=
    if d.cursor.kind.isSymbol then firstOf cursors d.cursor.usr fun _ => true else none
  nameLength := d.nameLength

/-! ## Units -/

/-- The nodes of a list of entities. -/
def draftsOf (entities : List Entity) : List Draft :=
  let declared := numberAll 0 entities
  declared ++ renumber declared.length ((usesOf 0 entities).filterMap (Use.draft? declared))

/-- A completion for a declared name. -/
def candidate (c : Cursor) : Candidate :=
  let parameterText (p : Parameter) :=
    String.ofList (Text.trim (s!"{p.typeName} {p.name}").toList)
  { text := c.spelling
    label :=
      if c.kind.isFunctionLike then
        c.spelling ++ "(" ++ ", ".intercalate (c.parameters.map parameterText) ++ ")"
      else c.spelling
    resultType := c.resultType
    kind := c.kind
    priority := 50
    file := some c.location.file }

/-- The texts with the main file last. -/
def mainLast (main : FilePath) (unsaved : List FileBuffer) : List FileBuffer :=
  unsaved.filter (!·.path == main) ++ unsaved.filter (·.path == main)

/-- The unit of a main file and the texts given with it. -/
def buildUnit (main : FilePath) (unsaved : List FileBuffer) : Except Fault CompilationUnit := do
  let files ← (mainLast main unsaved).mapM FileModel.ofBuffer
  let drafts := draftsOf (files.flatMap (·.entities))
  let cursors := drafts.map (·.cursor)
  return {
    mainFile := main
    nodes := drafts.map (link cursors)
    diagnostics := files.flatMap (·.diagnostics)
    candidates := (cursors.filter isTarget).map candidate }

end SketchSense.Model
