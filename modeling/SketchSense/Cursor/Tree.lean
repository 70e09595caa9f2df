import SketchSense.Cursor.Basic
import SketchSense.Diagnostic.Collect

/-!
# Compilation units

A compilation unit is a table of nodes. A node knows its parent; its children are the nodes that
name it as their parent, in the order of the table.

* `Node` and `CompilationUnit`, with the links from a node to what it refers to;
* `CompilationUnit.walk`, the visit of the tree, parents before children, in which a visitor may
  leave out what is below a node or stop;
* `CompilationUnit.preorder`, the visit of all nodes.
-/

namespace SketchSense

/-- A completion proposed by the engine. -/
structure Candidate where
  text : String
  label : String
  resultType : String
  kind : CursorKind
  priority : Nat
  file : Option FilePath
  deriving Repr

/-- A node of a unit. Its links are positions in the table of nodes. -/
structure Node where
  cursor : Cursor
  parent : Option Nat
  /-- What the node refers to. -/
  referenced : Option Nat
  /-- Where the entity of the node is defined. -/
  definition : Option Nat
  /-- The first declaration of the entity of the node. -/
  canonical : Option Nat
  /-- Bytes of the name at the node's location; 0 if there is no name. -/
  nameLength : Nat
  deriving Repr

/-- Whether a location is on the name of a node. -/
def Node.isNamedAt (n : Node) (l : Location) : Bool :=
  n.cursor.location.file == l.file && n.cursor.location.line = l.line
    && n.cursor.location.column ≤ l.column
    && l.column < n.cursor.location.column + n.nameLength

/-- What the engine makes of a file and the files given with it. -/
structure CompilationUnit where
  mainFile : FilePath
  nodes : List Node
  diagnostics : List RawDiagnostic
  candidates : List Candidate
  deriving Repr

/-- How a visit goes on after a node. -/
inductive Walk where
  /-- With the children of the node. -/
  | descend
  /-- Without them. -/
  | skip
  /-- Not at all. -/
  | stop
  deriving DecidableEq, Repr

namespace CompilationUnit

/-! ## Nodes and links -/

def cursors (u : CompilationUnit) : List Cursor := u.nodes.map (·.cursor)

/-- The node of a cursor: the one at the cursor's position. -/
def node? (u : CompilationUnit) (c : Cursor) : Option Node :=
  u.nodes[c.id]?.filter fun n => n.cursor.id = c.id

def cursorAtIndex? (u : CompilationUnit) (i : Nat) : Option Cursor :=
  u.nodes[i]?.map (·.cursor)

def topLevel (u : CompilationUnit) : List Cursor :=
  (u.nodes.filter fun n => n.parent = none).map (·.cursor)

def children (u : CompilationUnit) (c : Cursor) : List Cursor :=
  (u.nodes.filter fun n => n.parent = some c.id).map (·.cursor)

/-- The first node whose name is at a location. -/
def cursorAt (u : CompilationUnit) (l : Location) : Option Cursor :=
  (u.nodes.find? fun n => n.isNamedAt l).map (·.cursor)

def referenced (u : CompilationUnit) (c : Cursor) : Option Cursor :=
  (u.node? c).bind fun n => n.referenced.bind u.cursorAtIndex?

def definition (u : CompilationUnit) (c : Cursor) : Option Cursor :=
  (u.node? c).bind fun n => n.definition.bind u.cursorAtIndex?

/-- The first declaration of the entity of a cursor, or the cursor itself. -/
def canonical (u : CompilationUnit) (c : Cursor) : Cursor :=
  ((u.node? c).bind fun n => n.canonical.bind u.cursorAtIndex?).getD c

/-! ## Visits -/

/-- The nodes of a visit, each with its parent, and whether the visit was stopped. -/
structure Visit where
  seen : List (Cursor × Option Cursor)
  stopped : Bool

/-- Visits nodes that have the same parent; `below` visits what is under a node. -/
def visitAll (visitor : Cursor → Option Cursor → Walk) (below : Cursor → Visit)
    (parent : Option Cursor) : List Cursor → Visit
  | [] => ⟨[], false⟩
  | c :: rest =>
    let inner : Visit :=
      match visitor c parent with
      | .descend => below c
      | .skip => ⟨[], false⟩
      | .stop => ⟨[], true⟩
    if inner.stopped then ⟨(c, parent) :: inner.seen, true⟩
    else
      let others := visitAll visitor below parent rest
      ⟨(c, parent) :: inner.seen ++ others.seen, others.stopped⟩

/-- Visits what is under a node, down to the given depth. -/
def visitBelow (u : CompilationUnit) (visitor : Cursor → Option Cursor → Walk) :
    Nat → Cursor → Visit
  | 0, _ => ⟨[], false⟩
  | depth + 1, c => visitAll visitor (visitBelow u visitor depth) (some c) (u.children c)

/-- Visits the tree, parents before children. No node is deeper than there are nodes. -/
def walk (u : CompilationUnit) (visitor : Cursor → Option Cursor → Walk) :
    List (Cursor × Option Cursor) :=
  (visitAll visitor (visitBelow u visitor u.nodes.length) none u.topLevel).seen

/-- All nodes, parents before children, each with its parent. -/
def preorder (u : CompilationUnit) : List (Cursor × Option Cursor) :=
  u.walk fun _ _ => .descend

end CompilationUnit

end SketchSense
