import SketchSense.Cache.Builder

/-!
# Occurrences of a name

* `OccurrenceTarget`, the entity whose occurrences are looked for, and `CachedUnit.target?`, the one
  at a position;
* `CachedUnit.occurrences`, where a unit uses an entity.
-/

namespace SketchSense

/-- Where occurrences are looked for. -/
inductive OccurrenceScope where
  | currentFile
  | project
  deriving DecidableEq, Repr

/-- An entity: its first declaration and the file in whose unit that was found. -/
structure OccurrenceTarget where
  canonical : Cursor
  origin : FilePath
  deriving Repr

namespace CachedUnit

/-- The entity that the name at a position belongs to. -/
def target? (e : CachedUnit) (line column : Nat) : Except Fault (Option OccurrenceTarget) := do
  let l ← e.map.toAnalyzed line column
  return (e.unit.cursorAt l).map fun c =>
    let target := ((e.unit.definition c).or (e.unit.referenced c)).getD c
    ⟨e.unit.canonical target, e.key⟩

/-- The first declaration of what a cursor refers to, or of its own entity. -/
def entityOf (e : CachedUnit) (c : Cursor) : Cursor :=
  e.unit.canonical ((e.unit.referenced c).getD c)

/-- Whether a cursor belongs to an entity: by key, or within its own unit by node. -/
def isOccurrence (e : CachedUnit) (target : OccurrenceTarget) (c : Cursor) : Bool :=
  let entity := e.entityOf c
  (target.canonical.usr ≠ "" && entity.usr = target.canonical.usr)
    || (e.key == target.origin && entity.id = target.canonical.id)

/-- The places in the sketch's coordinates where a unit uses an entity; with a root only those
inside it. -/
def occurrences (e : CachedUnit) (target : OccurrenceTarget) (root : Option FilePath) :
    List Location :=
  e.unit.preorder.filterMap fun (c, _) =>
    if e.isOccurrence target c ∧ ¬ c.location.isUnknown then
      (e.map.toEdited c.location).filter fun l => root.all fun root => l.file.isInside root
    else none

end CachedUnit

end SketchSense
