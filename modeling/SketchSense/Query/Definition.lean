import SketchSense.Query.Sibling

/-!
# Going to a definition

* `findDefinition?`, where the name at a position is defined or declared.
-/

namespace SketchSense

variable {σ : Type}

/-- Where a cursor leads: to what it refers to, but not into a generated header if the definition is
known. -/
def jumpCursor? (reference definition : Option Cursor) : Option Cursor :=
  match reference, definition with
  | some r, some d => if r.location.file.isPrototypeHeader then some d else some r
  | some r, none => some r
  | none, d => d

/-- The place of a cursor in the sketch, if it has one. -/
def CachedUnit.jumpTo? (e : CachedUnit) (c : Cursor) : Option Location :=
  if c.location.isUnknown then none else e.map.toEdited c.location

/-- Where the name at a position leads. From a header the source beside it is asked first. -/
def findDefinition? (b : UnitBuilder σ) (texts : SourceTexts) (e : CachedUnit) (line column : Nat) :
    EngineM σ (Option Location) := do
  let l ← ExceptT.mk (pure (e.map.toAnalyzed line column))
  match e.unit.cursorAt l with
  | none => return none
  | some c =>
    let reference := e.unit.referenced c
    let definition := e.unit.definition c
    let here := (jumpCursor? reference definition).bind e.jumpTo?
    if c.location.file.kind = .header then
      match reference.or definition with
      | some symbol =>
        match ← siblingDefinition? b texts symbol with
        | some l => return some l
        | none => return here
      | none => return here
    else return here

end SketchSense
