import SketchSense.Engine.Basic

/-!
# Prepared units

An engine that reads no text: it hands out units that were prepared for their main files.

* `CallCounts`, the state of such an engine;
* `preparedEngine`.
-/

namespace SketchSense

/-- Numbers of calls so far. -/
structure CallCounts where
  parses : Nat := 0
  reparses : Nat := 0
  deriving DecidableEq, Repr

/-- The engine that hands out prepared units. -/
def preparedEngine (unitFor : FilePath → Option CompilationUnit) : Engine CallCounts where
  parse r := do
    modify fun s => { s with parses := s.parses + 1 }
    match unitFor r.mainFile with
    | some unit => return .ok unit
    | none => return .error (.unavailable ("no script for " ++ r.mainFile.text))
  reparse unit _ := do
    modify fun s => { s with reparses := s.reparses + 1 }
    return .ok unit
  diagnostics _ unit := unit.diagnostics
  candidates _ unit _ _ := unit.candidates

end SketchSense
