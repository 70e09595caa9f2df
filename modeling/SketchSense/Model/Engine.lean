import SketchSense.Engine.Basic
import SketchSense.Model.Build

/-!
# The model engine

The model engine reads the model language. It counts and records what it is asked for, and can be
told to fail and to report more than it finds.

* `ModelState`, the state of the engine;
* `modelEngine`, the engine.
-/

namespace SketchSense.Model

/-- What the engine was asked to parse, and whether it was told to fail. -/
structure ParseRecord where
  mainFile : FilePath
  args : List String
  options : ParseOptions
  unsaved : List FilePath
  failed : Bool

/-- State of the model engine. -/
structure ModelState where
  parses : Nat := 0
  reparses : Nat := 0
  /-- The parses that fail. -/
  failsOn : ParseRequest → Bool := fun _ => false
  reparseFails : Bool := false
  extraDiagnostics : List RawDiagnostic := []
  extraCandidates : List Candidate := []
  /-- All parses so far, in order. -/
  recorded : List ParseRecord := []

namespace ModelState

/-- Forgets what was counted and recorded. -/
def resetCounts (s : ModelState) : ModelState :=
  { s with parses := 0, reparses := 0, recorded := [] }

def calls (s : ModelState) : Nat := s.parses + s.reparses

end ModelState

/-- The reason given for a failure the engine was told of. -/
def failureReason : String := "scripted failure"

def parse (r : ParseRequest) : EngineM ModelState (Except EngineError CompilationUnit) := do
  let s ← get
  let failed := s.failsOn r
  let entry : ParseRecord := ⟨r.mainFile, r.args, r.options, r.unsaved.map (·.path), failed⟩
  set { s with parses := s.parses + 1, recorded := s.recorded ++ [entry] }
  if failed then return .error (.parseFailed r.mainFile failureReason)
  else if r.mainCode?.isNone then return .error (.missingMainFile r.mainFile)
  else return .ok (← ExceptT.mk (pure (buildUnit r.mainFile r.unsaved)))

def reparse (u : CompilationUnit) (unsaved : List FileBuffer) :
    EngineM ModelState (Except EngineError CompilationUnit) := do
  let s ← get
  set { s with reparses := s.reparses + 1 }
  if s.reparseFails then return .error (.reparseFailed u.mainFile failureReason)
  else return .ok (← ExceptT.mk (pure (buildUnit u.mainFile unsaved)))

end SketchSense.Model

namespace SketchSense

/-- The engine of the model language. -/
def modelEngine : Engine Model.ModelState where
  parse := Model.parse
  reparse := Model.reparse
  diagnostics s u := u.diagnostics ++ s.extraDiagnostics
  candidates s u _ _ := u.candidates ++ s.extraCandidates

end SketchSense
