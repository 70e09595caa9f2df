import SketchSense.Cache.Arguments
import SketchSense.FilePath.Root
import SketchSense.Sketch.Sources

/-!
# Building units

* `CachedUnit`, a compilation unit with what it was built from;
* `UnitBuilder`, the engine, the arguments and what is remembered between builds, and `BuildM`,
  a computation that builds units;
* `build`, which climbs down the recovery ladder, `reparse` and `parseDetached`.
-/

namespace SketchSense

/-- A compilation unit with what it was built from. -/
structure CachedUnit where
  /-- Normalised path of the file. -/
  key : FilePath
  /-- Hash of the text it was last parsed with. -/
  contentHash : ContentHash
  map : CoordinateMap
  unit : CompilationUnit
  /-- The texts of the last parse. -/
  unsaved : List FileBuffer
  /-- The arguments it was created with. -/
  args : List String
  /-- Number of attempts that failed before it was created. -/
  recovery : Nat
  deriving Repr

/-- The messages of a unit, collected for a sketch. -/
def CachedUnit.diagnostics {σ : Type} (c : CachedUnit) (e : Engine σ) (s : σ) (root : FilePath) :
    List Diagnostic :=
  Scope.collect ⟨root, c.map⟩ (e.diagnostics s c.unit)

/-- All attempts to parse a file failed. -/
structure CacheError where
  path : FilePath
  attempts : Nat
  /-- The failure of the last attempt. -/
  reason : String
  deriving Repr

def CacheError.message (e : CacheError) : String :=
  s!"failed to parse {e.path.text} after {e.attempts} attempts: {e.reason}"

/-- What units are built with. -/
structure UnitBuilder (σ : Type) where
  engine : Engine σ
  /-- Arguments of a file before anything is added. -/
  provider : FilePath → List String
  profile : ArgumentProfile
  /-- Directory of the sketch; relative paths are taken from it. -/
  root : FilePath
  transformer : Transformer := {}

/-- A computation that builds units. -/
abbrev BuildM (σ : Type) := StateT (UnitBuilder σ) (EngineM σ)

/-- A request for every attempt, on the same texts. -/
def Sources.request (s : Sources) (unsaved : List FileBuffer) (a : Attempt) : ParseRequest :=
  ⟨s.main.path, a.args, unsaved, a.options⟩

/-- A unit with the attempt that made it and the number of those that failed before. -/
structure Recovered where
  unit : CompilationUnit
  attempt : Attempt
  failures : Nat

/-- Parses with one attempt after the other until one succeeds. `reason` is the failure of the
attempt before. -/
def tryAttempts {σ : Type} (e : Engine σ) (request : Attempt → ParseRequest) (failures : Nat)
    (reason : String) : List Attempt → EngineM σ (Except String Recovered)
  | [] => return .error reason
  | a :: rest => do
    match ← e.parse (request a) with
    | .ok unit => return .ok ⟨unit, a, failures⟩
    | .error err => tryAttempts e request (failures + 1) (a.label ++ ": " ++ err.message) rest

namespace UnitBuilder

variable {σ : Type}

/-- The key of a path: absolute, without `.` and `..`. -/
def key (b : UnitBuilder σ) (path : FilePath) : FilePath := path.normalize b.root

/-- The argument list from which a new unit starts. -/
def arguments (b : UnitBuilder σ) (path : FilePath) : List String :=
  compileArguments (b.provider path) path.analyzedName b.profile

/-- Forgets what is remembered between builds. -/
def clear (b : UnitBuilder σ) : UnitBuilder σ := { b with transformer := {} }

/-- Parses a text on its own, outside every cache. -/
def parseDetached (b : UnitBuilder σ) (path : FilePath) (code : String) :
    EngineM σ (Except EngineError CompilationUnit) :=
  b.engine.parse (scanRequest path code (b.provider path))

end UnitBuilder

variable {σ : Type}

/-- The texts of a file for the engine. -/
def buildSources (path : FilePath) (code : String) : BuildM σ Sources := do
  let b ← get
  let (s, transformer) ← b.transformer.sources b.engine path code (b.provider path)
  set { b with transformer }
  return s

/-- A new unit for a key; `extra` texts are given along with its own. -/
def build (key : FilePath) (code : String) (extra : List FileBuffer) :
    BuildM σ (Except CacheError CachedUnit) := do
  let s ← buildSources key code
  let b ← get
  let unsaved := s.unsaved ++ extra
  let args := compileArguments (b.provider key) s.main.path b.profile
  let attempts := recoveryLadder args s.main.path b.profile.coreInclude
  match ← tryAttempts b.engine (s.request unsaved) 0 "" attempts with
  | .ok r =>
    return .ok
      { key
        contentHash := .ofText code
        map := s.map
        unit := r.unit
        unsaved
        args := r.attempt.args
        recovery := r.failures }
  | .error reason => return .error ⟨key, attempts.length, reason⟩

/-- A unit with a new text, parsed with the arguments it has. -/
def reparse (c : CachedUnit) (code : String) (extra : List FileBuffer) :
    BuildM σ (Except EngineError CachedUnit) := do
  let s ← buildSources c.key code
  if ¬ (s.main.path == c.map.analyzed) then
    return .error (.reparseFailed c.map.analyzed s!"analyzed name changed to {s.main.path.text}")
  else
    let b ← get
    let unsaved := s.unsaved ++ extra
    match ← b.engine.reparse c.unit unsaved with
    | .ok unit => return .ok { c with contentHash := .ofText code, map := s.map, unit, unsaved }
    | .error e => return .error e

end SketchSense
