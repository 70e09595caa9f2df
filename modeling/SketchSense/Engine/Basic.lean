import SketchSense.Cursor.Tree

/-!
# The engine

An engine turns files into compilation units. It has a state of its own and may fail, differently
at every call; nothing else in this library depends on which engine is used.

* `ParseOptions`, the flags of a parse;
* `ParseRequest` and `EngineError`;
* `Engine`, the interface, and `EngineM`, a computation that uses an engine.
-/

namespace SketchSense

/-! ## Options -/

/-- Flags of a parse. -/
structure ParseOptions where
  /-- Keep a record of what the preprocessor did. -/
  detailedRecord : Bool := false
  /-- Compile the leading includes once and use them again. -/
  compiledPreamble : Bool := false
  preambleAtFirstParse : Bool := false
  briefComments : Bool := false
  keepGoing : Bool := false
  /-- Skip function bodies in the leading includes only. -/
  preambleLimit : Bool := false
  deriving DecidableEq, Repr

namespace ParseOptions

/-- The flags as a bit set. -/
def bits (o : ParseOptions) : Nat :=
  o.detailedRecord.toNat + 4 * o.compiledPreamble.toNat + 8 * o.preambleAtFirstParse.toNat
    + 16 * o.briefComments.toNat + 32 * o.keepGoing.toNat + 64 * o.preambleLimit.toNat

/-- The flags of a bit set; bits without a flag are left out. -/
def ofBits (n : Nat) : ParseOptions :=
  ⟨n.testBit 0, n.testBit 2, n.testBit 3, n.testBit 4, n.testBit 5, n.testBit 6⟩

theorem ofBits_bits (o : ParseOptions) : ofBits o.bits = o := by
  obtain ⟨a, b, c, d, e, f⟩ := o
  cases a <;> cases b <;> cases c <;> cases d <;> cases e <;> cases f <;> rfl

/-- What is used while a file is edited. -/
def editing : ParseOptions := ⟨true, true, true, true, true, true⟩

/-- What is used to look for the functions of a sketch. -/
def scan : ParseOptions := { keepGoing := true }

def withoutPreambleLimit (o : ParseOptions) : ParseOptions := { o with preambleLimit := false }

end ParseOptions

/-! ## Requests and errors -/

/-- A file to parse, with arguments and with texts that stand in for files. -/
structure ParseRequest where
  mainFile : FilePath
  args : List String
  unsaved : List FileBuffer
  options : ParseOptions

/-- The text given for the main file. -/
def ParseRequest.mainCode? (r : ParseRequest) : Option String :=
  (r.unsaved.find? fun b => b.path == r.mainFile).map (·.code)

/-- Why an engine has no unit. -/
inductive EngineError where
  | parseFailed (file : FilePath) (reason : String)
  | reparseFailed (file : FilePath) (reason : String)
  /-- No text was given for the main file. -/
  | missingMainFile (file : FilePath)
  | unavailable (reason : String)
  deriving Repr

def EngineError.message : EngineError → String
  | parseFailed file reason => s!"failed to parse {file.text}: {reason}"
  | reparseFailed file reason => s!"failed to reparse {file.text}: {reason}"
  | missingMainFile file => s!"no unsaved buffer for main file {file.text}"
  | unavailable reason => s!"analysis engine unavailable: {reason}"

/-! ## The interface -/

/-- A computation that uses an engine with states of type `σ`. A fault ends it; what the engine
has done until then stays done. -/
abbrev EngineM (σ : Type) := ExceptT Fault (StateM σ)

/-- An engine with states of type `σ`. -/
structure Engine (σ : Type) where
  parse : ParseRequest → EngineM σ (Except EngineError CompilationUnit)
  /-- Parses the main file of a unit again, with new texts. -/
  reparse : CompilationUnit → List FileBuffer → EngineM σ (Except EngineError CompilationUnit)
  diagnostics : σ → CompilationUnit → List RawDiagnostic
  /-- Completions at a location, given the current texts. -/
  candidates : σ → CompilationUnit → Location → List FileBuffer → List Candidate

end SketchSense
