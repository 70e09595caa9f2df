import SketchSense.Cache.Project
import SketchSense.Completion.Complete
import SketchSense.Diagnostic.Change
import SketchSense.Query.Definition
import SketchSense.Query.Hover
import SketchSense.Query.Occurrence
import SketchSense.Settings
import SketchSense.Symbol.Cache

/-!
# The analysis

Everything that is kept about a sketch, and the operations on it. They run one at a time; each may
bring units up to date, so an answer depends on the operations before only through what they kept.

* `AnalysisCore` and `CoreM`, a computation on it;
* one operation for every kind of question, and `AnalysisCore.invalidateAll`.
-/

namespace SketchSense

/-- All that is kept about a sketch. -/
structure AnalysisCore (σ : Type) where
  builder : UnitBuilder σ
  /-- What can be read on disk. -/
  disk : FilePath → Option String
  units : UnitCache := {}
  project : ProjectCache := {}
  symbols : SymbolCache
  notifier : ChangeNotifier := {}
  completionLimit : Nat

/-- A computation on what is kept about a sketch. -/
abbrev CoreM (σ : Type) := StateT (AnalysisCore σ) (EngineM σ)

/-- The diagnostics of a file, or of a project under its root. -/
structure DiagnosticsPass where
  channel : FilePath
  diagnostics : List Diagnostic
  /-- Whether they differ from those of the pass before on the channel. -/
  changed : Bool

/-- A position in a text that is being edited. -/
structure EditPosition where
  file : FileBuffer
  line : Nat
  column : Nat
  deriving Repr

namespace AnalysisCore

variable {σ : Type}

/-- An analysis about which nothing is kept yet. -/
def ofSettings (engine : Engine σ) (provided : FilePath → List String)
    (disk : FilePath → Option String) (s : Settings) : AnalysisCore σ where
  builder := { engine, provider := s.provider provided, profile := s.profile, root := s.root }
  disk
  symbols := { grace := s.symbolGrace }
  completionLimit := s.completionLimit

def root (c : AnalysisCore σ) : FilePath := c.builder.root

/-- Forgets everything that was derived from texts. -/
def invalidateAll (c : AnalysisCore σ) : AnalysisCore σ :=
  { c with
    builder := c.builder.clear
    units := c.units.invalidateAll
    project := c.project.clear
    symbols := c.symbols.clear
    notifier := {} }

/-- Where texts are looked for while a unit is asked, with `files` open. -/
def textsFor (c : AnalysisCore σ) (u : CachedUnit) (files : List FileBuffer) : SourceTexts :=
  ⟨u.unsaved, files, c.disk⟩

end AnalysisCore

namespace CoreM

variable {σ α : Type}

/-! ## Steps -/

/-- A step that builds units. -/
def building (x : BuildM σ α) : CoreM σ α := do
  let c ← get
  let (a, builder) ← x.run c.builder
  set { c with builder }
  return a

/-- A result that may be a fault. -/
def orFault (x : Except Fault α) : CoreM σ α := liftM (m := EngineM σ) (ExceptT.mk (pure x))

def keyOf (path : FilePath) : CoreM σ FilePath := return (← get).builder.key path

/-- The unit of a file: for its text, or with `stale` also for an earlier one. -/
def unitWith? (stale : Bool) (file : FileBuffer) : CoreM σ (Option CachedUnit) := do
  let (r, units) ← building ((← get).units.resolveWith stale file.path file.code)
  modify fun c => { c with units }
  match r with
  | .ok (u, _) => return some u
  | .error _ => return none

/-- The unit of a file for its text. -/
def unit? (file : FileBuffer) : CoreM σ (Option CachedUnit) := unitWith? false file

/-- Takes note of diagnostics on a channel. -/
def announce (channel : FilePath) (diagnostics : List Diagnostic) : CoreM σ DiagnosticsPass := do
  let (changed, notifier) := (← get).notifier.observe channel diagnostics
  modify fun c => { c with notifier }
  return ⟨channel, diagnostics, changed⟩

/-! ## Diagnostics -/

/-- The diagnostics of a file. One of the sketch that cannot be parsed has a single error. -/
def diagnostics (file : FileBuffer) : CoreM σ DiagnosticsPass := do
  let key ← keyOf file.path
  let unit ← unit? file
  let c ← get
  match unit with
  | some u => announce key (u.diagnostics c.builder.engine (← getThe σ) c.root)
  | none => announce key (if key.isInside c.root then [.parseFailure key] else [])

/-- The diagnostics of all open sources of the sketch. -/
def projectDiagnostics (files : List FileBuffer) (e : Enumeration ProjectUnit := .kept) :
    CoreM σ DiagnosticsPass := do
  let (diagnostics, project) ← building ((← get).project.refresh files e)
  modify fun c => { c with project }
  announce (← get).root diagnostics

/-! ## Questions about a position -/

/-- The completions at a position. A unit that is older than the text will do. -/
def completions (p : EditPosition) : CoreM σ (List CompletionItem) := do
  match ← unitWith? true p.file with
  | none => return []
  | some u =>
    let key ← keyOf p.file.path
    let now ← building (buildSources key p.file.code)
    let c ← get
    let items ← orFault
      (u.complete c.builder.engine (← getThe σ) now.unsaved now.map p.line p.column c.root)
    return chooseCompletions (typedBefore p.file.code p.line p.column) items c.completionLimit

/-- What is shown for a position. -/
def hover (p : EditPosition) (files : List FileBuffer) : CoreM σ (Option Hover) := do
  match ← unit? p.file with
  | none => return none
  | some u =>
    let c ← get
    hover? c.builder (c.textsFor u files) u p.line p.column

/-- Where the name at a position leads. -/
def definition (p : EditPosition) (files : List FileBuffer) : CoreM σ (Option Location) := do
  match ← unit? p.file with
  | none => return none
  | some u =>
    let c ← get
    findDefinition? c.builder (c.textsFor u files) u p.line p.column

/-- The container around a position. -/
def container (p : EditPosition) : CoreM σ (Option Container) := do
  match ← unit? p.file with
  | none => return none
  | some u => orFault (u.container? p.line p.column)

/-! ## Occurrences -/

/-- The files besides the one of a key in which occurrences are looked for. -/
def otherFiles (key : FilePath) (files : List FileBuffer) : CoreM σ (List FileBuffer) := do
  let c ← get
  return files.filter fun f => f.kind ≠ .other && !(c.builder.key f.path == key)

/-- The occurrences of an entity in some files, those that cannot be parsed left out. -/
def occurrencesAmong (target : OccurrenceTarget) (root : FilePath) :
    List FileBuffer → CoreM σ (List Location)
  | [] => return []
  | f :: fs => do
    let here := match ← unit? f with
      | some u => u.occurrences target (some root)
      | none => []
    return here ++ (← occurrencesAmong target root fs)

/-- The occurrences of the name at a position. In a project all open files are searched, unless the
question is no longer `live`, and only occurrences inside the sketch count. -/
def occurrences (p : EditPosition) (scope : OccurrenceScope) (files : List FileBuffer)
    (live : Bool) : CoreM σ (List Location) := do
  match ← unit? p.file with
  | none => return []
  | some u =>
    match ← orFault (u.target? p.line p.column) with
    | none => return []
    | some target =>
      match scope with
      | .currentFile => return Location.sortUnique (u.occurrences target none)
      | .project =>
        let root := (← get).root
        let others ← if live then otherFiles (← keyOf p.file.path) files else pure []
        let here := u.occurrences target (some root)
        return Location.sortUnique (here ++ (← occurrencesAmong target root others))

/-! ## Symbols -/

/-- All symbols of a file at a time; the list may be older than the text. -/
def symbols (file : FileBuffer) (now : Nat) : CoreM σ (List Symbol) := do
  let key ← keyOf file.path
  let hash := ContentHash.ofText file.code
  match (← get).symbols.lookup? key hash now with
  | some symbols => return symbols
  | none =>
    match ← unit? file with
    | none => return []
    | some u =>
      modify fun c => { c with symbols := c.symbols.store key hash now u.symbols }
      return u.symbols

/-- Forgets everything that was derived from texts. -/
def invalidateAll : CoreM σ Unit := modify AnalysisCore.invalidateAll

end CoreM

end SketchSense
