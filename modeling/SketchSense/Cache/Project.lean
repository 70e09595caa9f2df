import SketchSense.Cache.Units

/-!
# Project passes

A project pass brings a unit for every open source file up to date and reports the diagnostics of
all of them. All open headers go into every unit, so a unit is stale as soon as one of them
changes.

* `headersSignature`, the hash of the open headers;
* `ProjectUnit`, a unit with what it was made from, and `ProjectUnit.isStale`;
* `ProjectCache.refresh`, one pass, and `mergedDiagnostics`, its report.
-/

namespace SketchSense

/-! ## Open headers -/

/-- The hashed bytes of the open headers: path and content hash of each, in the order of paths. -/
def headersBytes (headers : List FileBuffer) : List UInt8 :=
  (sortBy (fun a b => a.path.compare b.path) headers).flatMap fun h =>
    ContentHash.textField h.path.display ++ ContentHash.hashField (.ofText h.code)

def headersSignature (headers : List FileBuffer) : ContentHash := .ofBytes (headersBytes headers)

/-- The headers among some files, under their keys. -/
def openHeaders {σ : Type} (b : UnitBuilder σ) (files : List FileBuffer) : List FileBuffer :=
  (files.filter (·.kind = .header)).map fun f => ⟨b.key f.path, f.code⟩

/-! ## Units of a project -/

/-- What a unit of a project is made from. -/
structure ProjectInput where
  contentHash : ContentHash
  argumentsHash : ContentHash
  analyzed : FilePath
  headersSignature : ContentHash

/-- A unit of a project. A file that could not be parsed has none. -/
structure ProjectUnit where
  unit : Option CachedUnit
  input : ProjectInput
  diagnostics : List Diagnostic

namespace ProjectInput

/-- Whether the arguments or the analysed name differ: then a reparse will not do. -/
def needsRebuild (old new : ProjectInput) : Bool :=
  old.argumentsHash != new.argumentsHash || !old.analyzed == new.analyzed

/-- Whether a text differs: that of the file or that of an open header. -/
def isStale (old new : ProjectInput) : Bool :=
  old.contentHash != new.contentHash || old.headersSignature != new.headersSignature

end ProjectInput

/-- The diagnostics of a project: those of all units, in full order, without repeats. -/
def mergedDiagnostics (units : List ProjectUnit) : List Diagnostic :=
  Diagnostic.sortAndDedup (units.flatMap (·.diagnostics))

/-- The units of a project. -/
structure ProjectCache where
  units : Table FilePath ProjectUnit := {}
  stats : CacheStats := {}

namespace ProjectCache

variable {σ : Type}

/-- Enters a unit that was just made or parsed again, or its absence. -/
def enter (c : ProjectCache) (key : FilePath) (input : ProjectInput) (unit : Option CachedUnit)
    (action : UnitAction) : BuildM σ ProjectCache := do
  let b ← get
  let s ← getThe σ
  let diagnostics := match unit with
    | some unit => unit.diagnostics b.engine s b.root
    | none => [.parseFailureIn key]
  let stats := if unit.isNone then c.stats.recordFailure else c.stats
  return ⟨c.units.insert key ⟨unit, input, diagnostics⟩, stats.record action⟩

/-- Makes a new unit for a key. -/
def rebuild (c : ProjectCache) (key : FilePath) (code : String) (headers : List FileBuffer)
    (input : ProjectInput) : BuildM σ ProjectCache := do
  match ← build key code headers with
  | .ok unit => c.enter key input (some unit) .created
  | .error _ => c.enter key input none .created

/-- Parses a text in the unit there is, or else in a new one. -/
def update (c : ProjectCache) (key : FilePath) (code : String) (headers : List FileBuffer)
    (input : ProjectInput) (old : ProjectUnit) : BuildM σ ProjectCache := do
  match old.unit, old.input.needsRebuild input with
  | some unit, false =>
    match ← reparse unit code headers with
    | .ok unit => c.enter key input (some unit) .reparsed
    | .error _ => c.rebuild key code headers input
  | _, _ => c.rebuild key code headers input

/-- Brings the unit of one file up to date. -/
def refreshFile (c : ProjectCache) (key : FilePath) (code : String) (headers : List FileBuffer) :
    BuildM σ ProjectCache := do
  let b ← get
  let input : ProjectInput :=
    ⟨.ofText code, argumentsHash (b.arguments key), key.analyzedName, headersSignature headers⟩
  match c.units.get? key with
  | none => c.rebuild key code headers input
  | some old =>
    if old.input.isStale input || old.input.needsRebuild input then
      c.update key code headers input old
    else return { c with stats := c.stats.record .reused }

/-- Brings the units of some files up to date, one after the other. -/
def refreshFiles (headers : List FileBuffer) : ProjectCache → List FileBuffer →
    BuildM σ ProjectCache
  | c, [] => return c
  | c, f :: fs => do
    let c ← c.refreshFile f.path f.code headers
    refreshFiles headers c fs

/-- The source files among some files, under their keys; of several with one key the first. -/
def sourceFiles (b : UnitBuilder σ) (files : List FileBuffer) : List FileBuffer :=
  keepFirst (·.path)
    ((files.filter (·.kind.isProjectSource)).map fun f => ⟨b.key f.path, f.code⟩)

/-- One pass over the open files: every source is brought up to date, and units of files that are
no longer open are given up. The units that are left report in the order in which they are listed. -/
def refresh (c : ProjectCache) (files : List FileBuffer) (e : Enumeration ProjectUnit := .kept) :
    BuildM σ (List Diagnostic × ProjectCache) := do
  let b ← get
  let sources := sourceFiles b files
  let c ← refreshFiles (openHeaders b files) c sources
  let c := { c with units := c.units.restrict fun key => sources.any (·.path == key) }
  return (mergedDiagnostics (c.units.valuesIn e), c)

/-- Gives up all units. -/
def clear (c : ProjectCache) : ProjectCache := ⟨{}, c.stats.recordInvalidation⟩

end ProjectCache

end SketchSense
