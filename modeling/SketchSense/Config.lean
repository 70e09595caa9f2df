import SketchSense.Settings
import SketchSense.Toml.Document

/-!
# The configuration of a sketch

A sketch may be configured by a file in its directory. Only the directory to analyse has to be
named; unknown names are passed over.

* `Config` and `ConfigError`;
* `ConfigSection`, where the settings of a section are looked up, by name or by place;
* `Config.ofText` and `Config.ofFolder`, with `Config.check` for what no type rules out.
-/

namespace SketchSense

/-- The configuration of a sketch and of the service for it. -/
structure Config where
  settings : Settings
  /-- Requests that may wait before callers have to. -/
  queueCapacity : Nat := 64
  deriving Repr

/-- Why there is no configuration. -/
inductive ConfigError where
  /-- The file cannot be read. -/
  | unreadable (reason : String)
  /-- The text is not a document, or it lacks a setting or has one of the wrong type. -/
  | malformed (reason : String)
  | missingField (name : String)
  | invalid (reason : String)
  deriving DecidableEq, Repr

/-- The text shown for an error. -/
def ConfigError.message : ConfigError → String
  | unreadable reason => "failed to read configuration: " ++ reason
  | malformed reason => "failed to parse configuration: " ++ reason
  | missingField name => "missing required field: " ++ name
  | invalid reason => "validation error: " ++ reason

/-! ## Values of settings -/

namespace Toml.Value

def text? : Value → Option String
  | .text s => some s
  | _ => none

def texts? : Value → Option (List String)
  | .array items => items.mapM text?
  | _ => none

/-- An integer that is not negative. -/
def count? : Value → Option Nat
  | .integer n => n.toNat?
  | _ => none

end Toml.Value

open Toml

/-- The settings of a section, each under its name and its place among them. -/
structure ConfigSection where
  find? : (name : String) → (place : Nat) → Option Value

namespace ConfigSection

/-- A section without settings. -/
def empty : ConfigSection := ⟨fun _ _ => none⟩

/-- A table names its settings and an array lists them in order. A moment has no setting. -/
def ofValue? : Value → Option ConfigSection
  | .table _ entries => some ⟨fun name _ => entries.get? name⟩
  | .array items => some ⟨fun _ place => items[place]?⟩
  | .tables items => some ⟨fun _ place => items[place]?.map (.table .headed)⟩
  | .moment => some empty
  | _ => none

/-- The section of a document; without it all of its settings have their defaults. -/
def ofDocument? (document : Entries) (name : String) : Option ConfigSection :=
  match document.get? name with
  | some v => ofValue? v
  | none => some empty

/-- A setting, or its default if it is not given. A value of another type is not accepted. -/
def get {α : Type} (s : ConfigSection) (name : String) (place : Nat) (read : Value → Option α)
    (default : α) : Option α :=
  match s.find? name place with
  | some v => read v
  | none => some default

end ConfigSection

/-! ## The configuration -/

namespace Config

/-- The settings that a document writes. -/
def ofDocument? (document : Entries) : Option Config := do
  let sketch ← ConfigSection.ofValue? (← document.get? "sketch")
  let root ← (← sketch.find? "root" 0).text?
  let analysis ← ConfigSection.ofDocument? document "analysis"
  let service ← ConfigSection.ofDocument? document "service"
  let compilerArgs ← analysis.get "compiler_args" 0 Value.texts? []
  let warningFlags ← analysis.get "warning_flags" 1 Value.texts? []
  let coreInclude ← analysis.get "core_include" 2 Value.text? "Arduino.h"
  let symbolGrace ← analysis.get "symbol_grace_ms" 3 Value.count? 10000
  let completionLimit ← analysis.get "completion_limit" 4 Value.count? 256
  let queueCapacity ← service.get "queue_capacity" 0 Value.count? 64
  return ⟨⟨⟨root⟩, ⟨coreInclude, warningFlags⟩, compilerArgs, symbolGrace, completionLimit⟩,
    queueCapacity⟩

/-- Refuses an empty root, and limits that let nothing through. -/
def check (c : Config) : Except ConfigError Config :=
  if c.settings.root.isEmpty then .error (.missingField "sketch.root")
  else if c.settings.completionLimit = 0 then
    .error (.invalid "analysis.completion_limit must be at least 1")
  else if c.queueCapacity = 0 then
    .error (.invalid "service.queue_capacity must be at least 1")
  else .ok c

/-- The configuration that a text writes. -/
def ofText (text : String) : Except ConfigError Config :=
  match Entries.ofText? text with
  | none => .error (.malformed "not a document")
  | some document =>
    match ofDocument? document with
    | none => .error (.malformed "a setting is missing or has the wrong type")
    | some c => c.check

/-- Name of the configuration file in the directory of a sketch. -/
def fileName : String := "lens.toml"

/-- The configuration in a directory; `disk` is what can be read. -/
def ofFolder (disk : FilePath → Option String) (folder : FilePath) : Except ConfigError Config :=
  match disk (folder.join ⟨fileName⟩) with
  | none => .error (.unreadable (folder.join ⟨fileName⟩).text)
  | some text => ofText text

/-- What was accepted is as it was written, with a root and with limits that let something
through. -/
theorem check_eq_ok_iff {c d : Config} :
    c.check = .ok d ↔ c = d ∧ c.settings.root.isEmpty = false ∧ 0 < c.settings.completionLimit
      ∧ 0 < c.queueCapacity := by
  unfold check
  split
  · next h => simp [h]
  · split
    · next h => simp [h]
    · split
      · next h => simp [h]
      · next h₁ h₂ h₃ =>
        simp [Bool.not_eq_true _ ▸ h₁, Nat.pos_of_ne_zero h₂, Nat.pos_of_ne_zero h₃]

end Config

end SketchSense
