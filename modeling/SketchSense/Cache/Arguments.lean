import SketchSense.Engine.Basic
import SketchSense.Hash.Content

/-!
# Argument lists and the recovery ladder

Every file has a full list of compiler arguments. When the engine cannot parse it with them, simpler
lists are tried, one after the other.

* `ArgumentProfile` and `compileArguments`, the full list;
* `withoutPair`, a list without a forced include;
* `Attempt` and `recoveryLadder`, what is tried, the most complete first;
* `argumentsHash`, the hash of a list.
-/

namespace SketchSense

/-- What is added to the arguments of every file. -/
structure ArgumentProfile where
  /-- Header that every sketch entry includes. -/
  coreInclude : String := "Arduino.h"
  warningFlags : List String := []
  deriving DecidableEq, Repr

/-- The pair of arguments that includes a header. -/
def includePair (header : String) : List String := ["-include", header]

/-- The full argument list of a file under its analysed name: header mode for headers, the core
include for sketch entries, the warning flags last. -/
def compileArguments (base : List String) (analyzed : FilePath) (profile : ArgumentProfile) :
    List String :=
  base ++ (if analyzed.kind = .header then ["-x", "c++-header"] else [])
    ++ (if analyzed.isAnalyzedEntry ∧ profile.coreInclude ≠ "" then includePair profile.coreInclude
        else [])
    ++ profile.warningFlags

/-- Takes out every `-include` that stands directly before `header`, together with it. -/
def withoutPair (header : String) : List String → List String
  | [] => []
  | [a] => [a]
  | a :: b :: rest =>
    if a = "-include" ∧ b = header then withoutPair header rest
    else a :: withoutPair header (b :: rest)

/-- The bytes of an argument list: its length and its entries. -/
def argumentsBytes (args : List String) : List UInt8 :=
  ContentHash.numberField args.length ++ args.flatMap ContentHash.textField

def argumentsHash (args : List String) : ContentHash := .ofBytes (argumentsBytes args)

/-! ## The ladder -/

/-- One way to parse a file. -/
structure Attempt where
  label : String
  args : List String
  options : ParseOptions
  deriving DecidableEq, Repr

/-- The attempts for a file: with all arguments, without the preamble limit, for sketch entries
without the core include, and without any argument. -/
def recoveryLadder (args : List String) (analyzed : FilePath) (coreInclude : String) :
    List Attempt :=
  let full := ParseOptions.editing
  let reduced := full.withoutPreambleLimit
  let stripped := withoutPair coreInclude args
  [⟨"full", args, full⟩, ⟨"no-preamble-limit", args, reduced⟩]
    ++ (if analyzed.isAnalyzedEntry then
          [⟨"no-core-include", stripped, reduced⟩,
            ⟨"no-core-include (full options)", stripped, full⟩]
        else [])
    ++ [⟨"no-args", [], reduced⟩]

/-- A sketch entry has five attempts, any other file three. -/
theorem length_recoveryLadder (args : List String) (analyzed : FilePath) (coreInclude : String) :
    (recoveryLadder args analyzed coreInclude).length =
      if analyzed.isAnalyzedEntry then 5 else 3 := by
  unfold recoveryLadder
  split <;> rfl

end SketchSense
