import SketchSense.Cache.Arguments

/-!
# Settings of an analysis

* `Settings`, with what holds unless something else is said.
-/

namespace SketchSense

/-- What an analysis is set up with. -/
structure Settings where
  /-- Directory of the sketch; diagnostics outside it are dropped. -/
  root : FilePath
  profile : ArgumentProfile := {}
  /-- Arguments added to those of every file. -/
  compilerArgs : List String := []
  /-- Milliseconds for which a symbol list outlives a change of its file. -/
  symbolGrace : Nat := 10000
  /-- Largest number of completions. -/
  completionLimit : Nat := 256
  deriving Repr

/-- The arguments of every file: those that are provided, then those of the settings. -/
def Settings.provider (s : Settings) (provided : FilePath → List String) :
    FilePath → List String :=
  fun p => provided p ++ s.compilerArgs

end SketchSense
