import SketchSense.Cache.Builder

/-!
# The cache of units

At most one unit is kept for a file. A text that was parsed before is answered from the cache; a
changed one is parsed again in the unit there is, or else in a new one. No unit is kept when none
can be made.

* `UnitAction` and `CacheStats`, what the cache did;
* `UnitCache`, with `resolve`, `resolveStale` and `remove`.
-/

namespace SketchSense

/-- How a unit was come by. -/
inductive UnitAction where
  | created
  | reparsed
  | reused
  deriving DecidableEq, Repr

/-- What a cache did so far. -/
structure CacheStats where
  created : Nat := 0
  reparsed : Nat := 0
  reused : Nat := 0
  /-- Requests for which no unit could be made. -/
  failed : Nat := 0
  invalidations : Nat := 0
  deriving DecidableEq, Repr

namespace CacheStats

def record (s : CacheStats) : UnitAction → CacheStats
  | .created => { s with created := s.created + 1 }
  | .reparsed => { s with reparsed := s.reparsed + 1 }
  | .reused => { s with reused := s.reused + 1 }

def recordFailure (s : CacheStats) : CacheStats := { s with failed := s.failed + 1 }

def recordInvalidation (s : CacheStats) : CacheStats :=
  { s with invalidations := s.invalidations + 1 }

end CacheStats

/-- One unit at most for every file. -/
structure UnitCache where
  units : Table FilePath CachedUnit := {}
  stats : CacheStats := {}

/-- A unit and how it was come by, or the reason why there is none. -/
abbrev Resolved := Except CacheError (CachedUnit × UnitAction)

namespace UnitCache

variable {σ : Type}

/-- Keeps a unit under its key. -/
def keep (c : UnitCache) (key : FilePath) (unit : CachedUnit) (action : UnitAction) :
    Resolved × UnitCache :=
  (.ok (unit, action), ⟨c.units.insert key unit, c.stats.record action⟩)

/-- Keeps no unit under a key. -/
def drop (c : UnitCache) (key : FilePath) (e : CacheError) : Resolved × UnitCache :=
  (.error e, ⟨c.units.erase key, c.stats.recordFailure⟩)

/-- Makes a new unit for a key. -/
def create (c : UnitCache) (key : FilePath) (code : String) : BuildM σ (Resolved × UnitCache) := do
  match ← build key code [] with
  | .ok unit => return c.keep key unit .created
  | .error e => return c.drop key e

/-- Parses a text in the unit there is; if that fails, makes a new unit. -/
def update (c : UnitCache) (key : FilePath) (unit : CachedUnit) (code : String) :
    BuildM σ (Resolved × UnitCache) := do
  match ← reparse unit code [] with
  | .ok unit => return c.keep key unit .reparsed
  | .error _ => c.create key code

/-- The unit of a file. With `stale` a unit for another text will do. -/
def resolveWith (c : UnitCache) (stale : Bool) (path : FilePath) (code : String) :
    BuildM σ (Resolved × UnitCache) := do
  let key := (← get).key path
  match c.units.get? key with
  | none => c.create key code
  | some unit =>
    if stale ∨ unit.contentHash = .ofText code then
      return (.ok (unit, .reused), { c with stats := c.stats.record .reused })
    else c.update key unit code

/-- The unit of a file for its text. -/
def resolve (c : UnitCache) (path : FilePath) (code : String) : BuildM σ (Resolved × UnitCache) :=
  c.resolveWith false path code

/-- The unit of a file, for its text or for an earlier one. -/
def resolveStale (c : UnitCache) (path : FilePath) (code : String) :
    BuildM σ (Resolved × UnitCache) :=
  c.resolveWith true path code

/-- Gives up the unit of a key, and says whether there was one. -/
def remove (c : UnitCache) (key : FilePath) : Bool × UnitCache :=
  (c.units.contains key, { c with units := c.units.erase key })

/-- Gives up all units. -/
def invalidateAll (c : UnitCache) : UnitCache := ⟨{}, c.stats.recordInvalidation⟩

end UnitCache

end SketchSense
