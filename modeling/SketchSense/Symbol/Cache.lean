import SketchSense.Symbol.Collect

/-!
# Kept symbol lists

A symbol list is kept for a file. It is used again for the same text, and for another text as long
as it is younger than a grace period. Time is counted in milliseconds.

* `SymbolCache`, with `lookup?` and `store`.
-/

namespace SketchSense

/-- A symbol list with the text and the time it was made for. -/
structure SymbolList where
  contentHash : ContentHash
  builtAt : Nat
  symbols : List Symbol

/-- Symbol lists by file. -/
structure SymbolCache where
  /-- How long a list is used for other texts. -/
  grace : Nat
  lists : Table FilePath SymbolList := {}

namespace SymbolCache

/-- The list of a file, if it may be used for a text at a time. -/
def lookup? (c : SymbolCache) (key : FilePath) (hash : ContentHash) (now : Nat) :
    Option (List Symbol) :=
  match c.lists.get? key with
  | none => none
  | some l =>
    if l.contentHash = hash ∨ now - l.builtAt < c.grace then some l.symbols else none

def store (c : SymbolCache) (key : FilePath) (hash : ContentHash) (now : Nat)
    (symbols : List Symbol) : SymbolCache :=
  { c with lists := c.lists.insert key ⟨hash, now, symbols⟩ }

def clear (c : SymbolCache) : SymbolCache := { c with lists := {} }

/-- A list that was just stored is found for the same text at any time. -/
theorem lookup?_store_self (c : SymbolCache) (key : FilePath) (hash : ContentHash) (now later : Nat)
    (symbols : List Symbol) :
    (c.store key hash now symbols).lookup? key hash later = some symbols := by
  simp [lookup?, store]

end SymbolCache

end SketchSense
