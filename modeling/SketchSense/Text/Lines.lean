import SketchSense.Fault
import SketchSense.Text.Bytes

/-!
# Lines of a text

A text is cut at every line feed, so a final line feed opens one more, empty line. Lines and
columns count from 1, and columns count bytes.

* `splitLines` and `joinLines`, a text and its raw lines (a carriage return stays with its line);
* `lines` and `line?`, the lines as they are shown, without a closing carriage return;
* `lineCol` and `offset?`, between byte offsets and positions.
-/

namespace SketchSense.Text

/-! ## Cutting and joining -/

/-- The raw lines of a text; there is always at least one. -/
def splitLines : List Char → List (List Char)
  | [] => [[]]
  | c :: cs =>
    if c = '\n' then [] :: splitLines cs
    else match splitLines cs with
      | [] => [[c]]
      | l :: ls => (c :: l) :: ls

/-- The text that has the given raw lines. -/
def joinLines : List (List Char) → List Char
  | [] => []
  | [l] => l
  | l :: ls => l ++ '\n' :: joinLines ls

theorem splitLines_ne_nil (s : List Char) : splitLines s ≠ [] := by
  cases s with
  | nil => simp [splitLines]
  | cons c cs =>
    unfold splitLines
    split
    · simp
    · split <;> simp

/-- Cutting a text into lines loses nothing. -/
theorem joinLines_splitLines (s : List Char) : joinLines (splitLines s) = s := by
  induction s with
  | nil => rfl
  | cons c cs ih =>
    have hne := splitLines_ne_nil cs
    unfold splitLines
    split
    · next h =>
      subst h
      cases hs : splitLines cs with
      | nil => exact absurd hs hne
      | cons l ls =>
        rw [hs] at ih
        simp [joinLines, ih]
    · cases hs : splitLines cs with
      | nil => exact absurd hs hne
      | cons l ls =>
        rw [hs] at ih
        cases ls with
        | nil => simp_all [joinLines]
        | cons m ms => simp_all [joinLines]

/-- A line without its closing carriage return. -/
def dropReturn (l : List Char) : List Char :=
  if l.getLast? = some '\r' then l.dropLast else l

/-- The lines of a text as they are shown. -/
def lines (s : List Char) : List (List Char) := (splitLines s).map dropReturn

/-- The line with a number counted from 1. -/
def line? (s : List Char) (n : Nat) : Option (List Char) :=
  if n = 0 then none else (lines s)[n - 1]?

def lineCount (s : List Char) : Nat := (splitLines s).length

/-! ## Positions -/

/-- Byte offsets at which the lines start, the first at `start`. -/
def startsFrom (start : Nat) : List (List Char) → List Nat
  | [] => []
  | l :: ls => start :: startsFrom (start + utf8Length l + 1) ls

/-- Byte offsets at which the lines of a text start. -/
def lineStarts (s : List Char) : List Nat := startsFrom 0 (splitLines s)

/-- Line and column of a byte offset: the last line that starts at or before it. An offset past
the end belongs to the last line. -/
def lineCol (s : List Char) (offset : Nat) : Except Fault (Nat × Nat) := do
  let starts := (lineStarts s).takeWhile (· ≤ offset)
  let start := starts.getLast?.getD 0
  return (← bounded (starts.length), ← bounded ((offset - start) % wordLimit + 1))

/-- Byte offset of a position, if the line exists, the column is not 0 and the offset is within
the text. The column may run past the end of its line. -/
def offset? (s : List Char) (line column : Nat) : Option Nat :=
  if line = 0 ∨ column = 0 then none
  else match (lineStarts s)[line - 1]? with
    | none => none
    | some start =>
      let offset := start + (column - 1)
      if offset ≤ utf8Length s then some offset else none

end SketchSense.Text
