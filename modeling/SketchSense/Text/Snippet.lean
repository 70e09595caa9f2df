import SketchSense.Text.Blank
import SketchSense.Text.Lines

/-!
# Snippets and indentation

* `snippet`, a range of lines of a text, abbreviated when it is long;
* `indent`, a block of code moved so that its least indented line starts at a given column.
-/

namespace SketchSense.Text

/-! ## Snippets -/

/-- The longest snippet shown, in bytes. -/
def snippetLimit : Nat := 4096

/-- More than six lines are shown as the first three and the last three around three dots. -/
def abbreviate (ls : List (List Char)) : List (List Char) :=
  if ls.length ≤ 6 then ls
  else ls.take 3 ++ [['.', '.', '.']] ++ ls.drop (ls.length - 3)

/-- The lines from `first` to `last`, both counted from 1 and included. -/
def snippet (text : String) (first last : Nat) : String :=
  let all := lines text.toList
  if first = 0 ∨ last < first ∨ all.length < first then ""
  else
    let shown := abbreviate ((all.take last).drop (first - 1))
    String.ofList (trimNewlines (truncate snippetLimit (joinLines shown)))

/-! ## Indentation -/

/-- The pieces of a text, each with its closing line feed; no piece is empty. -/
def terminatedLines : List Char → List (List Char)
  | [] => []
  | c :: cs =>
    if c = '\n' then [c] :: terminatedLines cs
    else match terminatedLines cs with
      | [] => [[c]]
      | l :: ls => (c :: l) :: ls

theorem flatten_terminatedLines (s : List Char) : (terminatedLines s).flatten = s := by
  induction s with
  | nil => rfl
  | cons c cs ih =>
    unfold terminatedLines
    split
    · simp [ih]
    · split
      · next h => rw [h] at ih; simp at ih; simp [← ih]
      · next h => rw [h] at ih; simp at ih; simp [← ih]

/-- What counts as indentation. -/
def isIndent (c : Char) : Bool := c == ' ' || c == '\t' || c == '\r'

/-- A line without visible text. -/
def isBlankLine (l : List Char) : Bool := (dropEndWhile (· == '\n') l).all isIndent

/-- Number of characters of indentation of a line. -/
def indentWidth (l : List Char) : Nat := (l.takeWhile isIndent).length

/-- The indentation that all lines with visible text share; none if there is no such line. -/
def commonIndent (ls : List (List Char)) : Option Nat :=
  ((ls.filter (!isBlankLine ·)).map indentWidth).min?

/-- Moves a block of code so that its least indented line starts after `width` spaces. Blank lines
stay as they are. -/
def indentLines (width : Nat) (s : List Char) : List Char :=
  let ls := terminatedLines s
  match commonIndent ls with
  | none => s
  | some common =>
    ls.flatMap fun l =>
      if isBlankLine l then l else List.replicate width ' ' ++ l.drop common

def indent (code : String) (width : Nat) : String :=
  String.ofList (indentLines width code.toList)

end SketchSense.Text
