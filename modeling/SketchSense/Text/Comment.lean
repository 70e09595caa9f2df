import SketchSense.Text.Blank
import SketchSense.Text.Lines
import SketchSense.Text.Search

/-!
# Comments above a declaration

When the engine has no structured comment for a symbol, its documentation is read off the text:
the lines of comment that stand directly above the declaration.

* `commentLines`, which of the lines going upward are collected;
* `cleanLine`, a collected line without its comment marks;
* `commentAbove`, the whole comment, and `brief`, its first line of text.
-/

namespace SketchSense.Text

/-! ## Marks -/

def lineMark : List Char := ['/', '/']
def openMark : List Char := ['/', '*']
def closeMark : List Char := ['*', '/']

/-! ## Collecting -/

/-- Going upward from a declaration, the lines of comment, nearest first. `inBlock` says that a
block comment was entered from its end and its opening mark is still to come. Outside a block the
first line that is blank or starts no comment ends the search. -/
def commentLines : Bool → List (List Char) → List (List Char)
  | _, [] => []
  | true, l :: above => l :: commentLines (!contains openMark (trim l)) above
  | false, l :: above =>
    let t := trim l
    if t = [] then []
    else if startsWith lineMark t then l :: commentLines false above
    else if contains closeMark t then l :: commentLines (!contains openMark t) above
    else []

/-- A line of comment without its marks: either `//` and a space, or one `/*`, one `*/` and a
leading `*` with a space. -/
def cleanLine (l : List Char) : List Char :=
  let s := trimStart l
  let body :=
    match after? lineMark s with
    | some rest => dropOne ' ' rest
    | none =>
      let t := trimStart (eraseFirst closeMark (eraseFirst openMark s))
      match t with
      | '*' :: rest => dropOne ' ' rest
      | _ => t
  trimEnd body

/-! ## The comment -/

/-- How many lines above a declaration are looked at. -/
def commentReach : Nat := 1000

/-- The longest comment shown, in bytes. -/
def commentLimit : Nat := 8192

/-- The lines above a line number, nearest first. A number past the end counts as the last line. -/
def linesAbove (s : List Char) (line : Nat) : List (List Char) :=
  let all := lines s
  (all.take (min line all.length - 1)).reverse.take commentReach

/-- The comment directly above a declaration line, or the empty text. -/
def commentAbove (text : String) (line : Nat) : String :=
  let found := commentLines false (linesAbove text.toList line)
  let cleaned := (found.reverse.map cleanLine).flatMap (· ++ ['\n'])
  String.ofList (truncate commentLimit (trimNewlines cleaned))

/-- The first line of a comment that is not blank. -/
def brief (comment : String) : String :=
  let candidates := (splitLines comment.toList).map trim
  String.ofList ((candidates.find? (· ≠ [])).getD [])

end SketchSense.Text
