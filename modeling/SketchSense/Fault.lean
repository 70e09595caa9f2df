/-!
# Faults

A fault is an operation that cannot go on: it has no answer, and whoever runs it stops there.
Ordinary failures (a file that does not parse, a cursor on blank space) are values of their own
types and never faults.

* `Fault`, the three causes;
* `bounded`, the check that a line or column still fits its 32-bit word.
-/

namespace SketchSense

/-- Why an operation stopped without an answer. -/
inductive Fault where
  /-- A line or column left the 32-bit range. -/
  | overflow
  /-- A block's opening brace is also the last token, so the block has no inside. -/
  | openBlockAtEnd
  /-- Scanning stepped into the middle of a multi-byte character. -/
  | splitCharacter
  deriving DecidableEq, Repr

/-- One more than the largest line or column. -/
def wordLimit : Nat := Nat.pow 2 32

/-- A line or column, if it fits its word. -/
def bounded (n : Nat) : Except Fault Nat :=
  if n < wordLimit then .ok n else .error .overflow

theorem bounded_eq_ok_iff {n m : Nat} : bounded n = .ok m ↔ n < wordLimit ∧ m = n := by
  unfold bounded
  split
  · next h => simp [h, eq_comm]
  · next h => simp [h]

/-- A fault inside the layer itself, such as a worker that has stopped. -/
structure InternalError where
  message : String
  deriving DecidableEq, Repr

/-- The text shown for an internal error. -/
def InternalError.text (e : InternalError) : String := "internal error: " ++ e.message

end SketchSense
