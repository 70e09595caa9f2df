/-!
# Generations and tokens

Every request carries a token. Issuing one supersedes the tokens issued before on the same clock,
and a switch that all tokens share cancels every one of them.

* `Board`, the clocks and the switch; `Token`, and `Board.issue`;
* `Board.isLive`, whether anybody still waits for the answer to a request.
-/

namespace SketchSense

/-- The latest generation on each of the clocks `κ`, and the switch. -/
structure Board (κ : Type) where
  current : κ → Nat := fun _ => 0
  cancelled : Bool := false

/-- What a request was issued with. A detached token is on a clock of its own. -/
inductive Token (κ : Type) where
  | issued (clock : κ) (generation : Nat)
  | detached
  deriving DecidableEq, Repr

/-- The generation of a token; clocks count from 1. -/
def Token.generation {κ : Type} : Token κ → Nat
  | issued _ generation => generation
  | detached => 1

namespace Board

variable {κ : Type} [DecidableEq κ]

/-- Moves a clock on. -/
def advance (b : Board κ) (clock : κ) : Board κ :=
  { b with current := fun k => if k = clock then b.current k + 1 else b.current k }

/-- A token for a new request. -/
def issue (b : Board κ) (clock : κ) : Token κ × Board κ :=
  let b := b.advance clock
  (.issued clock (b.current clock), b)

/-- Whether the clock of a token moved on since. -/
def isSuperseded (b : Board κ) : Token κ → Bool
  | .issued clock generation => b.current clock != generation
  | .detached => false

/-- Whether a token is cancelled. -/
def isCancelled (b : Board κ) : Token κ → Bool
  | .issued .. => b.cancelled
  | .detached => false

def isLive (b : Board κ) (t : Token κ) : Bool := !b.isCancelled t && !b.isSuperseded t

def cancelAll (b : Board κ) : Board κ := { b with cancelled := true }

/-- A token that was just issued is live unless everything is cancelled. -/
theorem isLive_issue (b : Board κ) (clock : κ) :
    (b.issue clock).2.isLive (b.issue clock).1 = !b.cancelled := by
  simp [issue, isLive, isCancelled, isSuperseded, advance]

/-- Moving one clock on leaves the tokens of the others alone. -/
theorem isSuperseded_advance_of_ne (b : Board κ) {clock k : κ} (h : k ≠ clock) (generation : Nat) :
    (b.advance clock).isSuperseded (.issued k generation)
      = b.isSuperseded (.issued k generation) := by
  simp [isSuperseded, advance, h]

end Board

end SketchSense
