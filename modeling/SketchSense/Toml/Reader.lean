import SketchSense.Text.Search

/-!
# Readers of a document

A reader looks at the start of a text: it says what stands there and what is left, or that nothing
it knows stands there. Nothing is consumed by a reader that fails.

* `Reader`, with `mark`, `charIf`, `run`, `run1`, `maybe`, `many` and `separated`;
* what may stand between the parts of a document: `blanks`, `newline`, `comment`, `lineEnd`, `gap`.
-/

namespace SketchSense.Toml

abbrev Reader := StateT (List Char) Option

namespace Reader

variable {α β : Type}

/-- The given characters, one after the other. -/
def mark (m : String) : Reader Unit := fun s => (Text.after? m.toList s).map ((), ·)

/-- One character of a class. -/
def charIf (p : Char → Bool) : Reader Char
  | [] => none
  | c :: s => if p c then some (c, s) else none

/-- The longest run of characters of a class. -/
def run (p : Char → Bool) : Reader (List Char) := fun s => some (s.takeWhile p, s.dropWhile p)

/-- The longest run of characters of a class, which must not be empty. -/
def run1 (p : Char → Bool) : Reader (List Char) := do
  let c ← charIf p
  return c :: (← run p)

/-- Exactly `n` characters of a class. -/
def exactly (n : Nat) (p : Char → Bool) : Reader (List Char) :=
  match n with
  | 0 => pure []
  | n + 1 => do
    let c ← charIf p
    return c :: (← exactly n p)

/-- What `r` reads, if it can. -/
def maybe (r : Reader α) : Reader (Option α) := fun s =>
  match r s with
  | some (a, rest) => some (some a, rest)
  | none => some (none, s)

/-- What `r` reads again and again, as long as it can and the text gets shorter. -/
def manyOf (r : Reader α) (s : List Char) : List α × List Char :=
  match r s with
  | none => ([], s)
  | some (a, rest) =>
    if rest.length < s.length then
      let (as, rest) := manyOf r rest
      (a :: as, rest)
    else ([], s)
  termination_by s.length

def many (r : Reader α) : Reader (List α) := fun s => some (manyOf r s)

/-- One item or more, with `separator` between them. -/
def separated (item : Reader α) (separator : Reader β) : Reader (List α) := do
  let a ← item
  return a :: (← many (do let _ ← separator; item))

/-- The end of the text. -/
def atEnd : Reader Unit := fun s => if s.isEmpty then some ((), s) else none

/-- Refuses what was read unless a condition holds. -/
def require (b : Bool) : Reader Unit := if b then pure () else failure

theorem run_eq (p : Char → Bool) (s : List Char) :
    (run p s).map (fun (a, rest) => a ++ rest) = some s := by
  simp [run]

/-- Reading again and again leaves an end of the text. -/
theorem length_manyOf_le (r : Reader α) (s : List Char) :
    (manyOf r s).2.length ≤ s.length := by
  fun_induction manyOf r s with
  | case1 => simp
  | case2 s a rest _ hlt as rest' heq ih =>
    rw [heq] at ih
    exact Nat.le_trans ih (Nat.le_of_lt hlt)
  | case3 => simp

end Reader

open Reader

/-! ## Between the parts -/

def isBlank (c : Char) : Bool := c == ' ' || c == '\t'

/-- What may stand within a line: a tab, and all but the control characters. -/
def isPlain (c : Char) : Bool := c == '\t' || (0x20 ≤ c.toNat && c.toNat != 0x7F)

def blanks : Reader Unit := do let _ ← run isBlank

/-- A line feed, alone or behind a carriage return. -/
def newline : Reader Unit := mark "\n" <|> mark "\r\n"

/-- A `#` and the rest of its line. -/
def comment : Reader Unit := do
  mark "#"
  let _ ← run isPlain

def lineEnd : Reader Unit := newline <|> atEnd

/-- Behind a value or a header a line may hold nothing but a comment. -/
def restOfLine : Reader Unit := do
  blanks
  let _ ← maybe comment
  lineEnd

/-- Blanks, line ends and comments, in any number. -/
def gap : Reader Unit := do
  let _ ← many (newline <|> (do comment; newline) <|> (do let _ ← run1 isBlank))

end SketchSense.Toml
