/-!
# Blank characters and trimming

* `isBlank`, the Unicode property White_Space;
* `trimStart`, `trimEnd`, `trim` on character lists, and `trimNewlines`, which takes off line
  terminators only.
-/

namespace SketchSense.Text

/-- The Unicode property White_Space: 25 characters. -/
def isBlank (c : Char) : Bool :=
  let n := c.toNat
  (0x09 ≤ n && n ≤ 0x0D) || n == 0x20 || n == 0x85 || n == 0xA0 || n == 0x1680
    || (0x2000 ≤ n && n ≤ 0x200A) || n == 0x2028 || n == 0x2029 || n == 0x202F
    || n == 0x205F || n == 0x3000

/-- Drops the longest tail whose characters all satisfy `p`. -/
def dropEndWhile (p : Char → Bool) (s : List Char) : List Char :=
  (s.reverse.dropWhile p).reverse

def trimStart (s : List Char) : List Char := s.dropWhile isBlank

def trimEnd (s : List Char) : List Char := dropEndWhile isBlank s

def trim (s : List Char) : List Char := trimEnd (trimStart s)

/-- A text of blank characters only. -/
def isBlankText (s : List Char) : Bool := s.all isBlank

/-- Takes line feeds and carriage returns off both ends. -/
def trimNewlines (s : List Char) : List Char :=
  let terminator := fun c => c == '\n' || c == '\r'
  dropEndWhile terminator (s.dropWhile terminator)

/-- Every blank character of the core library is blank here. -/
theorem isBlank_of_isWhitespace {c : Char} (h : c.isWhitespace = true) : isBlank c = true := by
  simp only [Char.isWhitespace, Bool.or_eq_true, decide_eq_true_eq] at h
  rcases h with ((h | h) | h) | h <;> subst h <;> decide

theorem trimStart_of_isBlankText {s : List Char} (h : isBlankText s = true) :
    trimStart s = [] := by
  induction s with
  | nil => rfl
  | cons c s ih =>
    simp only [isBlankText, List.all_cons, Bool.and_eq_true] at h
    simpa [trimStart, List.dropWhile_cons, h.1] using ih h.2

end SketchSense.Text
