import SketchSense.Fault
import SketchSense.Text.Blank
import SketchSense.Text.Bytes

/-!
# Tokens of the model language

The model engine reads a small C-like language. Its texts are cut into pieces that lie end to end;
tokens and directives are those pieces that the parser looks at, with their places.

* `front`, the piece at the start of a text, with `front_eq`: nothing is lost;
* `pieces`, the whole text in pieces, and `Place.after`, where a piece ends;
* `lex`, the tokens and directives of a text.
-/

namespace SketchSense.Model

/-! ## Pieces -/

/-- What a piece of text is. -/
inductive PieceKind where
  | newline
  | space
  /-- From a `#` that is first on its line to the end of the line. -/
  | directive
  | comment
  /-- A text or character literal, or a number. -/
  | literal
  | word
  | ellipsis
  | mark
  deriving DecidableEq, Repr

/-- Blank space within a line. -/
def isSpace (c : Char) : Bool := c == ' ' || c == '\t' || c == '\r' || c == '\x0c'

def isWordStart (c : Char) : Bool := c.isAlpha || c == '_'

def isWordPart (c : Char) : Bool := c.isAlphanum || c == '_'

def isNumberPart (c : Char) : Bool := c.isAlphanum || c == '.'

def isAscii (c : Char) : Bool := c.toNat < 128

/-- What a piece takes of the text behind its first character, and what it leaves. -/
abbrev Split := List Char × List Char

def splitWhile (p : Char → Bool) (s : List Char) : Split := (s.takeWhile p, s.dropWhile p)

/-- The inside of a block comment with its closing mark, or all there is. -/
def splitComment : List Char → Split
  | [] => ([], [])
  | c :: cs =>
    if c = '*' ∧ cs.head? = some '/' then (c :: cs.take 1, cs.drop 1)
    else let (inside, rest) := splitComment cs; (c :: inside, rest)

/-- The inside of a literal with its closing quote. A literal ends with its line at the latest. -/
def splitLiteral (quote : Char) : Bool → List Char → Split
  | _, [] => ([], [])
  | escaped, c :: cs =>
    if c = '\n' then ([], c :: cs)
    else if ¬ escaped ∧ c = quote then ([c], cs)
    else
      let (inside, rest) := splitLiteral quote (¬ escaped ∧ c = '\\') cs
      (c :: inside, rest)

/-- A block comment behind its first character. -/
def splitBlock (s : List Char) : Split :=
  let (inside, rest) := splitComment (s.drop 1)
  (s.take 1 ++ inside, rest)

/-- The piece that starts with `c`, where `cs` follows. `lineStart` says that only blank space
stands before `c` on its line. -/
def front (lineStart : Bool) (c : Char) (cs : List Char) : Except Fault (PieceKind × Split) :=
  if c = '\n' then .ok (.newline, [], cs)
  else if isSpace c then .ok (.space, [], cs)
  else if lineStart ∧ c = '#' then .ok (.directive, splitWhile (· ≠ '\n') cs)
  else if c = '/' ∧ cs.head? = some '/' then .ok (.comment, splitWhile (· ≠ '\n') cs)
  else if c = '/' ∧ cs.head? = some '*' then .ok (.comment, splitBlock cs)
  else if c = '"' ∨ c = '\'' then .ok (.literal, splitLiteral c false cs)
  else if isWordStart c then .ok (.word, splitWhile isWordPart cs)
  else if c.isDigit then .ok (.literal, splitWhile isNumberPart cs)
  else if c = '.' ∧ cs.take 2 = ['.', '.'] then .ok (.ellipsis, cs.take 2, cs.drop 2)
  else if isAscii c then .ok (.mark, [], cs)
  else .error .splitCharacter

theorem splitWhile_eq (p : Char → Bool) (s : List Char) :
    (splitWhile p s).1 ++ (splitWhile p s).2 = s := List.takeWhile_append_dropWhile

theorem splitComment_eq (s : List Char) : (splitComment s).1 ++ (splitComment s).2 = s := by
  induction s with
  | nil => rfl
  | cons c cs ih =>
    unfold splitComment
    split
    · simp only [List.cons_append, List.take_append_drop]
    · simpa using ih

theorem splitLiteral_eq (quote : Char) (escaped : Bool) (s : List Char) :
    (splitLiteral quote escaped s).1 ++ (splitLiteral quote escaped s).2 = s := by
  induction s generalizing escaped with
  | nil => rfl
  | cons c cs ih =>
    unfold splitLiteral
    split
    · rfl
    · split
      · rfl
      · simpa using ih _

theorem splitBlock_eq (s : List Char) : (splitBlock s).1 ++ (splitBlock s).2 = s := by
  simp only [splitBlock, List.append_assoc, splitComment_eq, List.take_append_drop]

/-- A piece and what it leaves make up the text. -/
theorem front_eq {lineStart : Bool} {c : Char} {cs : List Char} {kind : PieceKind} {split : Split}
    (h : front lineStart c cs = .ok (kind, split)) : split.1 ++ split.2 = cs := by
  unfold front at h
  repeat' split at h
  all_goals first
    | (simp only [Except.ok.injEq, Prod.mk.injEq] at h
       obtain ⟨-, rfl⟩ := h
       simp [splitWhile_eq, splitBlock_eq, splitLiteral_eq])
    | simp at h

/-- A piece of text. -/
structure Piece where
  kind : PieceKind
  text : List Char
  deriving DecidableEq, Repr

/-- Whether only blank space stands on the line behind a piece, given that it did before. -/
def PieceKind.lineStartAfter (lineStart : Bool) : PieceKind → Bool
  | newline => true
  | space | directive => lineStart
  | _ => false

/-- A text in pieces. -/
def piecesFrom (lineStart : Bool) : List Char → Except Fault (List Piece)
  | [] => .ok []
  | c :: cs =>
    match h : front lineStart c cs with
    | .error e => .error e
    | .ok (kind, split) =>
      have : split.2.length ≤ cs.length := by
        rw [← front_eq h, List.length_append]; omega
      match piecesFrom (kind.lineStartAfter lineStart) split.2 with
      | .error e => .error e
      | .ok rest => .ok (⟨kind, c :: split.1⟩ :: rest)
  termination_by s => s.length

def pieces (s : List Char) : Except Fault (List Piece) := piecesFrom true s

/-! ## Places -/

/-- A line and a column, counted from 1; columns count bytes. A lexer that counts them in 32 bits comes
to the same places in every ASCII text shorter than 2^32 bytes, as long as it does not stop: it does so
where one of them would not fit, which takes a text with about 2^32 lines or a line of about 2^32 bytes
(`ByPosition.Overlong`, with `ByPosition.lex_eq`). -/
structure Place where
  line : Nat
  column : Nat
  deriving DecidableEq, Repr

namespace Place

def start : Place := ⟨1, 1⟩

def next (p : Place) (c : Char) : Place :=
  if c = '\n' then ⟨p.line + 1, 1⟩ else ⟨p.line, p.column + c.utf8Size⟩

/-- The place behind a text that stands at `p`. -/
def after (p : Place) (s : List Char) : Place := s.foldl next p

end Place

/-- Pieces with the places where they start. -/
def placed (p : Place) : List Piece → List (Place × Piece)
  | [] => []
  | piece :: rest => (p, piece) :: placed (p.after piece.text) rest

/-! ## Tokens and directives -/

/-- What the parser sees of a token. -/
inductive Lexeme where
  | word (text : String)
  | mark (c : Char)
  | ellipsis
  | literal
  deriving DecidableEq, Repr

/-- A token with its place and its length in bytes. Where the place behind it is a pair of numbers of 32
bits, so is the length (`ByPosition.LexedFits`). -/
structure Token where
  lexeme : Lexeme
  place : Place
  length : Nat
  deriving DecidableEq, Repr

namespace Token

def word? (t : Token) : Option String :=
  match t.lexeme with
  | .word s => some s
  | _ => none

def isWord (t : Token) (s : String) : Bool := t.lexeme = .word s

def isMark (t : Token) (c : Char) : Bool := t.lexeme = .mark c

/-- The token as it is written in a type; every literal is written as 0. -/
def text (t : Token) : String :=
  match t.lexeme with
  | .word s => s
  | .mark c => String.singleton c
  | .ellipsis => "..."
  | .literal => "0"

/-- The place behind the token. -/
def stop (t : Token) : Place := ⟨t.place.line, t.place.column + t.length⟩

end Token

/-- The rest of a line behind a `#`, blank space at both ends left out. -/
structure Directive where
  place : Place
  body : List Char
  deriving DecidableEq, Repr

def Piece.lexeme? (piece : Piece) : Option Lexeme :=
  match piece.kind, piece.text with
  | .word, s => some (.word (String.ofList s))
  | .literal, _ => some .literal
  | .ellipsis, _ => some .ellipsis
  | .mark, c :: _ => some (.mark c)
  | _, _ => none

def token? (p : Place × Piece) : Option Token :=
  p.2.lexeme?.map fun lexeme => ⟨lexeme, p.1, Text.utf8Length p.2.text⟩

def directive? (p : Place × Piece) : Option Directive :=
  if p.2.kind = .directive then some ⟨p.1, Text.trim (p.2.text.drop 1)⟩ else none

/-- What the parser sees of a text. -/
structure Lexed where
  tokens : List Token
  directives : List Directive
  deriving Repr

/-- The tokens and directives of a text. -/
def lex (text : String) : Except Fault Lexed :=
  match pieces text.toList with
  | .error e => .error e
  | .ok ps =>
    let ps := placed .start ps
    .ok ⟨ps.filterMap token?, ps.filterMap directive?⟩

end SketchSense.Model
