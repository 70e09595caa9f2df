import SketchSense.Hash.Content

/-!
# Declaration skeletons

The skeleton of a file is its text without comments, literals and function bodies, with blank
space collapsed. Edits inside a body leave it unchanged, so decisions that depend on declarations
alone can be kept while bodies are edited.

The scan takes one character at a time, with the next one in sight:

* `Scan`, the state of the scan, and `Scan.step`, its move over one character;
* `Skeleton.ofCode`, the skeleton of a text, with the lines on which its bodies open;
* `Skeleton.signature` and `Skeleton.layout`, the keys without and with those lines.
-/

namespace SketchSense

/-- What is left of a file once comments, literals and bodies are gone. -/
structure Skeleton where
  /-- The remaining text, blank space collapsed. -/
  text : List Char
  /-- The lines on which a skipped body opens, counted from 1. -/
  bodyLines : List Nat
  deriving DecidableEq, Repr

namespace Skeleton

/-! ## Scanning -/

/-- What the scan stands in. The two marks of a block comment have two characters each, so the
second one has a region of its own. -/
inductive Region where
  | code
  | lineComment
  | blockOpening
  | blockComment
  | blockClosing
  /-- A literal that ends at `quote`; `escaped` says that a backslash stands just before. -/
  | literal (quote : Char) (escaped : Bool)
  deriving DecidableEq, Repr

/-- State of the scan. -/
structure Scan where
  region : Region := .code
  /-- Open braces of the body that is being skipped; 0 outside bodies. -/
  depth : Nat := 0
  /-- A `)` has been seen with no `;` since, so the next brace opens a body. -/
  bodyExpected : Bool := false
  line : Nat := 1
  /-- The skeleton so far, last character first. -/
  written : List Char := []
  /-- The lines of the bodies so far, last first. -/
  bodies : List Nat := []
  deriving DecidableEq, Repr

namespace Scan

/-- Blank space of code. -/
def isSpace (c : Char) : Bool :=
  c == ' ' || c == '\t' || c == '\n' || c == '\r' || c == '\x0c'

def push (s : Scan) (c : Char) : Scan := { s with written := c :: s.written }

/-- One space, unless the skeleton already ends with one. -/
def space (s : Scan) : Scan := if s.written.head? = some ' ' then s else s.push ' '

def newline (s : Scan) : Scan :=
  { s with
    line := s.line + 1
    region := if s.region = Region.lineComment then .code else s.region }.space

/-- A character inside a skipped body: only braces count. -/
def inBody (s : Scan) (c : Char) : Scan :=
  if c = '{' then { s with depth := s.depth + 1 }
  else if c = '}' then
    let s := { s with depth := s.depth - 1 }
    if s.depth = 0 then s.push '}' else s
  else s

/-- A character of a declaration. A brace opens a body when a parameter list stands before it. -/
def inDeclaration (s : Scan) (c : Char) : Scan :=
  let s :=
    if c = ')' then { s with bodyExpected := true }
    else if c = ';' then { s with bodyExpected := false }
    else if c = '{' ∧ s.bodyExpected then
      { s with bodyExpected := false, depth := 1, bodies := s.line :: s.bodies }
    else s
  s.push c

/-- The region entered at a character of code, if it opens a comment or a literal. -/
def opened? (c : Char) (next : Option Char) : Option Region :=
  if c = '/' ∧ next = some '/' then some .lineComment
  else if c = '/' ∧ next = some '*' then some .blockOpening
  else if c = '"' ∨ c = '\'' then some (.literal c false)
  else none

def inCode (s : Scan) (c : Char) (next : Option Char) : Scan :=
  match opened? c next with
  | some region => { s with region }
  | none =>
    if s.depth > 0 then s.inBody c
    else if isSpace c then s.space
    else s.inDeclaration c

/-- The move over one character, with the next one in sight. -/
def step (s : Scan) (c : Char) (next : Option Char) : Scan :=
  if c = '\n' then s.newline
  else match s.region with
    | .code => s.inCode c next
    | .lineComment => s
    | .blockOpening => { s with region := .blockComment }
    | .blockComment =>
      if c = '*' ∧ next = some '/' then { s with region := .blockClosing } else s
    | .blockClosing => { s with region := .code }
    | .literal quote escaped =>
      if ¬ escaped ∧ c = quote then { s with region := .code }
      else { s with region := .literal quote (¬ escaped ∧ c = '\\') }

def run : Scan → List Char → Scan
  | s, [] => s
  | s, c :: cs => run (s.step c cs.head?) cs

end Scan

/-- The skeleton of a text. -/
def ofCode (code : String) : Skeleton :=
  let s := Scan.run {} code.toList
  ⟨s.written.reverse, s.bodies.reverse⟩

/-! ## Keys -/

/-- The bytes of the signature: the file's name and the skeleton's text. -/
def signatureBytes (sk : Skeleton) (file : String) : List UInt8 :=
  ContentHash.textField file ++ ContentHash.textBytes (String.ofList sk.text)

/-- Hash of the file's name and the skeleton's text. -/
def signature (sk : Skeleton) (file : String) : ContentHash :=
  .ofBytes (sk.signatureBytes file)

/-- The bytes of the layout: the signature and the line of every body. -/
def layoutBytes (sk : Skeleton) (file : String) : List UInt8 :=
  ContentHash.hashField (sk.signature file) ++ sk.bodyLines.flatMap ContentHash.numberField

/-- Hash that also changes when a body moves to another line. -/
def layout (sk : Skeleton) (file : String) : ContentHash := .ofBytes (sk.layoutBytes file)

end Skeleton

end SketchSense
