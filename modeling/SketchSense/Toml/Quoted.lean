import SketchSense.Toml.Reader

/-!
# Texts and keys of a document

* `escape`, a character written behind a backslash;
* `basicText` and `literalText` on one line, `basicBlock` and `literalBlock` over many lines;
* `key`, a dotted key.
-/

namespace SketchSense.Toml

open Reader

/-! ## Escapes -/

def isHexDigit (c : Char) : Bool :=
  c.isDigit || ('a' ≤ c && c ≤ 'f') || ('A' ≤ c && c ≤ 'F')

/-- The value of a digit, in any base up to 16. -/
def digitValue (c : Char) : Nat :=
  if c.isDigit then c.toNat - '0'.toNat
  else if 'a' ≤ c then c.toNat - 'a'.toNat + 10
  else c.toNat - 'A'.toNat + 10

/-- The number that digits write. -/
def numberOf (base : Nat) (digits : List Char) : Nat :=
  digits.foldl (fun n c => n * base + digitValue c) 0

/-- A character given by the number that `digits` hexadecimal digits write. -/
def codePoint (digits : Nat) : Reader Char := do
  let n := numberOf 16 (← exactly digits isHexDigit)
  require (Nat.isValidChar n)
  return Char.ofNat n

/-- The characters with a letter of their own behind the backslash. -/
def escapeLetters : List (Char × Char) :=
  [('b', '\x08'), ('t', '\t'), ('n', '\n'), ('f', '\x0c'), ('r', '\r'), ('"', '"'), ('\\', '\\')]

def escape : Reader Char := do
  mark "\\"
  match ← charIf fun _ => true with
  | 'u' => codePoint 4
  | 'U' => codePoint 8
  | c =>
    match escapeLetters.lookup c with
    | some d => return d
    | none => failure

/-! ## On one line -/

/-- A run of characters that stand for themselves between double quotes. -/
def basicRun : Reader (List Char) := run1 fun c => isPlain c && c != '"' && c != '\\'

/-- A run of characters that stand for themselves between single quotes. -/
def literalRun : Reader (List Char) := run1 fun c => isPlain c && c != '\''

def escaped : Reader (List Char) := do return [← escape]

def basicText : Reader (List Char) := do
  mark "\""
  let parts ← many (basicRun <|> escaped)
  mark "\""
  return parts.flatten

def literalText : Reader (List Char) := do
  mark "'"
  let text ← maybe literalRun
  mark "'"
  return text.getD []

/-! ## Over many lines -/

/-- A line end in a text is a line feed, however it is written. -/
def lineFeed : Reader (List Char) := do
  newline
  return ['\n']

/-- A backslash at the end of a line takes all blank space behind it away. -/
def continuedLine : Reader (List Char) := do
  mark "\\"
  blanks
  newline
  let _ ← many (newline <|> do let _ ← run1 isBlank)
  return []

/-- One or two quotes within a block: something other than a quote must follow. -/
def innerQuotes (quote : Char) (content : Reader (List Char)) : Reader (List Char) := do
  let quotes := (do mark (String.ofList [quote, quote]); return [quote, quote])
    <|> (do mark (String.singleton quote); return [quote])
  let q ← quotes
  return q ++ (← content)

/-- The three quotes that end a block. Up to two more before them belong to the text. -/
def closing (quote : Char) : Reader (List Char) :=
  let ends (kept : Nat) : Reader (List Char) := do
    mark (String.ofList (List.replicate (kept + 3) quote))
    return List.replicate kept quote
  ends 2 <|> ends 1 <|> ends 0

/-- A block between three quotes. A line end right behind the opening quotes is left out. -/
def block (quote : Char) (content : Reader (List Char)) : Reader (List Char) := do
  mark (String.ofList [quote, quote, quote])
  let _ ← maybe newline
  let parts ← many (content <|> innerQuotes quote content)
  return parts.flatten ++ (← closing quote)

def basicBlock : Reader (List Char) :=
  block '"' (basicRun <|> continuedLine <|> escaped <|> lineFeed)

def literalBlock : Reader (List Char) := block '\'' (literalRun <|> lineFeed)

/-- A text in any of the four notations. -/
def quoted : Reader (List Char) := basicBlock <|> basicText <|> literalBlock <|> literalText

/-! ## Keys -/

def isBareKeyPart (c : Char) : Bool := c.isAlphanum || c == '-' || c == '_'

/-- One part of a key: quoted on one line, or bare. -/
def simpleKey : Reader String := do
  return String.ofList (← basicText <|> literalText <|> run1 isBareKeyPart)

/-- Keys and values go fewer levels down than this. -/
def depthLimit : Nat := 80

/-- A dotted key, with blanks around its parts. -/
def key : Reader (List String) := do
  let part : Reader String := do
    blanks
    let k ← simpleKey
    blanks
    return k
  let parts ← separated part (mark ".")
  require (parts.length < depthLimit)
  return parts

end SketchSense.Toml
