import SketchSense.Toml.Number
import SketchSense.Toml.Value

/-!
# Documents

* `value`, a value of any kind, with its nesting bounded;
* `Line` and `Section`, what a document is made of;
* `Entries.ofText?`, the table that a document writes.
-/

namespace SketchSense.Toml

open Reader

/-! ## Values -/

def scalar : Reader Value :=
  (do return .text (String.ofList (← quoted)))
  <|> (do moment; return .moment)
  <|> (do float; return .float)
  <|> (do return .integer (← integer))
  <|> (do mark "true" <|> mark "false"; return .truth)

/-- Values between brackets. A comma may follow the last one. -/
def array (item : Reader Value) : Reader Value := do
  let spaced : Reader Value := do
    gap
    let v ← item
    gap
    return v
  mark "["
  let items ← maybe do
    let items ← separated spaced (mark ",")
    let _ ← maybe (mark ",")
    return items
  gap
  mark "]"
  return .array (items.getD [])

/-- A key and its value, with an equals sign between them. -/
def pair (item : Reader Value) : Reader (List String × Value) := do
  let k ← key
  mark "="
  blanks
  return (k, ← item)

/-- A table between braces, on one line. No comma follows the last value. -/
def braced (item : Reader Value) : Reader Value := do
  let spaced : Reader (List String × Value) := do
    let p ← pair item
    blanks
    return p
  mark "\x7b"
  let pairs ← maybe (separated spaced (mark ","))
  blanks
  mark "\x7d"
  match Entries.assignAll {} (pairs.getD []) with
  | some entries => return .table .braced entries
  | none => failure

/-- A value with at most `depth` brackets and braces around its innermost parts. -/
def value : (depth : Nat) → Reader Value
  | 0 => scalar
  | depth + 1 => scalar <|> array (value depth) <|> braced (value depth)

/-! ## Lines -/

/-- A line that says something. -/
inductive Line where
  | pair (key : List String) (value : Value)
  /-- A table's header. -/
  | table (path : List String)
  /-- The header of one more table of its name. -/
  | element (path : List String)

def Line.reader : Reader Line := do
  let line ← (do
      mark "[["
      let path ← key
      mark "]]"
      return Line.element path)
    <|> (do
      mark "["
      let path ← key
      mark "]"
      return Line.table path)
    <|> (do
      let (k, v) ← Toml.pair (value (depthLimit - 1))
      return Line.pair k v)
  restOfLine
  return line

/-- The lines of a document that say something. The text may start with a byte order mark. -/
def lines : Reader (List Line) := do
  let _ ← maybe (mark "\ufeff")
  blanks
  let read ← many do
    let line ← (do newline; return none) <|> (do comment; lineEnd; return none)
      <|> (do return some (← Line.reader))
    blanks
    return line
  atEnd
  return read.filterMap id

/-! ## The whole -/

/-- The pairs under a header. -/
structure Section where
  add : Entries → List (List String × Value) → Option Entries
  pairs : List (List String × Value)

/-- Gathers the pairs in front of the first header, and those under each header. -/
def gather : List Line → List (List String × Value) × List Section
  | [] => ([], [])
  | line :: rest =>
    let (pairs, sections) := gather rest
    match line with
    | .pair k v => ((k, v) :: pairs, sections)
    | .table path => ([], ⟨fun t => t.openTable path, pairs⟩ :: sections)
    | .element path => ([], ⟨fun t => t.addTable path, pairs⟩ :: sections)

/-- The table that lines build, section by section. -/
def Entries.ofLines? (ls : List Line) : Option Entries := do
  let (pairs, sections) := gather ls
  let start ← Entries.assignAll {} pairs
  sections.foldlM (fun t s => s.add t s.pairs) start

/-- The table that a document writes; none if it is not a document. -/
def Entries.ofText? (text : String) : Option Entries := do
  let (ls, _) ← lines text.toList
  Entries.ofLines? ls

end SketchSense.Toml
