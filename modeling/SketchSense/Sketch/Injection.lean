import SketchSense.Sketch.Definition
import SketchSense.Skeleton
import SketchSense.Table
import SketchSense.Text.Lines

/-!
# Injecting the include

The include of the generated header goes above the first function of a sketch: in place of the
nearest blank line, so that no line moves, or else on a line of its own. Where a blank line was
replaced is remembered for texts with the same skeleton.

* `InjectedText`, a text with the include;
* `InsertionMemo`, with `replay` from memory and `inject` from the definitions;
* `transformedSource`, a sketch with its include, after at most one parse.
-/

namespace SketchSense

/-- A text as it is handed to the engine. -/
structure InjectedText where
  text : String
  /-- Number of lines put in. -/
  lineShift : Nat
  /-- Whether the include is in the text. -/
  injected : Bool
  deriving DecidableEq, Repr

def InjectedText.unchanged (code : String) : InjectedText := ⟨code, 0, false⟩

/-- The text with the include on the line at `index`. A closing carriage return stays. -/
def replaceLine (lines : List (List Char)) (index : Nat) (line : List Char) : List (List Char) :=
  lines.modify index fun old => if old.getLast? = some '\r' then line ++ ['\r'] else line

/-- The nearest blank line before `index`. -/
def blankAbove? (lines : List (List Char)) : Nat → Option Nat
  | 0 => none
  | index + 1 =>
    if (lines[index]?.map Text.isBlankText).getD false then some index else blankAbove? lines index

/-- Where the include went, by the signature of the text. Positions count lines from 0. -/
structure InsertionMemo where
  points : Table ContentHash Nat := {}

namespace InsertionMemo

/-- The text with the include in place of a line. -/
def atLine (path : FilePath) (lines : List (List Char)) (index : Nat) : InjectedText :=
  let directive := path.includeDirective.toList
  ⟨String.ofList (Text.joinLines (replaceLine lines index directive)), 0, true⟩

/-- The text with the include at the remembered line, if that line is still blank. -/
def replay (m : InsertionMemo) (signature : ContentHash) (path : FilePath) (code : String) :
    Option InjectedText :=
  match m.points.get? signature with
  | none => none
  | some index =>
    let lines := Text.splitLines code.toList
    match lines[index]? with
    | some line => if Text.isBlankText line then some (atLine path lines index) else none
    | none => none

/-- The text with the include above the first definition; a replaced line is remembered. -/
def inject (m : InsertionMemo) (signature : ContentHash) (path : FilePath) (code : String)
    (ds : List Definition) : InjectedText × InsertionMemo :=
  match (ds.map (·.line)).min? with
  | none => (.unchanged code, m)
  | some first =>
    let lines := Text.splitLines code.toList
    let index := min (first - 1) lines.length
    match blankAbove? lines index with
    | some blank => (atLine path lines blank, ⟨m.points.insert signature blank⟩)
    | none =>
      let directive := path.includeDirective.toList
      let lines := lines.take index ++ directive :: lines.drop index
      (⟨String.ofList (Text.joinLines lines), 1, true⟩, m)

/-- The text with the include placed from memory, or else above the definitions that `scan`
finds. -/
def replayOrInject {σ : Type} (m : InsertionMemo) (signature : ContentHash) (path : FilePath)
    (code : String) (scan : EngineM σ (List Definition)) :
    EngineM σ (InjectedText × InsertionMemo) :=
  match m.replay signature path code with
  | some r => return (r, m)
  | none => return m.inject signature path code (← scan)

end InsertionMemo

/-- A sketch with the include of its generated header. Other files, and sketches that cannot be
parsed or define no function, stay as they are. -/
def transformedSource {σ : Type} (e : Engine σ) (path : FilePath) (code : String)
    (args : List String) (m : InsertionMemo) : EngineM σ (InjectedText × InsertionMemo) :=
  if path.kind ≠ .sketchEntry then return (.unchanged code, m)
  else
    let signature := (Skeleton.ofCode code).signature path.display
    m.replayOrInject signature path code do return (← definitions? e path code args).getD []

end SketchSense
