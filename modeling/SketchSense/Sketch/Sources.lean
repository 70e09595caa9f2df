import SketchSense.Sketch.Injection

/-!
# Sources for the engine

A sketch entry is handed to the engine under another name, with its generated header and with the
include of that header; any other file is handed over as it is.

* `Sources`, the texts of one file with their coordinate map;
* `Transformer`, the generated headers by layout with the insertion memo, and
  `Transformer.sources`.
-/

namespace SketchSense

/-- The texts that the engine gets for one file. -/
structure Sources where
  main : FileBuffer
  header : Option FileBuffer
  map : CoordinateMap
  deriving Repr

namespace Sources

/-- A file that is handed over as it is. -/
def plain (path : FilePath) (code : String) : Sources := ⟨⟨path, code⟩, none, .identity path⟩

/-- All texts, the header first. -/
def unsaved (s : Sources) : List FileBuffer := s.header.toList ++ [s.main]

/-- A sketch that gets no header: it only changes its name. -/
def renamed (path : FilePath) (code : String) : Sources :=
  ⟨⟨path.analyzedName, code⟩, none, ⟨path, path.analyzedName, none, 0⟩⟩

/-- A sketch after injection, with its header. The header is left out if nothing includes it. -/
def injected (path : FilePath) (header : String) (r : InjectedText) : Sources :=
  let headerPath := path.prototypeHeader
  { main := ⟨path.analyzedName, r.text⟩
    header := if r.injected then some ⟨headerPath, header⟩ else none
    map := ⟨path, path.analyzedName, if r.injected then some headerPath else none, r.lineShift⟩ }

end Sources

/-- What is remembered between the injections of sketches. -/
structure Transformer where
  memo : InsertionMemo := {}
  /-- Generated headers by the layout of the text. -/
  headers : Table ContentHash String := {}

namespace Transformer

variable {σ : Type}

/-- The sources of a sketch whose header is known. -/
def withHeader (t : Transformer) (path : FilePath) (code header : String)
    (scan : EngineM σ (List Definition)) : EngineM σ (Sources × Transformer) :=
  if header = "" then return (.renamed path code, t)
  else do
    let signature := (Skeleton.ofCode code).signature path.display
    let (r, memo) ← t.memo.replayOrInject signature path code scan
    return (.injected path header r, { t with memo })

/-- The sources of a file. A sketch is parsed at most once, and not at all if its header and the
place of its include are known. -/
def sources (e : Engine σ) (t : Transformer) (path : FilePath) (code : String)
    (args : List String) : EngineM σ (Sources × Transformer) :=
  if path.kind ≠ .sketchEntry then return (.plain path code, t)
  else
    let layout := (Skeleton.ofCode code).layout path.display
    match t.headers.get? layout with
    | some header =>
      t.withHeader path code header do return (← definitions? e path code args).getD []
    | none => do
      let found ← definitions? e path code args
      let header := (found.map (prototypeHeader path)).getD ""
      let t := { t with headers := t.headers.insert layout header }
      t.withHeader path code header (return found.getD [])

end Transformer

end SketchSense
