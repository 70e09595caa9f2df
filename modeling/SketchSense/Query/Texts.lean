import SketchSense.FilePath.Kind

/-!
# Current texts

* `SourceTexts`, where the text of a file is looked for: among the engine's texts, then among the
  open files, then on disk.
-/

namespace SketchSense

/-- Where texts are looked for. -/
structure SourceTexts where
  /-- Texts given to the engine, in its coordinates. -/
  unsaved : List FileBuffer
  /-- Open files. -/
  files : List FileBuffer
  /-- What can be read on disk. -/
  disk : FilePath → Option String

/-- The text of a file among some files. -/
def codeOf? (path : FilePath) (files : List FileBuffer) : Option String :=
  (files.find? (·.path == path)).map (·.code)

/-- The current text of a file. -/
def SourceTexts.text? (t : SourceTexts) (path : FilePath) : Option String :=
  (codeOf? path t.unsaved).or ((codeOf? path t.files).or (t.disk path))

end SketchSense
