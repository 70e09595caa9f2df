import SketchSense.FilePath.Basic

/-!
# Kinds of files

* `FileKind`, how a file takes part in analysis, decided by its extension (ASCII case aside);
* `FileBuffer`, the current text of an open file.
-/

namespace SketchSense

/-- How a file takes part in analysis. -/
inductive FileKind where
  /-- A sketch entry (`.ino`), presented under another name for analysis. -/
  | sketchEntry
  /-- A header (`.h`, `.hpp`, `.hh`). -/
  | header
  /-- An implementation file (`.c`, `.cpp`, `.cc`, `.cxx`). -/
  | source
  | other
  deriving DecidableEq, Repr

namespace FileKind

/-- The kind that goes with an extension in lower case. -/
def ofExtension (ext : String) : FileKind :=
  if ext = "ino" then .sketchEntry
  else if ext ∈ ["h", "hpp", "hh"] then .header
  else if ext ∈ ["c", "cpp", "cc", "cxx"] then .source
  else .other

/-- Kinds that make a compilation unit of their own in a project-wide pass. -/
def isProjectSource (k : FileKind) : Bool := k = .sketchEntry || k = .source

end FileKind

/-- A text with its ASCII capitals made small. -/
def asciiLower (s : String) : String := String.ofList (s.toList.map Char.toLower)

namespace FilePath

def kind (p : FilePath) : FileKind :=
  match p.extension? with
  | some ext => .ofExtension (asciiLower ext)
  | none => .other

end FilePath

/-- The text of an open file, unsaved edits included. -/
structure FileBuffer where
  path : FilePath
  code : String
  deriving Repr, Inhabited

def FileBuffer.kind (b : FileBuffer) : FileKind := b.path.kind

end SketchSense
