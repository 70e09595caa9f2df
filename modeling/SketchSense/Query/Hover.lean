import SketchSense.Query.Sibling
import SketchSense.Symbol.Collect
import SketchSense.Text.Comment
import SketchSense.Text.Snippet

/-!
# Hover information

* `Hover`, what is shown for a name, and `Hover.text`, its text;
* `nameParameters`, a signature with the names of its parameters put in;
* `hover?`, the hover of a position. A symbol without structured comment shows the comment above its
  declaration, or else the declaration itself.
-/

namespace SketchSense

/-- What is shown for a name. -/
structure Hover where
  name : String
  kind : String
  typeName : String
  signature : String
  usr : String
  briefComment : String
  fullComment : String
  parameters : List Parameter
  deriving DecidableEq, Repr

/-! ## Signatures -/

/-- A parameter as it is shown in a signature. -/
def Parameter.shown (p : Parameter) : List Char :=
  let type := Text.trim p.typeName.toList
  let name := Text.trim p.name.toList
  let dots := ['.', '.', '.']
  if type = dots ∨ name = dots then dots
  else if type = [] then name
  else if name = [] then type
  else type ++ ' ' :: name

/-- A text cut behind its first `(` and before its last `)`. -/
def cutParameters? (s : List Char) : Option (List Char × List Char) :=
  match Text.cutFirst? ['('] s with
  | none => none
  | some (before, rest) =>
    let tail := rest.reverse.takeWhile (· ≠ ')')
    if tail.length = rest.length then none
    else some (before ++ ['('], ')' :: tail.reverse)

/-- A signature whose parameter list is written with the given parameters. What follows the list
stays. -/
def nameParameters (signature : String) (ps : List Parameter) : String :=
  match ps, cutParameters? signature.toList with
  | _ :: _, some (before, rest) =>
    String.ofList (before ++ ", ".toList.intercalate (ps.map Parameter.shown) ++ rest)
  | _, _ => signature

namespace Hover

/-- Whether there is anything to show besides the name. -/
def isUseful (h : Hover) : Bool :=
  h.kind ≠ "" || h.briefComment ≠ "" || h.fullComment ≠ ""
    || (h.signature ≠ "" && h.signature ≠ h.name) || (h.typeName ≠ "" && h.typeName ≠ h.name)

/-- The line with the signature, or with the name and its type. -/
def headline (h : Hover) : String :=
  if h.signature ≠ "" ∧ h.signature ≠ h.name then
    nameParameters h.signature h.parameters ++ "\n"
  else if h.name ≠ "" then
    h.name ++ (if h.typeName ≠ "" then " : " ++ h.typeName else "") ++ "\n"
  else ""

/-- The documentation below the headline. -/
def documentation (h : Hover) : String :=
  if h.fullComment ≠ "" then "\n" ++ h.fullComment
  else if h.briefComment ≠ "" then "\n" ++ h.briefComment
  else ""

/-- The hover as text; empty if there is nothing useful to show. -/
def text (h : Hover) : String :=
  if h.isUseful then
    (if h.kind ≠ "" then h.kind ++ "\n\n" else "") ++ h.headline ++ h.documentation
  else ""

end Hover

/-! ## Documentation from the text -/

/-- A comment with its first line. -/
structure Documentation where
  brief : String
  full : String
  deriving DecidableEq, Repr

/-- The comment above a line. -/
def commentAt? (code : String) (line : Nat) : Option Documentation :=
  let comment := Text.commentAbove code line
  if comment = "" then none else some ⟨Text.brief comment, comment⟩

/-- A piece of code shown as documentation. -/
def declarationText (code : String) : Documentation :=
  if code = "" then ⟨"", ""⟩ else ⟨"", "Declaration:\n" ++ Text.indent code 2⟩

/-- The lines of a declaration, up to the end of its body. -/
def declarationLines (u : CompilationUnit) (c : Cursor) (code : String) : String :=
  let last := ((u.bodyOf? c).map (·.extentEnd.line)).getD c.location.line
  Text.snippet code c.location.line last

/-- The lines of a definition in another file, of which the end is not known. -/
def definitionLines (code : String) (line : Nat) : Except Fault String := do
  return Text.snippet code line (← bounded (line + 3))

variable {σ : Type}

/-- The documentation found beside the header of a function; `code` is what is shown without any. -/
def siblingDocumentation (b : UnitBuilder σ) (texts : SourceTexts) (c : Cursor) (code : String) :
    EngineM σ Documentation := do
  match ← siblingDefinition? b texts c with
  | none => return declarationText code
  | some l =>
    match texts.text? l.file with
    | none => return declarationText code
    | some text =>
      match commentAt? text l.line with
      | some d => return d
      | none =>
        if code ≠ "" then return declarationText code
        else return declarationText (← ExceptT.mk (pure (definitionLines text l.line)))

/-- The documentation of a symbol that has no structured comment. -/
def documentationOf (b : UnitBuilder σ) (texts : SourceTexts) (u : CompilationUnit) (c : Cursor) :
    EngineM σ Documentation :=
  let text := if c.location.isUnknown ∨ c.location.line = 0 then none
    else texts.text? c.location.file
  match text with
  | none => siblingDocumentation b texts c ""
  | some text =>
    match commentAt? text c.location.line with
    | some d => return d
    | none => siblingDocumentation b texts c (declarationLines u c text)

/-! ## The hover of a position -/

/-- The symbol that is shown: what the name refers to, but not the prototype in a generated header
if there is a definition. -/
def hoverCursor (u : CompilationUnit) (c : Cursor) : Cursor :=
  let target := ((u.referenced c).or (u.definition c)).getD c
  if target.location.file.isPrototypeHeader then (u.definition target).getD target else target

/-- The signature of a symbol; functions show their result type. -/
def Cursor.signature (c : Cursor) : String :=
  let hasResult := c.kind = .function ∨ c.kind = .method ∨ c.kind = .functionTemplate
  if hasResult ∧ c.resultType ≠ "" ∧ c.displayName ≠ "" then c.resultType ++ " " ++ c.displayName
  else c.displayName

/-- The hover of a symbol with its documentation. -/
def Cursor.hover (c : Cursor) (d : Documentation) : Hover where
  name := c.spelling
  kind := c.kind.word
  typeName := c.typeName
  signature := c.signature
  usr := c.usr
  briefComment := d.brief
  fullComment := d.full
  parameters := if c.kind.isFunctionLike then c.parameters else []

/-- What is shown for a symbol; none if there is neither a name nor documentation. -/
def hoverOf (b : UnitBuilder σ) (texts : SourceTexts) (u : CompilationUnit) (c : Cursor) :
    EngineM σ (Option Hover) := do
  let given : Documentation := ⟨c.briefComment.getD "", c.rawComment.getD ""⟩
  let d ← if given.brief = "" ∧ given.full = "" then documentationOf b texts u c else pure given
  let h := c.hover d
  if h.name = "" ∧ h.signature = "" ∧ h.briefComment = "" ∧ h.fullComment = "" then return none
  else return some h

/-- What is shown for a position. -/
def hover? (b : UnitBuilder σ) (texts : SourceTexts) (e : CachedUnit) (line column : Nat) :
    EngineM σ (Option Hover) := do
  let l ← ExceptT.mk (pure (e.map.toAnalyzed line column))
  match e.unit.cursorAt l with
  | none => return none
  | some c => hoverOf b texts e.unit (hoverCursor e.unit c)

end SketchSense
