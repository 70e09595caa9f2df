import SketchSense.Collation

/-!
# Paths

A path keeps its text as it was given. What it names is decided by its components: repeated and
trailing separators and `.` components past the first say nothing, so paths with the same
components are equal and have the same place in the order.

Only paths that are texts are modelled here. The system may give a path that is not the UTF-8 form of
any text; what is asked of those is in `SketchSense.FilePath.Octets`, and on texts it agrees with what
is asked here.

* `Component` and `FilePath.components`, with equality and order of paths;
* `fileName?`, `extension?`, `fileStem?`, `parent?`: the parts of the last component;
* `join`, a path taken relative to another.
-/

namespace SketchSense

/-- A step of a path, in the order in which steps compare. -/
inductive Component where
  | root
  | current
  | up
  | name (text : String)
  deriving DecidableEq, Repr

namespace Component

/-- Steps of different kinds compare by kind. -/
def rank : Component → Nat
  | root => 0
  | current => 1
  | up => 2
  | name _ => 3

/-- Two names compare as texts. -/
def compare : Component → Component → Ordering
  | name s, name t => Ord.compare s t
  | a, b => Ord.compare a.rank b.rank

instance : Ord Component := ⟨compare⟩

end Component

/-- A path that is a text, written with `/`. -/
structure FilePath where
  text : String
  deriving Repr, Inhabited

namespace FilePath

/-! ## Components -/

/-- The pieces of a text between separators. -/
def splitSlashes : List Char → List (List Char)
  | [] => [[]]
  | c :: cs =>
    if c = '/' then [] :: splitSlashes cs
    else match splitSlashes cs with
      | [] => [[c]]
      | s :: ss => (c :: s) :: ss

/-- The text that has the given pieces between its separators. -/
def joinSlashes : List (List Char) → List Char
  | [] => []
  | [s] => s
  | s :: ss => s ++ '/' :: joinSlashes ss

def segments (p : FilePath) : List (List Char) := splitSlashes p.text.toList

def isAbsolute (p : FilePath) : Bool := p.text.toList.head? == some '/'

def isEmpty (p : FilePath) : Bool := p.text.toList.isEmpty

/-- A segment that names nothing. -/
def isIdle (s : List Char) : Bool := s = [] || s = ['.']

def componentOf (s : List Char) : Component :=
  if s = ['.', '.'] then .up else .name (String.ofList s)

/-- The steps of a path. A leading `.` of a relative path is a step; later ones are not. -/
def components (p : FilePath) : List Component :=
  let segs := p.segments
  let lead :=
    if p.isAbsolute then [Component.root]
    else if segs.head? = some ['.'] then [Component.current]
    else []
  lead ++ (segs.filter (!isIdle ·)).map componentOf

instance : BEq FilePath := ⟨fun p q => p.components == q.components⟩

/-- Paths are equal when their steps are. -/
theorem beq_iff {p q : FilePath} : (p == q) = true ↔ p.components = q.components :=
  beq_iff_eq (a := p.components) (b := q.components)

instance : EquivBEq FilePath where
  rfl := by simp [beq_iff]
  symm h := beq_iff.2 (beq_iff.1 h).symm
  trans h h' := beq_iff.2 ((beq_iff.1 h).trans (beq_iff.1 h'))

def compare (p q : FilePath) : Ordering := lexCompare Component.compare p.components q.components

instance : Ord FilePath := ⟨compare⟩

/-- Every step of `root` is the first of `p`'s steps. -/
def startsWith (p root : FilePath) : Bool := root.components.isPrefixOf p.components

/-! ## The last component -/

/-- The segments up to the last one that names something, and that one. -/
def splitLast? (p : FilePath) : Option (List (List Char) × List Char) :=
  match p.segments.reverse.dropWhile isIdle with
  | [] => none
  | s :: before => some (before.reverse, s)

/-- The last step, if it is a name. -/
def fileName? (p : FilePath) : Option String :=
  match p.splitLast? with
  | some (_, s) => if s = ['.', '.'] then none else some (String.ofList s)
  | none => none

/-- Cuts a file name at its last dot. A name whose only dot comes first has no extension. -/
def splitExtension (name : List Char) : List Char × Option (List Char) :=
  let tail := name.reverse.takeWhile (· ≠ '.')
  let stem := (name.reverse.drop (tail.length + 1)).reverse
  if tail.length = name.length ∨ stem = [] then (name, none) else (stem, some tail.reverse)

def fileStem? (p : FilePath) : Option String :=
  p.fileName?.map fun n => String.ofList (splitExtension n.toList).1

def extension? (p : FilePath) : Option String :=
  p.fileName?.bind fun n => (splitExtension n.toList).2.map String.ofList

/-- The path without its last extension, and without anything that follows the file name. -/
def withoutExtension (p : FilePath) : FilePath :=
  match p.splitLast? with
  | some (before, s) =>
    if s = ['.', '.'] then p
    else ⟨String.ofList (joinSlashes (before ++ [(splitExtension s).1]))⟩
  | none => p

/-- The path with `tail` written after its text. -/
def append (p : FilePath) (tail : String) : FilePath := ⟨p.text ++ tail⟩

/-! ## Going up and down -/

/-- Takes idle segments off the end, but leaves the first one: it stands for the root, for a
leading `.` or for a step. -/
def trimSegments : List (List Char) → List (List Char)
  | [] => []
  | first :: rest => first :: (rest.reverse.dropWhile isIdle).reverse

/-- The text of a path with the given segments, of which the first may stand for the root. -/
def ofSegments (absolute : Bool) (segs : List (List Char)) : FilePath :=
  if absolute ∧ segs = [[]] then ⟨"/"⟩ else ⟨String.ofList (joinSlashes segs)⟩

/-- The path without its last step; none for the root and for the empty path. -/
def parent? (p : FilePath) : Option FilePath :=
  match p.splitLast? with
  | some (before, _) => some (ofSegments p.isAbsolute (trimSegments before))
  | none => if p.components = [.current] then some ⟨""⟩ else none

/-- The path `q` taken from `p`: `q` itself if it is absolute, else `q` written after `p`. -/
def join (p q : FilePath) : FilePath :=
  if q.isAbsolute then q
  else if p.isEmpty ∨ p.text.toList.getLast? = some '/' then ⟨p.text ++ q.text⟩
  else ⟨p.text ++ "/" ++ q.text⟩

/-- The path written with forward slashes only. -/
def display (p : FilePath) : String :=
  String.ofList (p.text.toList.map fun c => if c = '\\' then '/' else c)

end FilePath

end SketchSense
