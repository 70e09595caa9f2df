import SketchSense.Collation
import SketchSense.Cursor.Basic
import SketchSense.FilePath.Kind
import SketchSense.Text.Bytes
import SketchSense.Text.Lines
import SketchSense.Text.Search

/-!
# Choosing and ranking completions

* `typedBefore`, the part of a name that stands before a position;
* `CompletionItem`, a completion as it is shown, and `CompletionItem.fits`, whether it goes with
  what was typed;
* `RankKey` and `CompletionItem.rank`, the order of the list;
* `chooseCompletions`, the list: overloads folded into one item, cut to a limit.
-/

namespace SketchSense

/-! ## What was typed -/

def isNamePart (c : Char) : Bool := c.isAlphanum || c == '_'

/-- The longest end of a text that is part of a name. -/
def nameTail (s : List Char) : List Char := (s.reverse.takeWhile isNamePart).reverse

/-- The part of a name that stands before a position; empty if the position is not in the text. -/
def typedBefore (code : String) (line column : Nat) : String :=
  let s := code.toList
  match Text.offset? s line 1, Text.offset? s line column with
  | some start, some stop => String.ofList (nameTail ((Text.sliceBytes? start stop s).getD []))
  | _, _ => ""

/-! ## Items -/

/-- A completion as it is shown. -/
structure CompletionItem where
  /-- The text to put in. -/
  text : String
  label : String
  resultType : String
  kind : CursorKind
  priority : Nat
  file : Option FilePath
  /-- Whether it is declared in the sketch. -/
  fromSketch : Bool
  /-- Number of further overloads. -/
  overloads : Nat
  deriving Repr

namespace CompletionItem

/-- Whether an item goes with what was typed: it contains it, ASCII case aside. Where nothing was
typed, only items of the sketch do. -/
def fits (typed : String) (i : CompletionItem) : Bool :=
  if typed = "" then i.fromSketch
  else Text.contains (asciiLower typed).toList (asciiLower i.text).toList

/-- A name in capitals with an underscore. -/
def isMacroLike (text : String) : Bool :=
  let cs := text.toList
  !cs.any Char.isLower && cs.any Char.isUpper && cs.contains '_'

end CompletionItem

/-- What decides about the place of an item: the numbers first, then the text. -/
structure RankKey where
  numbers : List Nat
  text : String
  deriving DecidableEq, Repr

def RankKey.compare (a b : RankKey) : Ordering :=
  (lexCompare Ord.compare a.numbers b.numbers).then (Ord.compare a.text b.text)

namespace CompletionItem

/-- The place of an item: exact matches come first, then those that start with what was typed, then
those that do so in another case, then the sketch's own; kind, priority and plainness of the name
decide about the rest. -/
def rank (typed : String) (i : CompletionItem) : RankKey :=
  let last (b : Bool) : Nat := if b then 0 else 1
  let startsWith := Text.startsWith typed.toList i.text.toList
  let startsWithAnyCase := Text.startsWith (asciiLower typed).toList (asciiLower i.text).toList
  { numbers :=
      [last (i.text = typed), last startsWith, last startsWithAnyCase, last i.fromSketch,
        i.kind.score, i.priority, (isMacroLike i.text).toNat, i.text.toList.count '_',
        i.text.utf8ByteSize]
    text := i.text }

/-- Order of items for what was typed. -/
def compareFor (typed : String) (a b : CompletionItem) : Ordering :=
  (a.rank typed).compare (b.rank typed)

/-- An item into which further ones are folded; its label then tells how many there are. -/
def fold (i : CompletionItem) (further : Nat) : CompletionItem :=
  let overloads := i.overloads + further
  { i with
    overloads
    label := if overloads > 0 then s!"{i.text}(...) - {overloads + 1} overloads" else i.label }

/-- Of items with one text the first, with the others folded in. -/
def foldOverloads (is : List CompletionItem) : List CompletionItem :=
  (keepFirst (·.text) is).map fun i => i.fold (is.countP (fun j => j.text = i.text) - 1)

end CompletionItem

/-- The completions shown for what was typed, at most `limit`. -/
def chooseCompletions (typed : String) (is : List CompletionItem) (limit : Nat) :
    List CompletionItem :=
  let sorted := sortBy (CompletionItem.compareFor typed) (is.filter (·.fits typed))
  (CompletionItem.foldOverloads sorted).take limit

end SketchSense
