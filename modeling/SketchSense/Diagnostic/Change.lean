import SketchSense.Diagnostic.Basic
import SketchSense.Hash.Content
import SketchSense.Table

/-!
# Change of diagnostics

Diagnostics are announced only when they differ from those announced before on the same channel.

* `Diagnostic.bytes` and `Diagnostic.listBytes`, what of a list of diagnostics is hashed;
* `ChangeNotifier`, the last hash on every channel, and `ChangeNotifier.observe`.
-/

namespace SketchSense

open ContentHash

namespace Diagnostic

mutual

/-- The hashed bytes of a diagnostic: its fields, the number of its children, and they. -/
def bytes : Diagnostic → List UInt8
  | ⟨location, severity, message, children⟩ =>
    textField location.file.display ++ textField message ++ numberField location.line
      ++ numberField location.column ++ numberField severity.rank
      ++ numberField children.length ++ childBytes children

def childBytes : List Diagnostic → List UInt8
  | [] => []
  | d :: ds => bytes d ++ childBytes ds

end

/-- The hashed bytes of a list of diagnostics: its length and its entries. -/
def listBytes (ds : List Diagnostic) : List UInt8 :=
  numberField ds.length ++ childBytes ds

def listHash (ds : List Diagnostic) : ContentHash := .ofBytes (listBytes ds)

end Diagnostic

/-- The hash of the diagnostics last seen on every channel. -/
structure ChangeNotifier where
  last : Table FilePath ContentHash := {}

namespace ChangeNotifier

/-- Takes note of the diagnostics on a channel and says whether they differ from the last. -/
def observe (n : ChangeNotifier) (channel : FilePath) (ds : List Diagnostic) :
    Bool × ChangeNotifier :=
  let hash := Diagnostic.listHash ds
  (n.last.get? channel != some hash, ⟨n.last.insert channel hash⟩)

end ChangeNotifier

end SketchSense
