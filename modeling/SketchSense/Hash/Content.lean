import SketchSense.Hash.Xxh3

/-!
# Content hashes and composite keys

Two texts with the same content hash are taken to be the same text. Composite keys are hashes of
a byte sequence put together from fields; the sequences are functions of their own, so that what a
key carries can be stated apart from the hash.

* `ContentHash`, with `ofBytes` and `ofText`, and its written form `hex`;
* `textField`, `wordField` and `hashField`, the bytes of one field.
-/

namespace SketchSense

/-- A 64-bit hash of some content. -/
structure ContentHash where
  word : UInt64
  deriving DecidableEq, Repr

namespace ContentHash

/-- The hash of a byte sequence. -/
def ofBytes (bytes : List UInt8) : ContentHash := ⟨Hash.Xxh3.digest bytes.toByteArray⟩

/-- The UTF-8 bytes of a text. -/
def textBytes (text : String) : List UInt8 := text.toUTF8.data.toList

/-- The hash of a text. -/
def ofText (text : String) : ContentHash := ofBytes (textBytes text)

/-! ## Fields of a composite key -/

/-- A text field ends with a zero byte, so that neighbouring texts cannot run together. -/
def textField (text : String) : List UInt8 := textBytes text ++ [0]

/-- The bytes of a 64-bit word, least significant first. -/
def wordField (w : UInt64) : List UInt8 :=
  (List.range 8).map fun i => (w >>> (8 * i).toUInt64).toUInt8

/-- A number taken as a 64-bit word. -/
def numberField (n : Nat) : List UInt8 := wordField (UInt64.ofNat n)

def hashField (h : ContentHash) : List UInt8 := wordField h.word

@[simp] theorem length_wordField (w : UInt64) : (wordField w).length = 8 := by
  simp [wordField]

/-! ## Written form -/

/-- The last `digits` hexadecimal digits of a number, lower case. -/
def hexDigits : Nat → Nat → List Char
  | 0, _ => []
  | digits + 1, n => hexDigits digits (n / 16) ++ [Nat.digitChar (n % 16)]

/-- Sixteen hexadecimal digits. -/
def hex (h : ContentHash) : String := String.ofList (hexDigits 16 h.word.toNat)

/-- The upper half of the hash, as shown in logs. -/
def short (h : ContentHash) : String :=
  "ContentHash(" ++ String.ofList (hexDigits 8 (h.word.toNat / Nat.pow 2 32)) ++ "..)"

end ContentHash

end SketchSense
