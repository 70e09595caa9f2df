import SketchSense.Hash.Content

/-!
# Texts of octets

A name that the system gives is a sequence of octets. It is compared as it is, read as a text where it
is the UTF-8 form of one, and shown with a replacement character for every part that is not.

* `textOf?`, the text that some octets are the UTF-8 form of;
* `brokenTail`, how far a sequence of UTF-8 goes before it breaks off;
* `lossyText`, the text that some octets are shown as.
-/

namespace SketchSense.Text

/-- The text that the octets are the UTF-8 form of. -/
def textOf? (octets : List UInt8) : Option String := String.fromUTF8? octets.toByteArray

/-- Whether an octet goes on a sequence that an earlier one starts. -/
def continues (b : UInt8) : Bool := 0x80 ≤ b && b ≤ 0xBF

/-- Whether the octet `c` may come second in a sequence of three or four that `b` starts. Forms that
are longer than they need to be, surrogates and what is past the last character have no such octet. -/
def mayFollow (b c : UInt8) : Bool :=
  if b = 0xE0 then 0xA0 ≤ c && c ≤ 0xBF
  else if b = 0xED then 0x80 ≤ c && c ≤ 0x9F
  else if b = 0xF0 then 0x90 ≤ c && c ≤ 0xBF
  else if b = 0xF4 then 0x80 ≤ c && c ≤ 0x8F
  else 0xE1 ≤ b && b ≤ 0xF3 && continues c

/-- How many of the octets behind `b` belong to the sequence that `b` starts, where that breaks off
before its end. -/
def brokenTail (b : UInt8) : List UInt8 → Nat
  | [] => 0
  | [c] => if mayFollow b c then 1 else 0
  | c :: d :: _ => if !mayFollow b c then 0 else if 0xF0 ≤ b && continues d then 2 else 1

/-- The character that the octets start with, and how many octets behind the first one belong to it.
A sequence that breaks off stands for the replacement character. -/
def leadingChar (b : UInt8) (bs : List UInt8) : Char × Nat :=
  match (b :: bs).toByteArray.utf8DecodeChar? 0 with
  | some c => (c, c.utf8Size - 1)
  | none => ('\uFFFD', brokenTail b bs)

/-- The characters of some octets, of which the first `skipped` belong to an earlier character. -/
def lossyChars : Nat → List UInt8 → List Char
  | _, [] => []
  | skipped + 1, _ :: bs => lossyChars skipped bs
  | 0, b :: bs => (leadingChar b bs).1 :: lossyChars (leadingChar b bs).2 bs

/-- The text that the octets are shown as. -/
def lossyText (octets : List UInt8) : String := String.ofList (lossyChars 0 octets)

end SketchSense.Text
