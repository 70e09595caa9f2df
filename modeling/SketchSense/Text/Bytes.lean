/-!
# Byte offsets in a text

Columns and offsets count bytes of the UTF-8 form. Scanning works on characters; this module
holds the passage between the two.

* `utf8Length`, the number of bytes of a character list;
* `dropBytes?` and `sliceBytes?`, cuts at byte offsets, which exist only on character boundaries;
* `takeBytes` and `truncate`, the longest part that fits a byte limit.
-/

namespace SketchSense.Text

/-- Number of bytes of the UTF-8 form. -/
def utf8Length : List Char → Nat
  | [] => 0
  | c :: cs => c.utf8Size + utf8Length cs

@[simp] theorem utf8Length_append (s t : List Char) :
    utf8Length (s ++ t) = utf8Length s + utf8Length t := by
  induction s with
  | nil => simp [utf8Length]
  | cons c s ih => simp [utf8Length, ih, Nat.add_assoc]

theorem utf8Length_replicate (n : Nat) (c : Char) :
    utf8Length (List.replicate n c) = n * c.utf8Size := by
  induction n with
  | zero => rw [Nat.zero_mul]; rfl
  | succ n ih => rw [List.replicate_succ, utf8Length, ih, Nat.succ_mul, Nat.add_comm]

/-- What is left after `n` bytes, if they end on a character boundary. -/
def dropBytes? : Nat → List Char → Option (List Char)
  | 0, s => some s
  | _ + 1, [] => none
  | n + 1, c :: cs => if c.utf8Size ≤ n + 1 then dropBytes? (n + 1 - c.utf8Size) cs else none
  termination_by _ s => s.length

/-- The longest beginning of at most `n` bytes. -/
def takeBytes : Nat → List Char → List Char
  | _, [] => []
  | n, c :: cs => if c.utf8Size ≤ n then c :: takeBytes (n - c.utf8Size) cs else []

/-- The first `n` bytes, if they end on a character boundary. -/
def takeBytes? (n : Nat) (s : List Char) : Option (List Char) :=
  let head := takeBytes n s
  if utf8Length head = n then some head else none

/-- The characters between two byte offsets, if both are character boundaries in order. -/
def sliceBytes? (start stop : Nat) (s : List Char) : Option (List Char) :=
  if start ≤ stop then (dropBytes? start s).bind (takeBytes? (stop - start)) else none

theorem utf8Length_takeBytes_le (n : Nat) (s : List Char) :
    utf8Length (takeBytes n s) ≤ n := by
  induction s generalizing n with
  | nil => simp [takeBytes, utf8Length]
  | cons c s ih =>
    unfold takeBytes
    split
    · have := ih (n - c.utf8Size)
      simp only [utf8Length]
      omega
    · simp [utf8Length]

/-- A text longer than `limit` bytes is cut to what fits, and marked by three dots. -/
def truncate (limit : Nat) (s : List Char) : List Char :=
  if utf8Length s ≤ limit then s else takeBytes limit s ++ ['.', '.', '.']

end SketchSense.Text
