import SketchSense.Proofs.ByPosition.Operations
import SketchSense.Proofs.Model.Places

/-!
# Places of two words

The lexer counts lines and columns in words of 32 bits, and it stops where one of them gets too large.
A character takes a place on by one line or by its bytes, so places within a text shorter than a word
are never too large before its end.

* `moveRight`, `moveDown` and `move`, the moves of the lexer;
* `Place.Fits`, a line and a column that are words, with `move_eq`, that a
  move succeeds where it leads to such a place;
* `Place.Within`, a place that so many characters can lead to, with `Within.fits`.
-/

namespace SketchSense.Model

namespace Place

/-- The place so many columns to the right. -/
def right (p : Place) (n : Nat) : Place := ⟨p.line, p.column + n⟩

/-- Line and column are words. -/
structure Fits (p : Place) : Prop where
  line : p.line < wordLimit
  column : p.column < wordLimit

instance (p : Place) : Decidable p.Fits :=
  decidable_of_iff (p.line < wordLimit ∧ p.column < wordLimit)
    ⟨fun h => ⟨h.1, h.2⟩, fun h => ⟨h.line, h.column⟩⟩

/-- A place that `n` characters can lead to. -/
structure Within (p : Place) (n : Nat) : Prop where
  line : p.line ≤ n + 1
  column : p.column ≤ n + 1

theorem Fits.of_right {p : Place} {n : Nat} (h : (p.right n).Fits) : p.Fits :=
  ⟨h.line, Nat.lt_of_le_of_lt (Nat.le_add_right _ _) h.column⟩

theorem Within.fits {p : Place} {n : Nat} (h : p.Within n) (hn : n + 1 < wordLimit) : p.Fits :=
  ⟨Nat.lt_of_le_of_lt h.line hn, Nat.lt_of_le_of_lt h.column hn⟩

theorem Within.right {p : Place} {n : Nat} (h : p.Within n) (k : Nat) :
    (p.right k).Within (n + k) := by
  have hline := h.line
  have hcolumn := h.column
  constructor
  · simp only [Place.right]
    omega
  · simp only [Place.right]
    omega

end Place

namespace ByPosition

/-! ## ASCII texts -/

/-- A character of one byte. -/
theorem utf8Size_of_isAscii {c : Char} (h : isAscii c = true) : c.utf8Size = 1 := by
  have hlt : c.toNat < 128 := of_decide_eq_true h
  rw [Char.utf8Size_eq_one_iff, UInt32.le_iff_toNat_le]
  exact Nat.le_of_lt_succ hlt

theorem utf8Length_of_isAscii {s : List Char} (h : ∀ c ∈ s, isAscii c = true) :
    Text.utf8Length s = s.length := by
  induction s with
  | nil => rfl
  | cons c s ih =>
    rw [Text.utf8Length, utf8Size_of_isAscii (h c List.mem_cons_self),
      ih fun d hd => h d (List.mem_cons_of_mem c hd), List.length_cons, Nat.add_comm]

theorem next_of_isAscii {c : Char} (h : isAscii c = true) (p : Place) :
    p.next c = if c = '\n' then ⟨p.line + 1, 1⟩ else p.right 1 := by
  rw [Place.next, utf8Size_of_isAscii h]
  rfl

/-- A piece of a line takes as many columns as it has characters. -/
theorem after_eq_right {s : List Char} (h : ∀ c ∈ s, isAscii c = true) (hline : '\n' ∉ s)
    (p : Place) : p.after s = p.right s.length := by
  rw [Place.after_of_not_mem hline, utf8Length_of_isAscii h]
  rfl

theorem within_next {p : Place} {n : Nat} {c : Char} (h : p.Within n) (hc : isAscii c = true) :
    (p.next c).Within (n + 1) := by
  rw [next_of_isAscii hc]
  split
  · exact ⟨Nat.succ_le_succ h.line, Nat.le_add_left 1 (n + 1)⟩
  · exact h.right 1

theorem within_after {p : Place} {n : Nat} {s : List Char} (h : p.Within n)
    (hs : ∀ c ∈ s, isAscii c = true) : (p.after s).Within (n + s.length) := by
  induction s generalizing p n with
  | nil => exact h
  | cons c s ih =>
    have hrest := ih (within_next h (hs c List.mem_cons_self)) fun d hd => hs d (.tail c hd)
    rwa [Nat.add_assoc, Nat.add_comm 1] at hrest

/-! ## Moves -/

/-- Moves so many columns to the right. -/
def moveRight (p : Place) (n : Nat) : Checked Place := do return ⟨p.line, ← word (p.column + n)⟩

/-- Moves to the start of the next line. -/
def moveDown (p : Place) : Checked Place := do return ⟨← word (p.line + 1), 1⟩

/-- Moves behind a character of one byte. -/
def move (p : Place) (c : Char) : Checked Place :=
  if c = '\n' then moveDown p else moveRight p 1

variable {p : Place} {n : Nat}

theorem moveRight_eq (h : p.Fits) :
    moveRight p n = if (p.right n).Fits then .ok (p.right n) else .error .overflow := by
  unfold moveRight word
  by_cases hcolumn : p.column + n < wordLimit
  · rw [if_pos hcolumn, if_pos ⟨h.line, hcolumn⟩]
    rfl
  · rw [if_neg hcolumn, if_neg fun hfits => hcolumn hfits.column]
    rfl

theorem moveDown_eq :
    moveDown p = if Place.Fits ⟨p.line + 1, 1⟩ then .ok ⟨p.line + 1, 1⟩ else .error .overflow := by
  unfold moveDown word
  by_cases hline : p.line + 1 < wordLimit
  · rw [if_pos hline, if_pos ⟨hline, (by decide : 1 < wordLimit)⟩]
    rfl
  · rw [if_neg hline, if_neg fun hfits => hline hfits.line]
    rfl

/-- A character moves the place on, as long as it fits. -/
theorem move_eq {c : Char} (h : p.Fits) (hc : isAscii c = true) :
    move p c = if (p.next c).Fits then .ok (p.next c) else .error .overflow := by
  unfold move
  rw [next_of_isAscii hc]
  split
  · exact moveDown_eq
  · exact moveRight_eq h

/-- A step that ends with a move goes on if the place fits that it ends at. -/
theorem moveRight_bind {α : Type} (h : p.Fits) (f : Place → α) :
    (moveRight p n >>= fun q => .ok (f q) : Checked α) =
      if (p.right n).Fits then .ok (f (p.right n)) else .error .overflow := by
  rw [moveRight_eq h]
  split <;> rfl

end ByPosition

end SketchSense.Model
