import SketchSense.Fault

/-!
# Operations on positions

A program that works on positions can miss: an entry behind the end, a slice that ends before it
starts, a number taken from a smaller one or too large for its word, a loop that stands still. Here
each operation reports this instead of going on.

* `Misstep`, what can be reported, and `Checked`, a computation that may report it;
* `entryAt`, `slice` and `less`, with `entryAt_eq`, `slice_eq` and `less_eq`, where they succeed;
* `word` and `signed`, numbers of 32 bits, with `word_eq` and `signed_eq`, and `overflowIf`, a result
  that is only there if none of them is too large;
* `loop`, a loop over the positions of a list, with one rule for each way a round can end.
-/

namespace SketchSense.Model.ByPosition

/-- What can go wrong in a program that works on positions. -/
inductive Misstep where
  /-- An entry behind the end of a list. -/
  | entry
  /-- A slice that ends before it starts, or behind the end of a list. -/
  | slice
  /-- A number taken from a smaller one. -/
  | subtraction
  /-- A number that is too large, or too small, for its word of 32 bits. -/
  | overflow
  /-- A round of a loop that does not move on. -/
  | standstill
  /-- A slice of the inside of a block that closes where it opens. -/
  | openBlock
  deriving DecidableEq, Repr

/-- A computation that stops at the first misstep. -/
abbrev Checked := Except Misstep

section Operations

variable {α : Type}

/-- The entry at a position. -/
def entryAt (xs : List α) (i : Nat) : Checked α :=
  match xs[i]? with
  | some x => .ok x
  | none => .error .entry

/-- The entries from position `i` up to position `j`. -/
def slice (xs : List α) (i j : Nat) : Checked (List α) :=
  if i ≤ j ∧ j ≤ xs.length then .ok ((xs.take j).drop i) else .error .slice

/-- The difference of two positions. -/
def less (m n : Nat) : Checked Nat := if n ≤ m then .ok (m - n) else .error .subtraction

/-- A number without a sign in its word. -/
def word (n : Nat) : Checked Nat := if n < wordLimit then .ok n else .error .overflow

/-- One more than the largest number with a sign. -/
def signLimit : Nat := Nat.pow 2 31

/-- A number with a sign in its word. -/
def signed (n : Int) : Checked Int :=
  if -signLimit ≤ n ∧ n < signLimit then .ok n else .error .overflow

open Classical in
/-- A result, unless a number gets too large on the way. -/
noncomputable def overflowIf (p : Prop) (x : Checked α) : Checked α :=
  if p then .error .overflow else x

theorem overflowIf_of {p : Prop} (h : p) (x : Checked α) : overflowIf p x = .error .overflow :=
  if_pos h

theorem overflowIf_of_not {p : Prop} (h : ¬p) (x : Checked α) : overflowIf p x = x := if_neg h

@[simp] theorem ok_bind {β : Type} (a : α) (f : α → Checked β) : (Except.ok a >>= f) = f a := rfl

@[simp] theorem error_bind {β : Type} (e : Misstep) (f : α → Checked β) :
    ((Except.error e : Checked α) >>= f) = .error e := rfl

@[simp] theorem pure_eq_ok (a : α) : (pure a : Checked α) = .ok a := rfl

variable {xs front inside behind : List α} {x : α} {i j m n : Nat}

theorem entryAt_eq (hxs : xs = front ++ x :: behind) (hi : i = front.length) :
    entryAt xs i = .ok x := by
  unfold entryAt
  rw [hxs, hi, List.getElem?_append_right (Nat.le_refl _), Nat.sub_self]
  rfl

theorem mem_of_entryAt (h : entryAt xs i = .ok x) : x ∈ xs := by
  unfold entryAt at h
  split at h
  · next hx =>
    cases h
    exact List.mem_of_getElem? hx
  · cases h

theorem slice_eq (front behind : List α) (hxs : xs = front ++ (inside ++ behind))
    (hi : i = front.length) (hj : j = i + inside.length) : slice xs i j = .ok inside := by
  have hlength : xs.length = i + inside.length + behind.length := by
    rw [hxs, hi]
    simp [Nat.add_assoc]
  have htake : xs.take j = front ++ inside := by
    rw [hxs, ← List.append_assoc]
    exact List.take_left' (by rw [List.length_append, hj, hi])
  unfold slice
  rw [if_pos ⟨by omega, by omega⟩, htake, hi, List.drop_left]

theorem less_eq (h : m = n + i) : less m n = .ok i := by
  unfold less
  rw [if_pos (by omega)]
  congr 1
  omega

theorem word_eq (h : n < wordLimit) : word n = .ok n := if_pos h

/-- A number that is not below 0 is only ever too large. -/
theorem signed_eq (n : Nat) :
    signed n = if n < signLimit then .ok (n : Int) else .error .overflow := by
  unfold signed
  by_cases h : n < signLimit
  · rw [if_pos h, if_pos ⟨by omega, by omega⟩]
  · rw [if_neg h, if_neg fun hn => h (by omega)]

/-- The last entry of a list and the slice before it. -/
theorem last_eq (hxs : xs = front ++ [x]) :
    less xs.length 1 = .ok front.length ∧ slice xs 0 front.length = .ok front ∧
      entryAt xs front.length = .ok x :=
  ⟨less_eq (by simp [hxs, Nat.add_comm]), slice_eq [] [x] hxs rfl (Nat.zero_add _).symm,
    entryAt_eq hxs rfl⟩

theorem drop_succ_eq (hxs : xs = front ++ x :: behind) (hi : i = front.length) :
    xs.drop (i + 1) = behind := by
  rw [hxs, hi, ← List.drop_drop, List.drop_left]
  rfl

/-- What a loop over a list finds where it stands. -/
theorem exists_entry (h : i < xs.length) :
    ∃ front x, xs = front ++ x :: xs.drop (i + 1) ∧ i = front.length ∧
      xs.drop i = x :: xs.drop (i + 1) := by
  have hcons := List.drop_eq_getElem_cons h
  refine ⟨xs.take i, xs[i], ?_, (List.length_take_of_le (Nat.le_of_lt h)).symm, hcons⟩
  rw [← hcons, List.take_append_drop]

theorem drop_length_takeWhile (p : α → Bool) (xs : List α) :
    xs.drop (xs.takeWhile p).length = xs.dropWhile p := by
  have hdrop : (xs.takeWhile p ++ xs.dropWhile p).drop (xs.takeWhile p).length = xs.dropWhile p :=
    List.drop_left
  rwa [List.takeWhile_append_dropWhile] at hdrop

/-- The first position whose entry passes a test, or the end. -/
theorem findIdx?_getD (p : α → Bool) (xs : List α) :
    (xs.findIdx? p).getD xs.length = (xs.takeWhile (!p ·)).length := by
  induction xs with
  | nil => rfl
  | cons x xs ih =>
    rw [List.findIdx?_cons, List.takeWhile_cons]
    cases hx : p x with
    | true => rfl
    | false =>
      simp only [Bool.false_eq_true, if_false, Bool.not_false, if_true, List.length_cons, ← ih]
      cases xs.findIdx? p <;> rfl

end Operations

/-! ## Loops -/

section Loops

variable {σ : Type} (stop : Nat) (position : σ → Nat) (round : σ → Checked σ)

/-- Rounds of a loop as long as the position is before `stop`. A round must move the position on, so
every loop comes to an end. -/
def loop (s : σ) : Checked σ :=
  if position s < stop then
    match round s with
    | .error e => .error e
    | .ok s' => if position s < position s' then loop s' else .error .standstill
  else .ok s
  termination_by stop - position s

variable {stop position round} {s s' : σ}

theorem loop_done (h : stop ≤ position s) : loop stop position round s = .ok s := by
  rw [loop, if_neg (Nat.not_lt_of_le h)]

theorem loop_round (h : position s < stop) (hround : round s = .ok s')
    (hmoves : position s < position s') :
    loop stop position round s = loop stop position round s' := by
  rw [loop, if_pos h, hround]
  exact if_pos hmoves

theorem loop_misstep {e : Misstep} (h : position s < stop) (hround : round s = .error e) :
    loop stop position round s = .error e := by
  rw [loop, if_pos h, hround]

end Loops

end SketchSense.Model.ByPosition
