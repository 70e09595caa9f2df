import SketchSense.Proofs.Text.Lines

/-!
# Byte offsets of lines

A text is the lines above a line with their line feeds, and what goes on from there. So a position is
an offset behind the lines above, and a slice that starts with a line is cut off what goes on there.

* `takeBytes?_eq_some` and `sliceBytes?_append`, cuts on character boundaries;
* `above` and `onward`, the two parts of a text at a line, with `above_append_onward`;
* `offset?_eq_some_iff`, the offset of a position.
-/

namespace SketchSense.Text

/-! ## Cuts -/

theorem utf8Length_le_of_prefix {a b : List Char} (h : a <+: b) : utf8Length a ≤ utf8Length b := by
  obtain ⟨rest, rfl⟩ := h
  rw [utf8Length_append]
  exact Nat.le_add_right _ _

theorem takeBytes_append (a b : List Char) : takeBytes (utf8Length a) (a ++ b) = a := by
  induction a with
  | nil =>
    cases b with
    | nil => rfl
    | cons c b =>
      have hpos := c.utf8Size_pos
      rw [List.nil_append, takeBytes, if_neg (by simp only [utf8Length]; omega)]
  | cons c a ih =>
    rw [List.cons_append, takeBytes, if_pos (by simp [utf8Length]), utf8Length,
      Nat.add_sub_cancel_left, ih]

theorem takeBytes_isPrefix (n : Nat) (s : List Char) : takeBytes n s <+: s := by
  induction s generalizing n with
  | nil => exact List.prefix_rfl
  | cons c s ih =>
    unfold takeBytes
    split
    · exact (List.prefix_cons_inj c).2 (ih _)
    · exact List.nil_prefix

/-- The first bytes of a text are a beginning of it with that many bytes. -/
theorem takeBytes?_eq_some {n : Nat} {s a : List Char} :
    takeBytes? n s = some a ↔ a <+: s ∧ utf8Length a = n := by
  unfold takeBytes?
  dsimp only
  constructor
  · intro h
    split at h
    · next hlength =>
      obtain rfl := Option.some.inj h
      exact ⟨takeBytes_isPrefix n s, hlength⟩
    · cases h
  · rintro ⟨⟨b, rfl⟩, rfl⟩
    simp only [takeBytes_append, if_true]

theorem le_of_takeBytes? {n : Nat} {s a : List Char} (h : takeBytes? n s = some a) :
    n ≤ utf8Length s := by
  obtain ⟨hstarts, rfl⟩ := takeBytes?_eq_some.1 h
  exact utf8Length_le_of_prefix hstarts

theorem dropBytes?_append (a b : List Char) : dropBytes? (utf8Length a) (a ++ b) = some b := by
  induction a with
  | nil => simp [utf8Length, dropBytes?]
  | cons c a ih =>
    obtain ⟨n, hn⟩ := Nat.exists_eq_succ_of_ne_zero (Nat.ne_of_gt c.utf8Size_pos)
    have hlength : utf8Length (c :: a) = (n + utf8Length a) + 1 := by
      simp only [utf8Length]
      omega
    have hrest : n + utf8Length a + 1 - c.utf8Size = utf8Length a := by omega
    rw [hlength, List.cons_append, dropBytes?, if_pos (by omega), hrest, ih]

/-- A slice that starts behind a beginning is cut off the rest. -/
theorem sliceBytes?_append (a b : List Char) (n : Nat) :
    sliceBytes? (utf8Length a) (utf8Length a + n) (a ++ b) = takeBytes? n b := by
  unfold sliceBytes?
  rw [if_pos (Nat.le_add_right _ _), dropBytes?_append, Option.bind_some, Nat.add_sub_cancel_left]

/-! ## Lines -/

/-- The lines above a line, with their line feeds. -/
def above (s : List Char) (line : Nat) : List Char := wholeLines ((splitLines s).take (line - 1))

/-- The text from the start of a line on. -/
def onward (s : List Char) (line : Nat) : List Char := joinLines ((splitLines s).drop (line - 1))

variable {s : List Char} {line : Nat}

theorem above_append_onward (h : line ≤ lineCount s) (hpos : 1 ≤ line) :
    above s line ++ onward s line = s := by
  have hrest : (splitLines s).drop (line - 1) ≠ [] := by
    rw [Ne, List.drop_eq_nil_iff]
    unfold lineCount at h
    omega
  unfold above onward
  rw [← joinLines_append _ hrest, List.take_append_drop, joinLines_splitLines]

theorem sliceBytes?_above (h : line ≤ lineCount s) (hpos : 1 ≤ line) (n : Nat) :
    sliceBytes? (utf8Length (above s line)) (utf8Length (above s line) + n) s =
      takeBytes? n (onward s line) := by
  have hcut := sliceBytes?_append (above s line) (onward s line) n
  rwa [above_append_onward h hpos] at hcut

theorem utf8Length_above_add (h : line ≤ lineCount s) (hpos : 1 ≤ line) :
    utf8Length (above s line) + utf8Length (onward s line) = utf8Length s := by
  rw [← utf8Length_append, above_append_onward h hpos]

/-- What goes on from a line is the line, and more of the text behind a line feed unless it is the
last line. -/
theorem onward_cases {l : List Char} (h : (splitLines s)[line - 1]? = some l) :
    onward s line = l ∨ ∃ rest, onward s line = l ++ '\n' :: rest := by
  obtain ⟨hlt, rfl⟩ := List.getElem?_eq_some_iff.1 h
  unfold onward
  rw [List.drop_eq_getElem_cons hlt]
  cases (splitLines s).drop (line - 1 + 1) with
  | nil => exact .inl rfl
  | cons m ms => exact .inr ⟨_, joinLines_cons_cons _ m ms⟩

theorem prefix_onward {l : List Char} (h : (splitLines s)[line - 1]? = some l) :
    l <+: onward s line := by
  rcases onward_cases h with heq | ⟨rest, heq⟩
  · exact heq ▸ List.prefix_rfl
  · exact ⟨_, heq.symm⟩

theorem getElem?_startsFrom (start : Nat) (ls : List (List Char)) {i : Nat} (h : i < ls.length) :
    (startsFrom start ls)[i]? = some (start + utf8Length (wholeLines (ls.take i))) := by
  induction ls generalizing start i with
  | nil => cases h
  | cons l ls ih =>
    cases i with
    | zero => simp [startsFrom, wholeLines, utf8Length]
    | succ i =>
      have hfeed : utf8Length ['\n'] = 1 := rfl
      have hstart : utf8Length (wholeLines ((l :: ls).take (i + 1))) =
          utf8Length l + 1 + utf8Length (wholeLines (ls.take i)) := by
        unfold wholeLines
        rw [List.take_succ_cons, List.flatMap_cons, utf8Length_append, utf8Length_append, hfeed]
      rw [startsFrom, List.getElem?_cons_succ, ih _ (Nat.lt_of_succ_lt_succ h), hstart]
      simp only [Nat.add_assoc]

theorem length_startsFrom (start : Nat) (ls : List (List Char)) :
    (startsFrom start ls).length = ls.length := by
  induction ls generalizing start with
  | nil => rfl
  | cons l ls ih => rw [startsFrom, List.length_cons, ih, List.length_cons]

/-- A line starts behind the lines above. -/
theorem getElem?_lineStarts (h : line ≤ lineCount s) (hpos : 1 ≤ line) :
    (lineStarts s)[line - 1]? = some (utf8Length (above s line)) := by
  have hlt : line - 1 < (splitLines s).length := by
    unfold lineCount at h
    omega
  rw [lineStarts, getElem?_startsFrom 0 _ hlt, Nat.zero_add]
  rfl

theorem length_lineStarts (s : List Char) : (lineStarts s).length = lineCount s :=
  length_startsFrom 0 _

/-- A position has an offset if its line is there and the offset is not past the end. -/
theorem offset?_eq_some_iff {column offset : Nat} :
    offset? s line column = some offset ↔
      1 ≤ line ∧ line ≤ lineCount s ∧ 1 ≤ column ∧
        offset = utf8Length (above s line) + (column - 1) ∧ offset ≤ utf8Length s := by
  unfold offset?
  by_cases hzero : line = 0 ∨ column = 0
  · rw [if_pos hzero]
    constructor
    · rintro ⟨⟩
    · omega
  rw [if_neg hzero]
  by_cases hline : line ≤ lineCount s
  · rw [getElem?_lineStarts hline (by omega)]
    dsimp only
    split
    · next hle => rw [Option.some.injEq]; omega
    · next hgt =>
      constructor
      · rintro ⟨⟩
      · rintro ⟨-, -, -, rfl, hle⟩
        exact absurd hle hgt
  · have hnone : (lineStarts s)[line - 1]? = none := by
      rw [List.getElem?_eq_none_iff, length_lineStarts]
      omega
    rw [hnone]
    constructor
    · rintro ⟨⟩
    · rintro ⟨-, hle, -⟩
      exact absurd hle hline

end SketchSense.Text
