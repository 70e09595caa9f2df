import Mathlib.Data.Nat.Find
import SketchSense.Proofs.Text.Offsets

/-!
# Positions and offsets

Every offset stands on one line: behind the lines above and before the next one. A position is that
line and the bytes behind its start, so it leads back to its offset, and each position on a line is
the position of an offset.

* `StandsOn` with `exists_standsOn`, the line of an offset, and `lineCol_of_standsOn`;
* `standsOn_append`, the line on which a text goes on;
* `OverlongEnd`, the texts whose end has no position of two words;
* `rawLine?`, a line cut out by its range of bytes;
* `lineIndex?` and `SearchedFor`, a line found by searching the starts;
* `lineCol_inverse`, that positions and offsets are two names of one thing.
-/

namespace SketchSense.Text

variable {s : List Char} {line offset : Nat}

/-! ## Starts of lines -/

theorem one_le_lineCount (s : List Char) : 1 ≤ lineCount s :=
  List.length_pos_iff.2 (splitLines_ne_nil s)

theorem lineCount_eq (s : List Char) : lineCount s = s.count '\n' + 1 := length_splitLines s

theorem le_lineCount_of_getElem? {l : List Char} (hpos : 1 ≤ line)
    (h : (splitLines s)[line - 1]? = some l) : line ≤ lineCount s := by
  obtain ⟨hlt, -⟩ := List.getElem?_eq_some_iff.1 h
  unfold lineCount
  omega

theorem exists_getElem?_splitLines (hpos : 1 ≤ line) (hle : line ≤ lineCount s) :
    ∃ l, (splitLines s)[line - 1]? = some l := by
  refine ⟨_, List.getElem?_eq_getElem ?_⟩
  unfold lineCount at hle
  omega

/-- From the last line only that line goes on. -/
theorem onward_lineCount {l : List Char} (h : (splitLines s)[lineCount s - 1]? = some l) :
    onward s (lineCount s) = l := by
  unfold onward
  rw [List.drop_eq_getElem?_toList_append, h, List.drop_eq_nil_of_le]
  · rfl
  · unfold lineCount
    omega

theorem above_one (s : List Char) : above s 1 = [] := rfl

theorem above_succ {l : List Char} (hpos : 1 ≤ line) (h : (splitLines s)[line - 1]? = some l) :
    above s (line + 1) = above s line ++ l ++ ['\n'] := by
  obtain ⟨hlt, rfl⟩ := List.getElem?_eq_some_iff.1 h
  have htake : (splitLines s).take line =
      (splitLines s).take (line - 1) ++ [(splitLines s)[line - 1]] := by
    rw [List.take_append_getElem hlt, Nat.sub_add_cancel hpos]
  unfold above wholeLines
  rw [Nat.add_sub_cancel, htake, List.flatMap_append, List.flatMap_singleton, List.append_assoc]

/-- The next line starts behind this one and its line feed. -/
theorem utf8Length_above_succ {l : List Char} (hpos : 1 ≤ line)
    (h : (splitLines s)[line - 1]? = some l) :
    utf8Length (above s (line + 1)) = utf8Length (above s line) + utf8Length l + 1 := by
  rw [above_succ hpos h, utf8Length_append, utf8Length_append]
  rfl

theorem startsFrom_increasing (start : Nat) (ls : List (List Char)) :
    (∀ x ∈ startsFrom start ls, start ≤ x) ∧ (startsFrom start ls).Pairwise (· < ·) := by
  induction ls generalizing start with
  | nil => exact ⟨nofun, .nil⟩
  | cons l ls ih =>
    obtain ⟨hle, hincreasing⟩ := ih (start + utf8Length l + 1)
    refine ⟨fun x hx => ?_, List.pairwise_cons.2 ⟨fun x hx => ?_, hincreasing⟩⟩
    · rcases List.mem_cons.1 hx with rfl | hx
      · exact Nat.le_refl _
      · have := hle x hx
        omega
    · have := hle x hx
      omega

/-- Lines start one behind the other. -/
theorem lineStarts_increasing (s : List Char) : (lineStarts s).Pairwise (· < ·) :=
  (startsFrom_increasing 0 _).2

theorem length_le_utf8Length (s : List Char) : s.length ≤ utf8Length s := by
  induction s with
  | nil => exact Nat.le_refl 0
  | cons c s ih =>
    have hpos := c.utf8Size_pos
    rw [List.length_cons, utf8Length]
    omega

theorem count_le_utf8Length (c : Char) (s : List Char) : s.count c ≤ utf8Length s :=
  Nat.le_trans List.count_le_length (length_le_utf8Length s)

theorem count_above (h : line ≤ lineCount s) (hpos : 1 ≤ line) :
    (above s line).count '\n' = line - 1 := by
  unfold lineCount at h
  unfold above
  rw [count_wholeLines fun l hl => not_mem_of_mem_splitLines (List.mem_of_mem_take hl),
    List.length_take, Nat.min_eq_left (by omega)]

/-- The lines above a line have a byte each at least. -/
theorem pred_le_utf8Length_above (h : line ≤ lineCount s) (hpos : 1 ≤ line) :
    line - 1 ≤ utf8Length (above s line) := by
  rw [← count_above h hpos]
  exact count_le_utf8Length '\n' _

/-! ## The line of an offset -/

/-- An offset stands on a line if it is behind the lines above, and before the next line if there
is one. -/
structure StandsOn (s : List Char) (line offset : Nat) : Prop where
  pos : 1 ≤ line
  le : line ≤ lineCount s
  start_le : utf8Length (above s line) ≤ offset
  lt_next : line < lineCount s → offset < utf8Length (above s (line + 1))

theorem exists_standsOn (s : List Char) (offset : Nat) : ∃ line, StandsOn s line offset := by
  have hcount := one_le_lineCount s
  have hfirst : utf8Length (above s 1) ≤ offset := Nat.zero_le _
  -- the last line that starts at the offset or before
  let line := Nat.findGreatest (fun n => utf8Length (above s n) ≤ offset) (lineCount s)
  refine ⟨line, Nat.le_findGreatest hcount hfirst, Nat.findGreatest_le _,
    Nat.findGreatest_spec (P := fun n => utf8Length (above s n) ≤ offset) hcount hfirst,
    fun hlt => Nat.lt_of_not_le ?_⟩
  exact Nat.findGreatest_is_greatest (P := fun n => utf8Length (above s n) ≤ offset)
    (Nat.lt_succ_self line) hlt

/-- The last line has no next one, so the end of the text stands there. -/
theorem standsOn_end (s : List Char) : StandsOn s (lineCount s) (utf8Length s) := by
  have hcount := one_le_lineCount s
  have hsplit := utf8Length_above_add (Nat.le_refl (lineCount s)) hcount
  exact ⟨hcount, Nat.le_refl _, by omega, fun h => absurd h (Nat.lt_irrefl _)⟩

/-- The lines that start at an offset or before are those down to its line. -/
theorem StandsOn.takeWhile_lineStarts (h : StandsOn s line offset) :
    (lineStarts s).takeWhile (· ≤ offset) = (lineStarts s).take line := by
  have hstart := getElem?_lineStarts h.le h.pos
  have hbefore : ∀ x ∈ (lineStarts s).take line, decide (x ≤ offset) = true := by
    intro x hx
    obtain ⟨i, hi, rfl⟩ := List.mem_take_iff_getElem.1 hx
    obtain ⟨hlt, hstart⟩ := List.getElem?_eq_some_iff.1 hstart
    have hle : (lineStarts s)[i] ≤ (lineStarts s)[line - 1] := by
      rcases Nat.lt_or_ge i (line - 1) with hlt' | hge
      · exact Nat.le_of_lt (List.pairwise_iff_getElem.1 (lineStarts_increasing s) _ _ _ _ hlt')
      · obtain rfl : i = line - 1 := by omega
        exact Nat.le_refl _
    have := h.start_le
    simp only [decide_eq_true_eq]
    omega
  have hbehind : ((lineStarts s).drop line).takeWhile (· ≤ offset) = [] := by
    rcases Nat.lt_or_ge line (lineCount s) with hlt | hge
    · have hnext : (lineStarts s)[line]? = some (utf8Length (above s (line + 1))) :=
        getElem?_lineStarts hlt (Nat.succ_pos line)
      obtain ⟨hlt', hnext⟩ := List.getElem?_eq_some_iff.1 hnext
      have := h.lt_next hlt
      rw [List.drop_eq_getElem_cons hlt', List.takeWhile_cons_of_neg]
      simp only [hnext, decide_eq_true_eq]
      omega
    · rw [List.drop_eq_nil_of_le (by rwa [length_lineStarts])]
      rfl
  calc (lineStarts s).takeWhile (· ≤ offset)
      = ((lineStarts s).take line ++ (lineStarts s).drop line).takeWhile (· ≤ offset) := by
        rw [List.take_append_drop]
    _ = (lineStarts s).take line := by
        rw [List.takeWhile_append_of_pos hbefore, hbehind, List.append_nil]

theorem lineCol_of_standsOn (h : StandsOn s line offset) :
    lineCol s offset = (do
      return (← bounded line,
        ← bounded ((offset - utf8Length (above s line)) % wordLimit + 1))) := by
  have hlength : ((lineStarts s).take line).length = line := by
    rw [List.length_take, length_lineStarts, Nat.min_eq_left h.le]
  have hlast : ((lineStarts s).take line).getLast?.getD 0 = utf8Length (above s line) := by
    rw [List.getLast?_take, if_neg (Nat.ne_of_gt h.pos), getElem?_lineStarts h.le h.pos]
    rfl
  unfold lineCol
  rw [h.takeWhile_lineStarts]
  dsimp only
  rw [hlength, hlast]

/-- On a line, a position within the line or right behind it stands there. -/
theorem standsOn_of_column {l : List Char} {column : Nat} (hpos : 1 ≤ line)
    (h : (splitLines s)[line - 1]? = some l) (hcolumn : 1 ≤ column)
    (hle : column ≤ utf8Length l + 1) :
    StandsOn s line (utf8Length (above s line) + (column - 1)) := by
  refine ⟨hpos, le_lineCount_of_getElem? hpos h, Nat.le_add_right _ _, fun _ => ?_⟩
  rw [utf8Length_above_succ hpos h]
  omega

/-! ## Texts that go on -/

/-- The end of a text whose length is the largest word has a line or a column that is no word, if
the text is one line, or if every line is empty. -/
def OverlongEnd (s : List Char) : Prop :=
  utf8Length s + 1 = wordLimit ∧ (s.count '\n' = 0 ∨ s.count '\n' = utf8Length s)

instance (s : List Char) : Decidable (OverlongEnd s) := inferInstanceAs (Decidable (_ ∧ _))

/-- Two numbers make a position if both are words. -/
theorem bounded_pair (a b : Nat) :
    (do return (← bounded a, ← bounded b) : Except Fault (Nat × Nat)) =
      if a < wordLimit ∧ b < wordLimit then .ok (a, b) else .error .overflow := by
  unfold bounded
  by_cases ha : a < wordLimit
  · by_cases hb : b < wordLimit
    · rw [if_pos ha, if_pos hb, if_pos (And.intro ha hb)]
      rfl
    · rw [if_pos ha, if_neg hb, if_neg fun (h : _ ∧ _) => hb h.2]
      rfl
  · rw [if_neg ha, if_neg fun (h : _ ∧ _) => ha h.1]
    rfl

/-- Within a text shorter than a word, only the end of an overlong one has no position. -/
theorem StandsOn.fits_iff (h : StandsOn s line offset) (hle : offset ≤ utf8Length s)
    (hshort : utf8Length s < wordLimit) :
    (line < wordLimit ∧ offset - utf8Length (above s line) + 1 < wordLimit) ↔
      ¬(offset = utf8Length s ∧ OverlongEnd s) := by
  have habove := pred_le_utf8Length_above h.le h.pos
  have hstart := h.start_le
  have hpos := h.pos
  have hcount := lineCount_eq s
  have hlength := count_le_utf8Length '\n' s
  have hlast : offset = utf8Length s → line = lineCount s := by
    rintro rfl
    by_contra hne
    have hlt := Nat.lt_of_le_of_ne h.le hne
    have hnext := h.lt_next hlt
    have hsplit : utf8Length (above s (line + 1)) + utf8Length (onward s (line + 1)) =
        utf8Length s := utf8Length_above_add hlt (Nat.succ_pos line)
    omega
  constructor
  -- a single line has a column too many, and only empty lines are one line too many
  · rintro ⟨hline, hcolumn⟩ ⟨heq, hlong, hone | hempty⟩
    · have hfirst : utf8Length (above s line) = 0 := by
        rw [hlast heq, hcount, hone, above_one]
        rfl
      omega
    · have := hlast heq
      omega
  -- and only there: every line and every byte before the offset counts at most once
  · intro hend
    by_contra hover
    refine hend ?_
    have hcases : wordLimit ≤ line ∨ wordLimit ≤ offset - utf8Length (above s line) + 1 := by omega
    have heq : offset = utf8Length s := by omega
    have hlong : utf8Length s + 1 = wordLimit := by omega
    have := hlast heq
    refine ⟨heq, hlong, ?_⟩
    omega

/-- An offset in the text has the position of its line, except the end of an overlong text. -/
theorem StandsOn.lineCol_eq (h : StandsOn s line offset) (hle : offset ≤ utf8Length s)
    (hshort : utf8Length s < wordLimit) :
    lineCol s offset =
      if offset = utf8Length s ∧ OverlongEnd s then .error .overflow
      else .ok (line, offset - utf8Length (above s line) + 1) := by
  have hmod : (offset - utf8Length (above s line)) % wordLimit =
      offset - utf8Length (above s line) := Nat.mod_eq_of_lt (by omega)
  rw [lineCol_of_standsOn h, hmod, bounded_pair]
  simp only [h.fits_iff hle hshort, ite_not]

/-- The position of an offset leads back to it. -/
theorem StandsOn.offset?_eq (h : StandsOn s line offset) (hle : offset ≤ utf8Length s) :
    offset? s line (offset - utf8Length (above s line) + 1) = some offset := by
  have := h.start_le
  rw [offset?_eq_some_iff]
  exact ⟨h.pos, h.le, Nat.succ_pos _, by omega, hle⟩

/-! ## Lines by their bytes -/

/-- The bytes of a line: from its start to before its line feed, or to the end of the text. -/
def lineRange? (s : List Char) (line : Nat) : Option (Nat × Nat) :=
  if line = 0 then none
  else (lineStarts s)[line - 1]?.map fun start =>
    (start, match (lineStarts s)[line]? with
      | some next => next - 1
      | none => utf8Length s)

/-- A line as its bytes spell it, with a carriage return that closes it. -/
def rawLine? (s : List Char) (line : Nat) : Option (List Char) :=
  (lineRange? s line).bind fun r => sliceBytes? r.1 r.2 s

theorem lineRange?_eq_some {l : List Char} (hpos : 1 ≤ line)
    (h : (splitLines s)[line - 1]? = some l) :
    lineRange? s line =
      some (utf8Length (above s line), utf8Length (above s line) + utf8Length l) := by
  have hline := le_lineCount_of_getElem? hpos h
  unfold lineRange?
  rw [if_neg (Nat.ne_of_gt hpos), getElem?_lineStarts hline hpos, Option.map_some]
  rcases Nat.lt_or_eq_of_le hline with hnext | rfl
  · have hstart : (lineStarts s)[line]? = some (utf8Length (above s (line + 1))) :=
      getElem?_lineStarts hnext (Nat.succ_pos line)
    rw [hstart, utf8Length_above_succ hpos h]
    rfl
  · have hstart : (lineStarts s)[lineCount s]? = none := by
      rw [List.getElem?_eq_none_iff, length_lineStarts]
    rw [hstart, ← utf8Length_above_add hline hpos, onward_lineCount h]

/-- The bytes of a line spell the line. -/
theorem rawLine?_eq (s : List Char) (line : Nat) :
    rawLine? s line = if line = 0 then none else (splitLines s)[line - 1]? := by
  by_cases hzero : line = 0
  · subst hzero
    rfl
  rw [if_neg hzero]
  have hpos : 1 ≤ line := Nat.pos_of_ne_zero hzero
  unfold rawLine?
  cases h : (splitLines s)[line - 1]? with
  | none =>
    have hstart : (lineStarts s)[line - 1]? = none := by
      rw [List.getElem?_eq_none_iff] at h ⊢
      rwa [length_lineStarts]
    rw [lineRange?, if_neg hzero, hstart]
    rfl
  | some l =>
    rw [lineRange?_eq_some hpos h, Option.bind_some,
      sliceBytes?_above (le_lineCount_of_getElem? hpos h) hpos]
    exact takeBytes?_eq_some.2 ⟨prefix_onward h, rfl⟩

/-- The lines cut out by their bytes are the lines of the text. -/
theorem map_rawLine? (s : List Char) :
    (List.range' 1 (lineCount s)).map (rawLine? s) = (splitLines s).map some := by
  refine List.ext_getElem ?_ fun i hi hi' => ?_
  · rw [List.length_map, List.length_range', List.length_map]
    rfl
  · rw [List.length_map] at hi'
    rw [List.getElem_map, List.getElem_map, List.getElem_range', Nat.one_mul, Nat.add_comm 1 i,
      rawLine?_eq, if_neg (Nat.succ_ne_zero i), Nat.add_sub_cancel, List.getElem?_eq_getElem hi']

theorem line?_eq (s : List Char) (line : Nat) : line? s line = (rawLine? s line).map dropReturn := by
  unfold line? lines
  rw [rawLine?_eq, List.getElem?_map]
  split <;> rfl

/-! ## Lines by a search of their starts -/

/-- What a search of increasing numbers finds: the index of the one searched for, or the index at
which it would have to be inserted. -/
def SearchedFor (xs : List Nat) (x : Nat) : Except Nat Nat → Prop
  | .ok i => xs[i]? = some x
  | .error i => i ≤ xs.length ∧ (∀ y ∈ xs.take i, y < x) ∧ ∀ y ∈ xs.drop i, x < y

/-- The index of the line with an offset: the start that was found, or the one before the place of
the offset. -/
def lineIndex? : Except Nat Nat → Option Nat
  | .ok i => some i
  | .error 0 => none
  | .error (i + 1) => some i

/-- Whichever answer the search gives, the line it leads to is the one the offset stands on. -/
theorem standsOn_of_searchedFor {found : Except Nat Nat}
    (h : SearchedFor (lineStarts s) offset found) :
    ∃ i, lineIndex? found = some i ∧ StandsOn s (i + 1) offset := by
  have hincreasing := List.pairwise_iff_getElem.1 (lineStarts_increasing s)
  have hcount := one_le_lineCount s
  have hstart : ∀ {i : Nat}, i < lineCount s →
      (lineStarts s)[i]? = some (utf8Length (above s (i + 1))) :=
    fun hi => getElem?_lineStarts hi (Nat.succ_pos _)
  cases found with
  | ok i =>
    -- the start of a line stands there
    obtain ⟨hi, heq⟩ := List.getElem?_eq_some_iff.1 h
    rw [length_lineStarts] at hi
    have hfirst : utf8Length (above s (i + 1)) = offset := Option.some.inj ((hstart hi).symm.trans h)
    refine ⟨i, rfl, Nat.succ_pos i, hi, Nat.le_of_eq hfirst, fun hnext => ?_⟩
    obtain ⟨hlt, hget⟩ := List.getElem?_eq_some_iff.1 (hstart hnext)
    rw [← heq, ← hget]
    exact hincreasing i (i + 1) _ hlt (Nat.lt_succ_self i)
  | error i =>
    obtain ⟨hle, hbefore, hbehind⟩ := h
    rw [length_lineStarts] at hle
    cases i with
    | zero =>
      -- the first line starts at 0, which no offset is before
      have hmem : 0 ∈ (lineStarts s).drop 0 := List.mem_of_getElem? (hstart hcount)
      exact absurd (hbehind 0 hmem) (Nat.not_lt_zero _)
    | succ i =>
      refine ⟨i, rfl, Nat.succ_pos i, hle, Nat.le_of_lt (hbefore _ ?_), fun hnext => hbehind _ ?_⟩
      · refine List.mem_of_getElem? (i := i) ?_
        rw [List.getElem?_take_of_lt (Nat.lt_succ_self i), hstart hle]
      · refine List.mem_of_getElem? (i := 0) ?_
        rw [List.getElem?_drop, hstart hnext]

theorem exists_searchedFor (s : List Char) (offset : Nat) :
    ∃ found, SearchedFor (lineStarts s) offset found := by
  by_cases hmem : offset ∈ lineStarts s
  · obtain ⟨i, hi⟩ := List.getElem?_of_mem hmem
    exact ⟨.ok i, hi⟩
  obtain ⟨line, h⟩ := exists_standsOn s offset
  refine ⟨.error line, by rw [length_lineStarts]; exact h.le, fun y hy => ?_, fun y hy => ?_⟩
  · have hne : y ≠ offset := fun heq => hmem (heq ▸ List.mem_of_mem_take hy)
    rw [← h.takeWhile_lineStarts] at hy
    have hle : y ≤ offset := by simpa using List.all_eq_true.1 List.all_takeWhile y hy
    omega
  · obtain ⟨j, hj, rfl⟩ := List.mem_drop_iff_getElem.1 hy
    have hlt : line < lineCount s := by
      rw [← length_lineStarts]
      omega
    have hstart : (lineStarts s)[line]? = some (utf8Length (above s (line + 1))) :=
      getElem?_lineStarts hlt (Nat.succ_pos line)
    obtain ⟨hline, hnext⟩ := List.getElem?_eq_some_iff.1 hstart
    have hoffset := h.lt_next hlt
    rw [← hnext] at hoffset
    rcases Nat.eq_zero_or_pos j with rfl | hj'
    · exact hoffset
    · exact Nat.lt_trans hoffset (List.pairwise_iff_getElem.1 (lineStarts_increasing s) _ _ _ _
        (Nat.lt_add_of_pos_right hj'))

/-- Searching for the line gives the position that is read off the starts. -/
theorem lineCol_of_searchedFor {found : Except Nat Nat}
    (h : SearchedFor (lineStarts s) offset found) :
    ∃ i start, lineIndex? found = some i ∧ (lineStarts s)[i]? = some start ∧ start ≤ offset ∧
      lineCol s offset = (do
        return (← bounded (i + 1), ← bounded ((offset - start) % wordLimit + 1))) := by
  obtain ⟨i, hi, hstands⟩ := standsOn_of_searchedFor h
  exact ⟨i, _, hi, getElem?_lineStarts hstands.le hstands.pos, hstands.start_le,
    lineCol_of_standsOn hstands⟩

/-! ## Positions of a text -/

/-- A position on a line: at one of its bytes, or right behind it. -/
def IsPosition (s : List Char) (line column : Nat) : Prop :=
  ∃ l, rawLine? s line = some l ∧ 1 ≤ column ∧ column ≤ utf8Length l + 1

theorem IsPosition.exists_line {column : Nat} (h : IsPosition s line column) :
    ∃ l, 1 ≤ line ∧ (splitLines s)[line - 1]? = some l ∧ 1 ≤ column ∧ column ≤ utf8Length l + 1 := by
  obtain ⟨l, hl, hcolumn⟩ := h
  rw [rawLine?_eq] at hl
  split at hl
  · cases hl
  · exact ⟨l, by omega, hl, hcolumn⟩

theorem utf8Length_above_add_le {l : List Char} (hpos : 1 ≤ line)
    (h : (splitLines s)[line - 1]? = some l) :
    utf8Length (above s line) + utf8Length l ≤ utf8Length s := by
  have hle := utf8Length_le_of_prefix (prefix_onward h)
  rw [← utf8Length_above_add (le_lineCount_of_getElem? hpos h) hpos]
  omega

/-- An offset in the text is at a byte of its line, or right behind it. -/
theorem StandsOn.isPosition (h : StandsOn s line offset) (hle : offset ≤ utf8Length s) :
    IsPosition s line (offset - utf8Length (above s line) + 1) := by
  obtain ⟨l, hl⟩ := exists_getElem?_splitLines h.pos h.le
  refine ⟨l, ?_, Nat.succ_pos _, ?_⟩
  · rw [rawLine?_eq, if_neg (Nat.ne_of_gt h.pos), hl]
  have hend : offset ≤ utf8Length (above s line) + utf8Length l := by
    rcases Nat.lt_or_eq_of_le h.le with hnext | rfl
    · have hlt := h.lt_next hnext
      rw [utf8Length_above_succ h.pos hl] at hlt
      omega
    · rwa [← onward_lineCount hl, utf8Length_above_add h.le h.pos]
  omega

/-- The position of an offset leads back to it, and the position on a line to one that has it.
Only the end of an overlong text has no position of two words. The ranges of bytes spell lines
without line feeds that join to the text, and any search of the starts finds the line. -/
theorem lineCol_inverse (s : List Char) (hshort : utf8Length s < wordLimit) :
    (∀ offset ≤ utf8Length s,
      if offset = utf8Length s ∧ OverlongEnd s then lineCol s offset = .error .overflow
      else ∃ line column, lineCol s offset = .ok (line, column) ∧ IsPosition s line column ∧
        offset? s line column = some offset) ∧
    (∀ line column, IsPosition s line column → line < wordLimit → column < wordLimit →
      ∃ offset, offset? s line column = some offset ∧ lineCol s offset = .ok (line, column)) ∧
    (∃ ls, (List.range' 1 (lineCount s)).map (rawLine? s) = ls.map some ∧
      (∀ l ∈ ls, '\n' ∉ l) ∧ joinLines ls = s) ∧
    (∀ line, line? s line = (rawLine? s line).map dropReturn) ∧
    (∀ offset, (∃ found, SearchedFor (lineStarts s) offset found) ∧
      ∀ found, SearchedFor (lineStarts s) offset found →
        ∃ i start, lineIndex? found = some i ∧ (lineStarts s)[i]? = some start ∧ start ≤ offset ∧
          lineCol s offset = (do
            return (← bounded (i + 1), ← bounded ((offset - start) % wordLimit + 1)))) := by
  refine ⟨fun offset hle => ?_, fun line column hposition hline hcolumn => ?_,
    ⟨splitLines s, map_rawLine? s, fun l hl => not_mem_of_mem_splitLines hl,
      joinLines_splitLines s⟩, line?_eq s,
    fun offset => ⟨exists_searchedFor s offset, fun _ h => lineCol_of_searchedFor h⟩⟩
  · obtain ⟨line, h⟩ := exists_standsOn s offset
    have heq := h.lineCol_eq hle hshort
    split
    · next hend => rw [heq, if_pos hend]
    · next hend =>
      rw [if_neg hend] at heq
      exact ⟨line, _, heq, h.isPosition hle, h.offset?_eq hle⟩
  · obtain ⟨l, hpos, hl, hone, hle⟩ := hposition.exists_line
    have hstands := standsOn_of_column hpos hl hone hle
    have hlength := utf8Length_above_add_le hpos hl
    have hoffset : utf8Length (above s line) + (column - 1) ≤ utf8Length s := by omega
    have hback : utf8Length (above s line) + (column - 1) - utf8Length (above s line) + 1 =
        column := by omega
    have hfits := (hstands.fits_iff hoffset hshort).1 ⟨hline, by rwa [hback]⟩
    refine ⟨_, ?_, (hstands.lineCol_eq hoffset hshort).trans ?_⟩
    · exact offset?_eq_some_iff.2 ⟨hpos, hstands.le, hone, rfl, hoffset⟩
    · rw [if_neg hfits, hback]

/-- Right behind the carriage return of a first line, and behind a last line feed. -/
theorem lineCol_inverse_at_return :
    utf8Length "ab\r\nc\n".toList < wordLimit ∧
      (∃ offset, offset? "ab\r\nc\n".toList 1 4 = some offset ∧
        lineCol "ab\r\nc\n".toList offset = .ok (1, 4)) ∧
      ∃ line column, lineCol "ab\r\nc\n".toList 6 = .ok (line, column) ∧
        IsPosition "ab\r\nc\n".toList line column ∧
        offset? "ab\r\nc\n".toList line column = some 6 := by
  have hshort : utf8Length "ab\r\nc\n".toList < wordLimit := by decide
  obtain ⟨hback, hon, -⟩ := lineCol_inverse "ab\r\nc\n".toList hshort
  refine ⟨hshort, hon 1 4 ⟨['a', 'b', '\r'], by rw [rawLine?_eq]; decide, by decide, by decide⟩
    (by decide) (by decide), ?_⟩
  have hend := hback 6 (by decide)
  rwa [if_neg (by decide)] at hend

/-- The longest line that a text shorter than a word can have: its end is in column `wordLimit`, which
is no word, so no position leads back to it. -/
theorem no_position_behind_longest_line :
    utf8Length (List.replicate (wordLimit - 1) 'a') = wordLimit - 1 ∧
      lineCol (List.replicate (wordLimit - 1) 'a') (wordLimit - 1) = .error .overflow ∧
      ¬∃ line column,
        lineCol (List.replicate (wordLimit - 1) 'a') (wordLimit - 1) = .ok (line, column) ∧
          offset? (List.replicate (wordLimit - 1) 'a') line column = some (wordLimit - 1) := by
  have hlength (n : Nat) : utf8Length (List.replicate n 'a') = n := by
    rw [utf8Length_replicate]
    exact Nat.mul_one n
  generalize hs : List.replicate (wordLimit - 1) 'a' = s
  have hone : s.count '\n' = 0 := by
    rw [← hs, List.count_replicate]
    rfl
  have hlong : utf8Length s = wordLimit - 1 := by rw [← hs, hlength]
  have hend : OverlongEnd s := ⟨by rw [hlong]; rfl, .inl hone⟩
  have hoverflow : lineCol s (wordLimit - 1) = .error .overflow := by
    rw [← hlong, (standsOn_end s).lineCol_eq (Nat.le_refl _) (by rw [hlong]; decide), if_pos ⟨rfl, hend⟩]
  refine ⟨hlong, hoverflow, ?_⟩
  rintro ⟨line, column, hposition, -⟩
  rw [hoverflow] at hposition
  cases hposition

end SketchSense.Text
