import SketchSense.Proofs.FilePath.Names
import SketchSense.Proofs.Sketch.Site

/-!
# When coordinates follow the text

The coordinate map moves all lines by one number, while the include goes into the middle of the
text. The two agree when the include takes the place of a blank line and when it comes first, and
at no other place: the lines above it are mapped past it.

* `CoordinateMap.toEdited_analyzedName`, the way back from the analysed sketch;
* `CoordinatesAgree`, that the map follows the text around an include;
* `IncludeSite.IsEven`, the places where it does, with `coordinatesAgree_withInclude_iff`.
-/

namespace SketchSense

/-! ## The way back -/

/-- A line of the analysed sketch is one of the sketch, unless it is among the first ones. -/
theorem CoordinateMap.toEdited_analyzedName {path : FilePath} (hkind : path.kind = .sketchEntry)
    {header : Option FilePath} (hheader : ∀ h ∈ header, h = path.prototypeHeader)
    {shift line column : Nat} :
    (CoordinateMap.mk path path.analyzedName header shift).toEdited
        ⟨path.analyzedName, line, column⟩ =
      if shift < line then some ⟨path, line - shift, column⟩ else none := by
  have hnot : (CoordinateMap.mk path path.analyzedName header shift).isHeader path.analyzedName
      = false := by
    unfold isHeader
    rw [FilePath.not_isPrototypeHeader_analyzedName hkind]
    cases header with
    | none => rfl
    | some h =>
      rw [hheader h rfl]
      exact FilePath.prototypeHeader_ne_analyzedName hkind
  have hrenamed : (CoordinateMap.mk path path.analyzedName header shift).isRenamed path.analyzedName
      = true := by
    simp [isRenamed, FilePath.analyzedName_ne hkind]
  unfold toEdited
  rw [hnot, hrenamed]
  rfl

/-! ## Agreement -/

/-- The map follows the text: a line of the sketch that is still there is mapped to where it is,
and back, and every line outside the include is the image of one line of the sketch. -/
structure CoordinatesAgree (path : FilePath) (code : String) (made : Sources)
    (site : Option IncludeSite) : Prop where
  follows : ∀ l column, 1 ≤ l → l ≤ Text.lineCount code.toList →
    (∀ i ∈ site, ¬ i.Replaces l) → ∃ a, made.map.toAnalyzed l column = .ok a ∧
      (Text.splitLines made.main.code.toList)[a.line - 1]? =
        (Text.splitLines code.toList)[l - 1]? ∧
      made.map.toEdited a = some ⟨path, l, column⟩
  covers : ∀ k column, 1 ≤ k → k ≤ Text.lineCount made.main.code.toList →
    (∀ i ∈ site, ¬ i.Covers k) → ∃! l, (1 ≤ l ∧ l ≤ Text.lineCount code.toList) ∧
      ∃ a, made.map.toAnalyzed l column = .ok a ∧ a.line = k

/-- The include is one line, and no line above it moves. -/
def IncludeSite.IsEven (i : IncludeSite) : Prop := '\n' ∉ i.line ∧ (i.gone = 1 ∨ i.above = 0)

variable {path : FilePath} {code : String}

theorem toAnalyzed_eq {m : CoordinateMap} {l column : Nat} {a : Location} :
    m.toAnalyzed l column = .ok a ↔
      l + m.lineShift < wordLimit ∧ a = ⟨m.analyzed, l + m.lineShift, column⟩ := by
  unfold CoordinateMap.toAnalyzed
  constructor
  · intro h
    cases hb : bounded (l + m.lineShift) with
    | error e => rw [hb] at h; cases h
    | ok n =>
      obtain ⟨hlt, rfl⟩ := bounded_eq_ok_iff.1 hb
      rw [hb] at h
      cases h
      exact ⟨hlt, rfl⟩
  · rintro ⟨hlt, rfl⟩
    rw [bounded_eq_ok_iff.2 ⟨hlt, rfl⟩]
    rfl

/-- The last line of a text is mapped only if its number still fits a word. -/
theorem CoordinatesAgree.fits {made : Sources} {site : Option IncludeSite}
    (h : CoordinatesAgree path code made site)
    (hbelow : ∀ i ∈ site, i.above + i.gone < Text.lineCount code.toList) :
    Text.lineCount code.toList + made.map.lineShift < wordLimit := by
  have hone : 1 ≤ Text.lineCount code.toList := by
    unfold Text.lineCount
    rw [Text.length_splitLines]
    exact Nat.le_add_left ..
  obtain ⟨a, ha, -⟩ := h.follows (Text.lineCount code.toList) 1 hone (Nat.le_refl _)
    fun i hi hreplaces => absurd hreplaces.2 (Nat.not_le_of_lt (hbelow i hi))
  exact (toAnalyzed_eq.1 ha).1

/-- A sketch that only changes its name keeps its coordinates. -/
theorem coordinatesAgree_renamed_iff (hkind : path.kind = .sketchEntry) :
    CoordinatesAgree path code (.renamed path code) none ↔
      Text.lineCount code.toList < wordLimit := by
  constructor
  · intro h
    exact h.fits (by simp)
  intro hfits
  constructor
  · intro l column hl hcount _
    refine ⟨⟨path.analyzedName, l, column⟩, toAnalyzed_eq.2 ⟨?_, rfl⟩, rfl, ?_⟩
    · exact Nat.lt_of_le_of_lt hcount hfits
    · have hback : (Sources.renamed path code).map.toEdited ⟨path.analyzedName, l, column⟩ = _ :=
        CoordinateMap.toEdited_analyzedName hkind (by simp)
      rw [if_pos (Nat.lt_of_lt_of_le Nat.zero_lt_one hl)] at hback
      exact hback
  · intro k column hk hcount _
    refine ⟨k, ⟨⟨hk, hcount⟩, _, toAnalyzed_eq.2 ⟨?_, rfl⟩, rfl⟩, ?_⟩
    · exact Nat.lt_of_le_of_lt hcount hfits
    · rintro l ⟨-, a, ha, hline⟩
      obtain ⟨-, rfl⟩ := toAnalyzed_eq.1 ha
      exact hline

/-! ## Agreement around an include -/

/-- The sources of a sketch with the include at a place. -/
def Sources.withInclude (path : FilePath) (code header : String) (i : IncludeSite) : Sources :=
  .injected path header
    ⟨String.ofList (Text.joinLines (i.lines (Text.splitLines code.toList))), 1 - i.gone, true⟩

variable {header : String} {i : IncludeSite}

theorem Sources.splitLines_withInclude :
    Text.splitLines (withInclude path code header i).main.code.toList =
      (Text.splitLines code.toList).take i.above ++ Text.splitLines i.line ++
        (Text.splitLines code.toList).drop (i.above + i.gone) := by
  show Text.splitLines (String.ofList _).toList = _
  rw [String.toList_ofList, i.splitLines_joinLines fun l => Text.not_mem_of_mem_splitLines]

theorem Sources.lineCount_withInclude (path : FilePath) (header : String)
    (habove : i.above ≤ Text.lineCount code.toList) :
    Text.lineCount (withInclude path code header i).main.code.toList =
      i.above + (Text.splitLines i.line).length +
        (Text.lineCount code.toList - (i.above + i.gone)) := by
  unfold Text.lineCount at habove ⊢
  rw [splitLines_withInclude, List.length_append, List.length_append, List.length_take,
    List.length_drop, Nat.min_eq_left habove]

theorem Sources.toAnalyzed_withInclude {l column : Nat} {a : Location} :
    (withInclude path code header i).map.toAnalyzed l column = .ok a ↔
      l + (1 - i.gone) < wordLimit ∧ a = ⟨path.analyzedName, l + (1 - i.gone), column⟩ :=
  toAnalyzed_eq

/-- The map can only follow the text around a place that is even: elsewhere some line outside the
include is the image of no line. -/
theorem isEven_of_coordinatesAgree (hgone : i.gone ≤ 1)
    (hbelow : i.above + i.gone < Text.lineCount code.toList)
    (h : CoordinatesAgree path code (.withInclude path code header i) (some i)) : i.IsEven := by
  have hcount := Text.length_splitLines i.line
  have hlines := Sources.lineCount_withInclude path header
    (Nat.le_of_lt (Nat.lt_of_add_right_lt hbelow))
  -- the line `k` outside the include is not mapped to, so there is no such line
  have hmissed (k : Nat) (hk : 1 ≤ k)
      (hin : k ≤ Text.lineCount (Sources.withInclude path code header i).main.code.toList)
      (hout : ¬ i.Covers k) :
      1 - i.gone < k ∧ k ≤ Text.lineCount code.toList + (1 - i.gone) := by
    obtain ⟨l, ⟨⟨hl, hle⟩, a, ha, hline⟩, -⟩ := h.covers k 1 hk hin fun j hj => by
      cases hj
      exact hout
    obtain ⟨-, rfl⟩ := Sources.toAnalyzed_withInclude.1 ha
    simp only at hline
    omega
  constructor
  · intro hmem
    have hmany := List.one_le_count_iff.2 hmem
    have hlast := hmissed
      (Text.lineCount (Sources.withInclude path code header i).main.code.toList) (by omega)
      (Nat.le_refl _) (by unfold IncludeSite.Covers; omega)
    omega
  · by_contra hne
    rw [not_or] at hne
    have hfirst := hmissed 1 (Nat.le_refl 1) (by omega) (by unfold IncludeSite.Covers; omega)
    omega

/-- Around an even place the map follows the text. -/
theorem coordinatesAgree_of_isEven (hkind : path.kind = .sketchEntry) (hgone : i.gone ≤ 1)
    (hbelow : i.above + i.gone < Text.lineCount code.toList)
    (hfits : Text.lineCount code.toList + (1 - i.gone) < wordLimit) (h : i.IsEven) :
    CoordinatesAgree path code (.withInclude path code header i) (some i) := by
  obtain ⟨hline, hplace⟩ := h
  have hone : Text.splitLines i.line = [i.line] := Text.splitLines_of_not_mem hline
  have hcount := Sources.lineCount_withInclude path header
    (Nat.le_of_lt (Nat.lt_of_add_right_lt hbelow))
  rw [hone, List.length_singleton] at hcount
  constructor
  · intro l column hl hle hreplaces
    have hkeeps : ¬ i.Replaces l := hreplaces i rfl
    have hlimit : l + (1 - i.gone) < wordLimit := by omega
    refine ⟨⟨path.analyzedName, l + (1 - i.gone), column⟩,
      Sources.toAnalyzed_withInclude.2 ⟨hlimit, rfl⟩, ?_, ?_⟩
    · have habove : ((Text.splitLines code.toList).take i.above).length = i.above := by
        rw [List.length_take]
        exact Nat.min_eq_left (Nat.le_of_lt (Nat.lt_of_add_right_lt hbelow))
      rw [Sources.splitLines_withInclude, hone]
      unfold IncludeSite.Replaces at hkeeps
      by_cases hbefore : l ≤ i.above
      · have hsame : l + (1 - i.gone) - 1 = l - 1 := by omega
        rw [hsame, List.append_assoc, List.getElem?_append_left (by omega),
          List.getElem?_take_of_lt (by omega)]
      · rw [List.getElem?_append_right (by simp; omega), List.getElem?_drop]
        congr 1
        simp only [List.length_append, habove, List.length_singleton]
        omega
    · show (CoordinateMap.mk path path.analyzedName (some path.prototypeHeader)
        (1 - i.gone)).toEdited _ = _
      rw [CoordinateMap.toEdited_analyzedName hkind (by simp)]
      rw [if_pos (by omega), Nat.add_sub_cancel]
  · intro k column hk hle hcovers
    have hout : ¬ i.Covers k := hcovers i rfl
    unfold IncludeSite.Covers at hout
    rw [hone, List.length_singleton] at hout
    have hlimit : k - (1 - i.gone) + (1 - i.gone) < wordLimit := by omega
    refine ⟨k - (1 - i.gone), ⟨⟨by omega, by omega⟩,
      ⟨path.analyzedName, k - (1 - i.gone) + (1 - i.gone), column⟩,
      Sources.toAnalyzed_withInclude.2 ⟨hlimit, rfl⟩, by simp only; omega⟩, ?_⟩
    rintro l ⟨⟨hl, -⟩, a, ha, hline⟩
    obtain ⟨-, rfl⟩ := Sources.toAnalyzed_withInclude.1 ha
    simp only at hline
    omega

/-- The map follows the text around an include exactly if its place is even, as long as the lines
can be counted. -/
theorem coordinatesAgree_withInclude_iff (hkind : path.kind = .sketchEntry) (hgone : i.gone ≤ 1)
    (hbelow : i.above + i.gone < Text.lineCount code.toList) :
    CoordinatesAgree path code (.withInclude path code header i) (some i) ↔
      i.IsEven ∧
        Text.lineCount (Sources.withInclude path code header i).main.code.toList < wordLimit := by
  have hlines := Sources.lineCount_withInclude path header
    (Nat.le_of_lt (Nat.lt_of_add_right_lt hbelow))
  -- around an even place the last line of the text goes to the last line of the other one
  have hlast (heven : i.IsEven) :
      Text.lineCount (Sources.withInclude path code header i).main.code.toList =
        Text.lineCount code.toList + (1 - i.gone) := by
    rw [hlines, Text.splitLines_of_not_mem heven.1, List.length_singleton]
    omega
  constructor
  · intro h
    have heven := isEven_of_coordinatesAgree hgone hbelow h
    refine ⟨heven, ?_⟩
    rw [hlast heven]
    exact h.fits fun j hj => by
      cases hj
      exact hbelow
  · rintro ⟨heven, hfits⟩
    rw [hlast heven] at hfits
    exact coordinatesAgree_of_isEven hkind hgone hbelow hfits heven

end SketchSense
