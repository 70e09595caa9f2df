import SketchSense.Proofs.Diagnostic.Scoping
import SketchSense.Proofs.FilePath.Faithful
import SketchSense.Proofs.Query.Occurrence
import SketchSense.Proofs.Sketch.Coordinates

/-!
# The laws of the coordinate map

The map of a file has four ways to go back from a location of the engine: it is hidden, it is in the
analysed text, it is in the analysed text of another sketch, or it stays. Which way it goes is decided
by the name of the file alone, and no way ends at a name from which another one would lead on.

* `CoordinateMap.IsWellMade`, what the laws rest on, with `Sources.IsOf.isWellMade`;
* `CoordinateMap.toEdited_of_ordinary` and `CoordinateMap.IsWellMade.of_toEdited`, the way that stays
  and the way from the analysed text;
* `CoordinateMap.IsFaithful`, the laws, with `Transformer.isFaithful_of_sources`.
-/

namespace SketchSense

/-! ## Names that the map hides -/

theorem FilePath.isAnalyzedEntry_eq_of_beq {p q : FilePath} (h : (p == q) = true) :
    p.isAnalyzedEntry = q.isAnalyzedEntry := by
  unfold FilePath.isAnalyzedEntry FilePath.nameEndsWith
  rw [FilePath.fileName?_eq_of_beq h]

theorem FilePath.isPrototypeHeader_eq_of_beq {p q : FilePath} (h : (p == q) = true) :
    p.isPrototypeHeader = q.isPrototypeHeader := by
  unfold FilePath.isPrototypeHeader FilePath.nameEndsWith
  rw [FilePath.fileName?_eq_of_beq h]

/-- An analysed sketch is no generated header: the one is a source and the other is not. -/
theorem FilePath.not_isPrototypeHeader_of_isAnalyzedEntry {p : FilePath}
    (h : p.isAnalyzedEntry = true) : p.isPrototypeHeader = false := by
  rw [Bool.eq_false_iff]
  intro hheader
  have hkind := FilePath.kind_of_isPrototypeHeader hheader
  rw [FilePath.kind_of_isAnalyzedEntry h] at hkind
  cases hkind

namespace CoordinateMap

variable {m : CoordinateMap} {l x y : Location}

/-- The names that only the engine knows are made for sketches, and the name of the file is not. A
file that keeps its name keeps its lines. -/
structure IsWellMade (m : CoordinateMap) : Prop where
  edited : m.edited.isSynthetic = false
  header : ∀ h ∈ m.header, h.isPrototypeHeader = true
  analyzed : (m.analyzed = m.edited ∧ m.lineShift = 0) ∨ m.analyzed.isAnalyzedEntry = true

namespace IsWellMade

variable (hm : m.IsWellMade)

include hm

/-- Only generated headers are hidden as a whole. -/
theorem isHeader_eq (p : FilePath) : m.isHeader p = p.isPrototypeHeader := by
  unfold isHeader
  rw [Bool.or_eq_left_iff_imp]
  intro hany
  obtain ⟨h, hh, heq⟩ := (Option.any_eq_true _ _).1 hany
  rw [← FilePath.isPrototypeHeader_eq_of_beq heq]
  exact hm.header h hh

/-- A file that is presented under another name is presented under one that was made for it. -/
theorem isAnalyzedEntry_of_isRenamed {p : FilePath} (h : m.isRenamed p = true) :
    p.isAnalyzedEntry = true := by
  unfold isRenamed at h
  obtain ⟨hname, hrenamed⟩ := Bool.and_eq_true_iff.1 h
  rw [FilePath.isAnalyzedEntry_eq_of_beq hname]
  -- a file that keeps its name would be renamed to itself
  refine hm.analyzed.resolve_left ?_
  intro hsame
  rw [hsame.1] at hrenamed
  simp at hrenamed

/-- A location in a file whose name was made for no sketch stays where it is. -/
theorem toEdited_of_ordinary (hl : l.file.isSynthetic = false) : m.toEdited l = some l := by
  obtain ⟨hentry, hheader⟩ := Bool.or_eq_false_iff.1 hl
  have hrenamed : m.isRenamed l.file = false := by
    rw [Bool.eq_false_iff]
    intro h
    rw [hm.isAnalyzedEntry_of_isRenamed h] at hentry
    cases hentry
  unfold toEdited
  rw [hm.isHeader_eq, hheader, hrenamed, hentry]
  rfl

/-- From the analysed text of a renamed file all lines but the first ones lead back to the file. -/
theorem toEdited_of_renamed (hentry : m.analyzed.isAnalyzedEntry = true)
    (hl : (l.file == m.analyzed) = true) :
    m.toEdited l =
      if m.lineShift < l.line then some ⟨m.edited, l.line - m.lineShift, l.column⟩ else none := by
  have hname : l.file.isAnalyzedEntry = true := by rwa [FilePath.isAnalyzedEntry_eq_of_beq hl]
  have hrenamed : m.isRenamed l.file = true := by
    unfold isRenamed
    rw [hl, Bool.true_and, Bool.not_eq_true', Bool.eq_false_iff]
    intro hsame
    -- then the name of the file would be one that was made for a sketch
    have hedited := hm.edited
    rw [← FilePath.isSynthetic_eq_of_beq hsame, FilePath.isSynthetic, hentry] at hedited
    cases hedited
  unfold toEdited
  rw [hm.isHeader_eq, FilePath.not_isPrototypeHeader_of_isAnalyzedEntry hname, hrenamed]
  rfl

/-- What is shown of the analysed text is shown in the file, as many lines above as were put in. -/
theorem of_toEdited (hl : (l.file == m.analyzed) = true) (h : m.toEdited l = some y) :
    (y.file == m.edited) = true ∧ l.line = y.line + m.lineShift ∧ l.column = y.column := by
  rcases hm.analyzed with ⟨hsame, hshift⟩ | hentry
  · rw [hsame] at hl
    have hordinary : l.file.isSynthetic = false := by
      rw [FilePath.isSynthetic_eq_of_beq hl]
      exact hm.edited
    rw [hm.toEdited_of_ordinary hordinary] at h
    obtain rfl := Option.some.inj h
    exact ⟨hl, by rw [hshift, Nat.add_zero], rfl⟩
  · rw [hm.toEdited_of_renamed hentry hl] at h
    split at h
    · next hlt =>
      obtain rfl := Option.some.inj h
      exact ⟨BEq.rfl, (Nat.sub_add_cancel (Nat.le_of_lt hlt)).symm, rfl⟩
    · cases h

end IsWellMade

/-! ## The laws -/

/-- The laws of the way back: it undoes the way forth, it ends in no file that only the engine knows,
what it ends at stays there, and no two locations of the analysed text end at one. -/
structure IsFaithful (m : CoordinateMap) : Prop where
  returns : ∀ line column, 1 ≤ line → line + m.lineShift < wordLimit →
    ∃ l, m.toAnalyzed line column = .ok l ∧ m.toEdited l = some ⟨m.edited, line, column⟩
  ordinary : ∀ x y, m.toEdited x = some y →
    y.file.isPrototypeHeader = false ∧ y.file.isAnalyzedEntry = false
  settled : ∀ x y, m.toEdited x = some y → m.toEdited y = some y
  apart : ∀ x x', (x.file == m.analyzed) = true → (x'.file == m.analyzed) = true →
    (x == x') = false → ∀ y y', m.toEdited x = some y → m.toEdited x' = some y' → (y == y') = false

theorem IsWellMade.isSynthetic_of_toEdited (hm : m.IsWellMade) (h : m.toEdited x = some y) :
    y.file.isSynthetic = false := by
  rcases file_of_toEdited h with ⟨hfile, -⟩ | hfile
  · rw [hfile]
    exact hm.edited
  · rw [hfile]
    exact FilePath.isSynthetic_editedName _

theorem IsWellMade.isFaithful (hm : m.IsWellMade) : m.IsFaithful := by
  constructor
  case returns =>
    intro line column hpos hfits
    refine ⟨_, toAnalyzed_eq.2 ⟨hfits, rfl⟩, ?_⟩
    rcases hm.analyzed with ⟨hsame, hshift⟩ | hentry
    · rw [hsame, hshift]
      exact hm.toEdited_of_ordinary hm.edited
    · have hshown : m.lineShift < line + m.lineShift := Nat.lt_add_of_pos_left hpos
      rw [hm.toEdited_of_renamed hentry BEq.rfl, if_pos hshown]
      dsimp only
      rw [Nat.add_sub_cancel]
  case ordinary =>
    intro x y h
    exact (Bool.or_eq_false_iff.1 (hm.isSynthetic_of_toEdited h)).symm
  case settled =>
    intro x y h
    exact hm.toEdited_of_ordinary (hm.isSynthetic_of_toEdited h)
  case apart =>
    intro x x' hx hx' hne y y' hy hy'
    rw [Bool.eq_false_iff] at hne ⊢
    intro hsame
    apply hne
    -- both lines are the one that is shown, with the same number of lines above
    obtain ⟨-, hline, hcolumn⟩ := hm.of_toEdited hx hy
    obtain ⟨-, hline', hcolumn'⟩ := hm.of_toEdited hx' hy'
    obtain ⟨-, hl, hc⟩ := Location.beq_iff.1 hsame
    apply Location.beq_iff.2
    refine ⟨BEq.trans hx (BEq.symm hx'), ?_, ?_⟩
    · rw [hline, hline', hl]
    · rw [hcolumn, hcolumn', hc]

end CoordinateMap

/-! ## Maps of files -/

variable {path : FilePath} {made : Sources}

/-- The map of a file with a normal path is well made, unless the name of the file itself looks like
one that was made for a sketch. -/
theorem Sources.IsOf.isWellMade (h : made.IsOf path) (hnormal : path.IsNormal)
    (hordinary : path.isSynthetic = false) : made.map.edited = path ∧ made.map.IsWellMade := by
  cases h with
  | plain hkind code =>
    refine ⟨rfl, hordinary, ?_, .inl ⟨rfl, rfl⟩⟩
    intro h hh
    cases hh
  | renamed hkind code =>
    refine ⟨rfl, hordinary, ?_, .inr (FilePath.isAnalyzedEntry_analyzedName hkind hnormal)⟩
    intro h hh
    cases hh
  | @injected hkind header r hshift =>
    refine ⟨rfl, hordinary, ?_, .inr (FilePath.isAnalyzedEntry_analyzedName hkind hnormal)⟩
    intro h hh
    dsimp only [Sources.injected] at hh
    split at hh
    · rw [← Option.some.inj hh]
      exact FilePath.isPrototypeHeader_of_isNormal hkind hnormal
    · cases hh

variable {σ : Type} {e : Engine σ} {t t' : Transformer} {code : String} {args : List String} {s s' : σ}

/-- Whatever is remembered and whatever the engine finds, the map of a file with a normal path obeys
the laws, unless the name of the file itself looks like one that was made for a sketch. -/
theorem Transformer.isFaithful_of_sources
    (h : Yields (t.sources e path code args) s (made, t') s') (hnormal : path.IsNormal)
    (hordinary : path.isSynthetic = false) : made.map.edited = path ∧ made.map.IsFaithful := by
  obtain ⟨hedited, hmade⟩ := (isOf_of_sources h).isWellMade hnormal hordinary
  exact ⟨hedited, hmade.isFaithful⟩

open Model in
/-- The map of a sketch whose include is put in as its first line. -/
theorem Transformer.isFaithful_of_one_function :
    ∃ made t s', Yields (({} : Transformer).sources modelEngine ⟨"/s/Blink.ino"⟩
        "void setup() \x7b\x7d\n" []) {} (made, t) s' ∧
      (⟨"/s/Blink.ino"⟩ : FilePath).IsNormal ∧
      (⟨"/s/Blink.ino"⟩ : FilePath).isSynthetic = false ∧
      made.map.lineShift = 1 ∧ made.map.analyzed = ⟨"/s/Blink.ino.cpp"⟩ ∧ made.map.IsFaithful ∧
      ∃ l, made.map.toAnalyzed 1 6 = .ok l ∧ l.line = 2 ∧
        made.map.toEdited l = some ⟨⟨"/s/Blink.ino"⟩, 1, 6⟩ := by
  have hnormal : (⟨"/s/Blink.ino"⟩ : FilePath).IsNormal :=
    FilePath.isNormal_normalize ⟨"Blink.ino"⟩ ⟨"/s"⟩
  have hordinary : (⟨"/s/Blink.ino"⟩ : FilePath).isSynthetic = false := by decide
  have hscan := yields_definitions? (s := {}) ⟨"/s/Blink.ino"⟩ "void setup() \x7b\x7d\n" [] (by cbv) rfl
  have hfound : definedIn? "void setup() \x7b\x7d\n" = some [⟨"setup", 1, "void setup()"⟩] := by cbv
  rw [hfound] at hscan
  obtain ⟨t, hmade⟩ := Transformer.yields_sources_ofScan (by decide) hscan
  obtain ⟨-, hfaithful⟩ := isFaithful_of_sources hmade hnormal hordinary
  obtain ⟨l, hl, hback⟩ := hfaithful.returns 1 6 (Nat.le_refl 1) (by decide)
  refine ⟨_, t, _, hmade, hnormal, hordinary, rfl, rfl, hfaithful, l, hl, ?_, hback⟩
  rw [(toAnalyzed_eq.1 hl).2]
  rfl

end SketchSense
