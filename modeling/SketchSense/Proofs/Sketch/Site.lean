import SketchSense.Proofs.Sketch.Making
import SketchSense.Proofs.Text.Lines

/-!
# Where the include goes

An injection changes a text at one place: the include takes the place of a blank line, or a line of
its own is made for it. All that a proof needs to know of an injection is that place.

* `IncludeSite`, the place of an include, with `IncludeSite.lines`, the lines that it makes;
* `includeSite?`, the place above the first definition, with what is known of it;
* `InsertionMemo.inject_eq`, what injection makes of a text.
-/

namespace SketchSense

/-- Where an include stands: behind the first `above` lines, for `gone` lines of the text. -/
structure IncludeSite where
  above : Nat
  gone : Nat
  line : List Char
  deriving DecidableEq, Repr

namespace IncludeSite

/-- The lines of a text with the include. -/
def lines (i : IncludeSite) (ls : List (List Char)) : List (List Char) :=
  ls.take i.above ++ i.line :: ls.drop (i.above + i.gone)

/-- Line `l` of the text makes room for the include. -/
def Replaces (i : IncludeSite) (l : Nat) : Prop := i.above < l ∧ l ≤ i.above + i.gone

/-- Line `k` of the text with the include belongs to the include. -/
def Covers (i : IncludeSite) (k : Nat) : Prop :=
  i.above < k ∧ k ≤ i.above + (Text.splitLines i.line).length

end IncludeSite

/-- The include as a line in place of `old`, whose closing carriage return stays. -/
def includeLine (path : FilePath) (old : List Char) : List Char :=
  if old.getLast? = some '\r' then path.includeDirective.toList ++ ['\r']
  else path.includeDirective.toList

/-- The place above the first of some definitions: the nearest blank line, or else a new line. -/
def includeSite? (path : FilePath) (ls : List (List Char)) (ds : List Definition) :
    Option IncludeSite :=
  (ds.map (·.line)).min?.map fun first =>
    let index := min (first - 1) ls.length
    match blankAbove? ls index with
    | some blank => ⟨blank, 1, includeLine path (ls[blank]?.getD [])⟩
    | none => ⟨index, 0, path.includeDirective.toList⟩

/-! ## Blank lines -/

/-- The blank line that is found stands above the given line. -/
theorem blankAbove?_eq_some {ls : List (List Char)} {index blank : Nat}
    (h : blankAbove? ls index = some blank) :
    blank < index ∧ ∃ old, ls[blank]? = some old ∧ Text.isBlankText old = true := by
  induction index with
  | zero => simp [blankAbove?] at h
  | succ index ih =>
    unfold blankAbove? at h
    split at h
    · next hblank =>
      cases h
      refine ⟨Nat.lt_succ_self _, ?_⟩
      cases hls : ls[blank]? with
      | none => simp [hls] at hblank
      | some old => exact ⟨old, rfl, by simpa [hls] using hblank⟩
    · obtain ⟨hlt, hold⟩ := ih h
      exact ⟨Nat.lt_succ_of_lt hlt, hold⟩

/-! ## What is known of the place -/

variable {path : FilePath} {ls : List (List Char)} {ds : List Definition} {i : IncludeSite}

theorem includeSite?_eq_none : includeSite? path ls ds = none ↔ ds = [] := by
  simp [includeSite?]

/-- The include replaces one blank line of the text or none, above the first definition. -/
theorem includeSite?_eq_some (h : includeSite? path ls ds = some i) :
    ∃ first, (ds.map (·.line)).min? = some first ∧ i.above ≤ first - 1 ∧ i.above ≤ ls.length ∧
      ((i.gone = 0 ∧ i.line = path.includeDirective.toList) ∨
        (i.gone = 1 ∧ i.above < first - 1 ∧ ∃ old, ls[i.above]? = some old ∧
          Text.isBlankText old = true ∧ i.line = includeLine path old)) := by
  obtain ⟨first, hfirst, hi⟩ := Option.map_eq_some_iff.1 h
  refine ⟨first, hfirst, ?_⟩
  dsimp only at hi
  split at hi
  · next blank hblank =>
    obtain ⟨hlt, old, hold, hisblank⟩ := blankAbove?_eq_some hblank
    subst hi
    obtain ⟨hfirst, hlength⟩ := Nat.lt_min.1 hlt
    refine ⟨Nat.le_of_lt hfirst, Nat.le_of_lt hlength,
      .inr ⟨rfl, hfirst, old, hold, hisblank, ?_⟩⟩
    simp [hold]
  · subst hi
    exact ⟨Nat.min_le_left .., Nat.min_le_right .., .inl ⟨rfl, rfl⟩⟩

/-- A line that is replaced leaves the lines around it as they are. -/
theorem replaceLine_eq {blank : Nat} {old : List Char} (h : ls[blank]? = some old) :
    replaceLine ls blank path.includeDirective.toList =
      ls.take blank ++ includeLine path old :: ls.drop (blank + 1) := by
  obtain ⟨hlt, hold⟩ := List.getElem?_eq_some_iff.1 h
  unfold replaceLine includeLine
  rw [List.modify_eq_take_cons_drop hlt, hold]

/-- Injection puts the include in its place, and shifts the lines unless it replaces one. -/
theorem InsertionMemo.inject_eq (m : InsertionMemo) (signature : ContentHash) (path : FilePath)
    (code : String) (ds : List Definition) :
    (m.inject signature path code ds).1 =
      match includeSite? path (Text.splitLines code.toList) ds with
      | none => .unchanged code
      | some i =>
        ⟨String.ofList (Text.joinLines (i.lines (Text.splitLines code.toList))), 1 - i.gone, true⟩ := by
  unfold inject includeSite?
  cases (ds.map (·.line)).min? with
  | none => rfl
  | some first =>
    dsimp only [Option.map_some]
    cases hblank : blankAbove? (Text.splitLines code.toList)
        (min (first - 1) (Text.splitLines code.toList).length) with
    | none => simp [IncludeSite.lines]
    | some blank =>
      obtain ⟨-, old, hold, -⟩ := blankAbove?_eq_some hblank
      simp [IncludeSite.lines, atLine, replaceLine_eq hold, hold]

/-- The lines of the text with the include, each as it is cut. -/
theorem IncludeSite.splitLines_joinLines (i : IncludeSite) {ls : List (List Char)}
    (h : ∀ l ∈ ls, '\n' ∉ l) :
    Text.splitLines (Text.joinLines (i.lines ls)) =
      ls.take i.above ++ Text.splitLines i.line ++ ls.drop (i.above + i.gone) := by
  rw [Text.splitLines_joinLines (by simp [lines]), lines, List.flatMap_append, List.flatMap_cons,
    Text.flatMap_splitLines fun l hl => h l (List.mem_of_mem_take hl),
    Text.flatMap_splitLines fun l hl => h l (List.mem_of_mem_drop hl), List.append_assoc]

end SketchSense
