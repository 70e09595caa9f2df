import SketchSense.Proofs.Sketch.Memory

/-!
# The line that an include edits

An include changes a text in one line. It takes the place of a blank line, whose closing carriage
return stays, or it is a line more. All other lines, whatever ends them, are those of the text.

* `EditsOneLine`, a text that differs from another one in the line of the include alone;
* `IncludeSite.editsOneLine`, that a text with the include at some place is such a text;
* `InsertionMemo.edits_one_line`, what becomes of any text, from memory or from definitions, and when
  it gets an include.
-/

namespace SketchSense

/-! ## Edited texts -/

/-- The lines of a text are those of `code`, but for the line of the include if it has one. -/
inductive EditsOneLine (path : FilePath) (code : String) : InjectedText → Prop
  | untouched : EditsOneLine path code ⟨code, 0, false⟩
  | replaced {text : String} {above below : List (List Char)} {old : List Char}
      (hcode : Text.splitLines code.toList = above ++ old :: below)
      (hblank : Text.isBlankText old = true)
      (htext : Text.splitLines text.toList = above ++ includeLine path old :: below) :
      EditsOneLine path code ⟨text, 0, true⟩
  | inserted {text : String} {above below : List (List Char)}
      (hcode : Text.splitLines code.toList = above ++ below)
      (htext : Text.splitLines text.toList = above ++ path.includeDirective.toList :: below) :
      EditsOneLine path code ⟨text, 1, true⟩

/-- The line that is remembered for the signature is a line of the text, and blank. -/
def InsertionMemo.Applies (m : InsertionMemo) (signature : ContentHash) (code : String) : Prop :=
  ∃ place ∈ m.points.get? signature, ∃ old ∈ (Text.splitLines code.toList)[place]?,
    Text.isBlankText old = true

variable {path : FilePath} {code : String} {i : IncludeSite}

/-! ## The include as a line -/

/-- What stands behind the last separator is the file name, or it holds nothing but dots. -/
theorem FilePath.newline_not_mem_lastSegment
    (hname : ∀ name ∈ path.fileName?, '\n' ∉ name.toList) : '\n' ∉ path.lastSegment := by
  by_cases hidle : FilePath.isIdle path.lastSegment = true
  · intro hmem
    unfold FilePath.isIdle at hidle
    rcases Bool.or_eq_true_iff.1 hidle with hnil | hdot
    · rw [of_decide_eq_true hnil] at hmem
      cases hmem
    · rw [of_decide_eq_true hdot] at hmem
      exact absurd hmem (by decide)
  by_cases hup : path.lastSegment = ['.', '.']
  · rw [hup]
    decide
  · -- a path with nothing written after it has its last segment as its name
    have hlast : path.fileName? = some (String.ofList path.lastSegment) := by
      have happend : (path.append "").fileName? = _ :=
        FilePath.fileName?_append (by decide) (by simpa using hidle) (by simpa using hup)
      simpa [FilePath.append] using happend
    have hline := hname _ hlast
    rwa [String.toList_ofList] at hline

section OneLine

variable (hname : ∀ name ∈ path.fileName?, '\n' ∉ name.toList)

include hname

/-- The directive is one line. -/
theorem FilePath.newline_not_mem_includeDirective : '\n' ∉ path.includeDirective.toList := by
  have hline := FilePath.newline_not_mem_lastSegment hname
  rw [FilePath.includeDirective_eq]
  simp [hline]

theorem newline_not_mem_includeLine (old : List Char) : '\n' ∉ includeLine path old := by
  have hdirective := FilePath.newline_not_mem_includeDirective hname
  unfold includeLine
  split
  · simp [hdirective]
  · exact hdirective

/-! ## Texts with the include -/

/-- A text with a new line for the include, or with the include in place of a blank line, is edited
in one line. -/
theorem IncludeSite.editsOneLine
    (hsite : (i.gone = 0 ∧ i.line = path.includeDirective.toList) ∨
      (i.gone = 1 ∧ ∃ old, (Text.splitLines code.toList)[i.above]? = some old ∧
        Text.isBlankText old = true ∧ i.line = includeLine path old)) :
    EditsOneLine path code
      ⟨String.ofList (Text.joinLines (i.lines (Text.splitLines code.toList))), 1 - i.gone, true⟩ := by
  have hlines (hline : '\n' ∉ i.line) :
      Text.splitLines (Text.joinLines (i.lines (Text.splitLines code.toList))) =
        (Text.splitLines code.toList).take i.above ++
          i.line :: (Text.splitLines code.toList).drop (i.above + i.gone) := by
    -- a text is cut where its lines were joined, as no line holds a line end
    rw [i.splitLines_joinLines fun l => Text.not_mem_of_mem_splitLines,
      Text.splitLines_of_not_mem hline, List.append_assoc, List.singleton_append]
  rcases hsite with ⟨hgone, hline⟩ | ⟨hgone, old, hold, hblank, hline⟩
  · have hwithin : '\n' ∉ i.line := hline ▸ FilePath.newline_not_mem_includeDirective hname
    rw [hgone]
    refine .inserted (List.take_append_drop i.above _).symm ?_
    rw [String.toList_ofList, hlines hwithin, hgone, hline, Nat.add_zero]
  · have hwithin : '\n' ∉ i.line := hline ▸ newline_not_mem_includeLine hname old
    obtain ⟨hlt, rfl⟩ := List.getElem?_eq_some_iff.1 hold
    rw [hgone]
    have hcode : Text.splitLines code.toList = (Text.splitLines code.toList).take i.above ++
        (Text.splitLines code.toList)[i.above] :: (Text.splitLines code.toList).drop (i.above + 1) := by
      rw [← List.drop_eq_getElem_cons hlt, List.take_append_drop]
    refine .replaced hcode hblank ?_
    rw [String.toList_ofList, hlines hwithin, hgone, hline]

namespace InsertionMemo

variable {m : InsertionMemo} {signature : ContentHash} {r : InjectedText}

/-- A rewrite from memory has the include in place of the remembered line. -/
theorem editsOneLine_of_replay (h : m.replay signature path code = some r) :
    EditsOneLine path code r ∧ r.injected = true := by
  obtain ⟨place, old, -, hold, hblank, rfl⟩ := replay_eq_some h
  have hedits := IncludeSite.editsOneLine (i := ⟨place, 1, includeLine path old⟩) hname
    (.inr ⟨rfl, old, hold, hblank, rfl⟩)
  refine ⟨?_, rfl⟩
  unfold atLine
  dsimp only
  rw [replaceLine_eq hold]
  exact hedits

/-- An injection gives every text that has definitions its include. -/
theorem editsOneLine_inject (m : InsertionMemo) (signature : ContentHash) (code : String)
    (ds : List Definition) :
    EditsOneLine path code (m.inject signature path code ds).1 ∧
      ((m.inject signature path code ds).1.injected = true ↔ ds ≠ []) := by
  rw [inject_eq]
  cases hsite : includeSite? path (Text.splitLines code.toList) ds with
  | none =>
    rw [includeSite?_eq_none.1 hsite]
    exact ⟨.untouched, by simp [InjectedText.unchanged]⟩
  | some i =>
    have hsome : ds ≠ [] := by
      intro hnil
      rw [includeSite?_eq_none.2 hnil] at hsite
      cases hsite
    obtain ⟨_, -, -, -, hgone⟩ := includeSite?_eq_some hsite
    refine ⟨IncludeSite.editsOneLine hname ?_, iff_of_true rfl hsome⟩
    rcases hgone with hnew | ⟨hone, -, hold⟩
    · exact .inl hnew
    · exact .inr ⟨hone, hold⟩

end InsertionMemo

end OneLine

namespace InsertionMemo

/-! ## When there is an include -/

/-- A rewrite from memory is made exactly if the memo applies. -/
theorem isSome_replay_iff (m : InsertionMemo) (signature : ContentHash) (path : FilePath)
    (code : String) : (m.replay signature path code).isSome = true ↔ m.Applies signature code := by
  unfold replay Applies
  cases m.points.get? signature with
  | none => simp
  | some place =>
    dsimp only
    cases hold : (Text.splitLines code.toList)[place]? with
    | none => simp [hold]
    | some old => simp [hold]

/-- Whatever a memo remembers, a text is edited in at most one line: from memory, from definitions,
and from those that a scan finds if the memory does not help. It gets an include exactly if the memo
applies or there are definitions. -/
theorem edits_one_line {σ : Type} {scan : EngineM σ (List Definition)} {ds : List Definition}
    {s t : σ} (m : InsertionMemo) (signature : ContentHash) {path : FilePath}
    (hname : ∀ name ∈ path.fileName?, '\n' ∉ name.toList) (code : String)
    (hscan : Yields scan s ds t) :
    (∀ r ∈ m.replay signature path code, EditsOneLine path code r ∧ r.injected = true) ∧
      ((m.replay signature path code).isSome = true ↔ m.Applies signature code) ∧
      EditsOneLine path code (m.inject signature path code ds).1 ∧
      ((m.inject signature path code ds).1.injected = true ↔ ds ≠ []) ∧
      ∃ r m' s', Yields (m.replayOrInject signature path code scan) s (r, m') s' ∧
        EditsOneLine path code r ∧ (r.injected = true ↔ m.Applies signature code ∨ ds ≠ []) := by
  have hreplay := isSome_replay_iff m signature path code
  obtain ⟨hinject, hinjected⟩ := editsOneLine_inject hname m signature code ds
  refine ⟨fun r hr => editsOneLine_of_replay hname hr, hreplay, hinject, hinjected, ?_⟩
  cases hr : m.replay signature path code with
  | some r =>
    rw [hr] at hreplay
    obtain ⟨hedits, hincluded⟩ := editsOneLine_of_replay hname hr
    exact ⟨r, m, s, yields_replayOrInject.2 (.inl ⟨hr, rfl, rfl⟩), hedits,
      iff_of_true hincluded (.inl (hreplay.1 rfl))⟩
  | none =>
    rw [hr] at hreplay
    -- the memory does not help, so the definitions that are found decide
    have hnot : ¬ m.Applies signature code := fun happlies => absurd (hreplay.2 happlies) (by simp)
    refine ⟨(m.inject signature path code ds).1, (m.inject signature path code ds).2, t,
      yields_replayOrInject.2 (.inr ⟨hr, ds, hscan, Prod.eta _⟩), hinject, ?_⟩
    rw [hinjected, or_iff_right hnot]

/-- The include takes the place of a blank line that ends with a carriage return. -/
theorem edits_one_line_of_returns :
    (∀ name ∈ (FilePath.mk "/s/Blink.ino").fileName?, '\n' ∉ name.toList) ∧
      Yields (pure [⟨"f", 3, "void f()"⟩] : EngineM Unit (List Definition)) ()
        [⟨"f", 3, "void f()"⟩] () ∧
      EditsOneLine ⟨"/s/Blink.ino"⟩ "int a;\r\n\r\nvoid f() \x7b\x7d\r\n"
        ⟨"int a;\r\n#include \"Blink.ino.hpp\"\r\nvoid f() \x7b\x7d\r\n", 0, true⟩ := by
  have hname : ∀ name ∈ (FilePath.mk "/s/Blink.ino").fileName?, '\n' ∉ name.toList := by decide
  have hscan : Yields (pure [⟨"f", 3, "void f()"⟩] : EngineM Unit (List Definition)) ()
      [⟨"f", 3, "void f()"⟩] () := yields_pure.2 ⟨rfl, rfl⟩
  obtain ⟨-, -, hedits, -⟩ := edits_one_line {} ⟨0⟩ hname
    "int a;\r\n\r\nvoid f() \x7b\x7d\r\n" hscan
  exact ⟨hname, hscan, hedits⟩

end InsertionMemo

end SketchSense
