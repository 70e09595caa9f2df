import SketchSense.Proofs.FilePath.Kinds
import SketchSense.Proofs.Sketch.Coordinates
import SketchSense.Proofs.Sketch.Rewriting
import SketchSense.Proofs.Text.Comment
import SketchSense.Query.Hover

/-!
# Comments of a sketch with its include

The comment above a function is looked for in the text with the include. The include may stand
between the two: then the comment is not found any more, or the include is shown as a part of it.

* `IncludeSite.Spares`, the lines whose comment an include leaves alone;
* `IncludeSite.linesAbove_spared`, that the same lines are collected for them;
* `Transformer.keeps_comment_of_spares`, the comments of the functions of a sketch.
-/

namespace SketchSense

open Text (onward? onwardBehind? commentLines allAbove declarationLine commentAbove)

/-- Without its carriage return a line holds nothing new. -/
theorem Text.dropReturn_subset (l : List Char) : Text.dropReturn l ⊆ l := by
  unfold Text.dropReturn
  split
  · exact List.dropLast_subset l
  · exact List.Subset.refl l

namespace IncludeSite

variable {i : IncludeSite} {code : String} {l : Nat}

/-- The lines of the text from the include down to line `l`, nearest to line `l` first. -/
def between (i : IncludeSite) (code : String) (l : Nat) : List (List Char) :=
  (((Text.lines code.toList).take (l - 1)).drop (i.above + i.gone)).reverse

/-- The include leaves alone the comment above line `l`: it is one line, and upward from line `l`
the search ends below it, or it comes to it outside block comments and finds nothing above it but a
blank line or no comment. -/
def Spares (i : IncludeSite) (code : String) (l : Nat) : Prop :=
  '\n' ∉ i.line ∧
    match onwardBehind? false (i.between code l) with
    | none => True
    | some inBlock => inBlock = false ∧ (i.gone = 0 →
        commentLines false ((Text.lines code.toList).take i.above).reverse = [])

instance : Decidable (i.Spares code l) :=
  match h : onwardBehind? false (i.between code l) with
  | none => decidable_of_iff ('\n' ∉ i.line) (by simp [Spares, h])
  | some inBlock => decidable_of_iff ('\n' ∉ i.line ∧ inBlock = false ∧ (i.gone = 0 →
      commentLines false ((Text.lines code.toList).take i.above).reverse = [])) (by simp [Spares, h])

/-! ## The lines above a function -/

section

variable {path : FilePath} {header : String}

/-- The lines above line `l`: those up to the include, those that make room for it, and the rest. -/
theorem allAbove_eq (hl : l ≤ Text.lineCount code.toList) (hbelow : i.above + i.gone < l) :
    allAbove code.toList l = i.between code l ++
      ((((Text.lines code.toList).drop i.above).take i.gone).reverse ++
        ((Text.lines code.toList).take i.above).reverse) := by
  have hline : declarationLine code.toList l = l := by
    rw [declarationLine, Text.lines, List.length_map]
    exact Nat.min_eq_left hl
  have hsplit : (Text.lines code.toList).take (l - 1) = (Text.lines code.toList).take i.above ++
      (((Text.lines code.toList).drop i.above).take i.gone ++
        ((Text.lines code.toList).take (l - 1)).drop (i.above + i.gone)) := by
    have habove : ((Text.lines code.toList).take (l - 1)).take i.above =
        (Text.lines code.toList).take i.above := by
      rw [List.take_take, Nat.min_eq_left (by omega)]
    have hmiddle : (((Text.lines code.toList).take (l - 1)).drop i.above).take i.gone =
        ((Text.lines code.toList).drop i.above).take i.gone := by
      rw [List.drop_take, List.take_take, Nat.min_eq_left (by omega)]
    rw [← habove, ← hmiddle, ← List.drop_drop, List.take_append_drop, List.take_append_drop]
  rw [allAbove, hline, hsplit, List.reverse_append, List.reverse_append, List.append_assoc]
  rfl

/-- The lines above where line `l` is in the text with the include. -/
theorem allAbove_withInclude (hone : '\n' ∉ i.line) (hgone : i.gone ≤ 1)
    (hl : l ≤ Text.lineCount code.toList) (hbelow : i.above + i.gone < l) :
    allAbove (Sources.withInclude path code header i).main.code.toList (l + (1 - i.gone)) =
      i.between code l ++
        (Text.dropReturn i.line :: ((Text.lines code.toList).take i.above).reverse) := by
  have habove : i.above ≤ Text.lineCount code.toList := by omega
  have hcount := Sources.lineCount_withInclude path header habove
  rw [Text.splitLines_of_not_mem hone, List.length_singleton] at hcount
  have hline : declarationLine (Sources.withInclude path code header i).main.code.toList
      (l + (1 - i.gone)) = l + (1 - i.gone) := by
    rw [declarationLine, Text.lines, List.length_map]
    refine Nat.min_eq_left ?_
    unfold Text.lineCount at hcount hl
    omega
  have hlines : Text.lines (Sources.withInclude path code header i).main.code.toList =
      (Text.lines code.toList).take i.above ++ (Text.dropReturn i.line ::
        (Text.lines code.toList).drop (i.above + i.gone)) := by
    rw [Text.lines, Sources.splitLines_withInclude, Text.splitLines_of_not_mem hone, Text.lines,
      List.map_append, List.map_append, List.map_take, List.map_drop, List.append_assoc]
    rfl
  have habove : ((Text.lines code.toList).take i.above).length = i.above := by
    rw [List.length_take, Text.lines, List.length_map]
    refine Nat.min_eq_left ?_
    unfold Text.lineCount at hl
    omega
  have hnumber : l + (1 - i.gone) - 1 - i.above = l - 1 - (i.above + i.gone) + 1 := by omega
  rw [allAbove, hline, hlines, List.take_append, habove, hnumber, List.take_succ_cons,
    List.take_of_length_le (by rw [habove]; omega), List.reverse_append, List.reverse_cons,
    List.append_assoc, between, List.drop_take]
  rfl

/-- The same lines are collected above a line that the include spares. -/
theorem linesAbove_spared (hslash : '/' ∉ i.line) (hgone : i.gone ≤ 1)
    (hblank : i.gone = 1 → ∃ old, (Text.splitLines code.toList)[i.above]? = some old ∧
      Text.isBlankText old = true)
    (hl : l ≤ Text.lineCount code.toList) (hbelow : i.above + i.gone < l) (h : i.Spares code l) :
    commentLines false (Text.linesAbove (Sources.withInclude path code header i).main.code.toList
        (l + (1 - i.gone))) = commentLines false (Text.linesAbove code.toList l) := by
  obtain ⟨hone, hsearch⟩ := h
  rw [Text.linesAbove_eq, Text.linesAbove_eq, Text.commentLines_take, Text.commentLines_take,
    allAbove_withInclude hone hgone hl hbelow, allAbove_eq hl hbelow, Text.commentLines_append,
    Text.commentLines_append]
  congr 2
  cases hbehind : onwardBehind? false (i.between code l) with
  | none => rfl
  | some inBlock =>
    rw [hbehind] at hsearch
    obtain ⟨rfl, hnothing⟩ := hsearch
    have hstop : onward? false (Text.dropReturn i.line) = none :=
      Text.onward?_of_not_mem fun hc => hslash (Text.dropReturn_subset _ hc)
    dsimp only
    rw [Text.commentLines_cons, hstop]
    rcases Nat.le_one_iff_eq_zero_or_eq_one.1 hgone with hzero | hgone
    · rw [hzero, List.take_zero, List.reverse_nil, List.nil_append, hnothing hzero]
    · obtain ⟨old, hold, hblank⟩ := hblank hgone
      have hshown : (Text.lines code.toList)[i.above]? = some (Text.dropReturn old) := by
        rw [Text.lines, List.getElem?_map, hold]
        rfl
      obtain ⟨hlt, hget⟩ := List.getElem?_eq_some_iff.1 hshown
      have hend : onward? false (Text.dropReturn old) = none :=
        Text.onward?_of_not_mem fun hc =>
          absurd (List.all_eq_true.1 hblank _ (Text.dropReturn_subset _ hc)) (by decide)
      rw [hgone, List.drop_eq_getElem_cons hlt, hget, List.take_succ_cons, List.take_zero,
        List.reverse_singleton, List.singleton_append, Text.commentLines_cons, hend]

end

end IncludeSite

/-! ## The functions of a sketch -/

/-- A line that includes a header of the sketch holds no slash, whatever line it replaces. -/
theorem slash_not_mem_includeLine (path : FilePath) (old : List Char) :
    '/' ∉ includeLine path old ∧ '/' ∉ path.includeDirective.toList := by
  have hdirective : '/' ∉ path.includeDirective.toList := by
    rw [FilePath.includeDirective_eq]
    simp [path.slash_not_mem_lastSegment]
  refine ⟨?_, hdirective⟩
  unfold includeLine
  split
  · simp [hdirective]
  · exact hdirective

variable {path : FilePath} {code : String} {ds : List Definition}

/-- What is collected above a function is the same in the sources of a scanned sketch, if the include
spares it. -/
theorem commentAbove_ofScan {d : Definition} (hd : d ∈ ds)
    (hline : 1 ≤ d.line ∧ d.line ≤ Text.lineCount code.toList)
    (hspares : ∀ i ∈ attachedSite? path code ds, i.Spares code d.line) :
    commentAbove (Sources.ofScan path code ds).main.code
        (d.line + (Sources.ofScan path code ds).map.lineShift) = commentAbove code d.line := by
  unfold Sources.ofScan
  cases hsite : attachedSite? path code ds with
  | none => rfl
  | some i =>
    have hplace := hsite
    unfold attachedSite? at hplace
    split at hplace
    · cases hplace
    obtain ⟨first, hfirst, habove, -, hgone⟩ := includeSite?_eq_some hplace
    have hle : first ≤ d.line := (List.min?_eq_some_iff.1 hfirst).2 _ (List.mem_map.2 ⟨d, hd, rfl⟩)
    have hlines : commentLines false (Text.linesAbove
        (Sources.withInclude path code (prototypeHeader path ds) i).main.code.toList
        (d.line + (1 - i.gone))) = commentLines false (Text.linesAbove code.toList d.line) := by
      rcases hgone with ⟨hzero, hdirective⟩ | ⟨hone, hlt, old, hold, hblank, hdirective⟩
      · refine i.linesAbove_spared ?_ (by omega) (by omega) hline.2 (by omega) (hspares i hsite)
        exact hdirective ▸ (slash_not_mem_includeLine path []).2
      · refine i.linesAbove_spared ?_ (by omega) (fun _ => ⟨old, hold, hblank⟩) hline.2 (by omega)
          (hspares i hsite)
        exact hdirective ▸ (slash_not_mem_includeLine path old).1
    unfold commentAbove
    rw [← hlines]
    rfl

/-- The text of a sketch is found under the name that the engine has for it. -/
theorem Sources.codeOf?_ofScan (hkind : path.kind = .sketchEntry) :
    codeOf? path.analyzedName (Sources.ofScan path code ds).unsaved =
      some (Sources.ofScan path code ds).main.code := by
  have hother : (path.prototypeHeader == path.analyzedName) = false :=
    FilePath.prototypeHeader_ne_analyzedName hkind
  unfold ofScan
  cases attachedSite? path code ds with
  | none => simp [codeOf?, unsaved, renamed]
  | some i => simp [codeOf?, unsaved, withInclude, injected, hother]

/-- A symbol without structured comment shows the comment above its line. -/
theorem yields_documentationOf {σ : Type} {b : UnitBuilder σ} {texts : SourceTexts}
    {u : CompilationUnit} {c : Cursor} {text : String} {s : σ}
    (hknown : ¬ (c.location.isUnknown ∨ c.location.line = 0))
    (htext : texts.text? c.location.file = some text)
    (hcomment : commentAbove text c.location.line ≠ "") :
    Yields (documentationOf b texts u c) s
      ⟨Text.brief (commentAbove text c.location.line), commentAbove text c.location.line⟩ s := by
  unfold documentationOf
  rw [if_neg hknown, htext]
  simp [commentAt?, hcomment, yields_pure]

open Model

/-- The rewrite keeps the comments of the functions of a sketch, as far as the include spares them:
what stands above a function in its text stands above it in the text for the engine, and there it is
shown. -/
theorem Transformer.keeps_comment_of_spares {args : List String} {s s' : ModelState}
    {found : Option (List Definition)} (hkind : path.kind = .sketchEntry)
    (hscan : Yields (definitions? modelEngine path code args) s found s') :
    ∃ made t, Yields (({} : Transformer).sources modelEngine path code args) s (made, t) s' ∧
      ∀ d ∈ (definedIn? code).getD [], d.line + made.map.lineShift < wordLimit →
        (∀ i ∈ attachedSite? path code (found.getD []), i.Spares code d.line) →
        ∃ q, made.map.toAnalyzed d.line 1 = .ok q ∧
          commentAbove made.main.code q.line = commentAbove code d.line ∧
          ∀ (b : UnitBuilder ModelState) (texts : SourceTexts) (u : CompilationUnit) (c : Cursor)
            (r : ModelState), texts.unsaved = made.unsaved → c.location.file = q.file →
            c.location.line = q.line → commentAbove code d.line ≠ "" →
            Yields (documentationOf b texts u c) r
              ⟨Text.brief (commentAbove code d.line), commentAbove code d.line⟩ r := by
  obtain ⟨t, hmade⟩ := yields_sources_ofScan hkind hscan
  refine ⟨_, t, hmade, fun d hd hfits hspares => ?_⟩
  have hline := line_of_mem_definedIn? code d hd
  have hsame : commentAbove (Sources.ofScan path code (found.getD [])).main.code
      (d.line + (Sources.ofScan path code (found.getD [])).map.lineShift) =
        commentAbove code d.line := by
    rcases definitions?_eq hscan with rfl | rfl
    · rfl
    · exact commentAbove_ofScan hd hline hspares
  refine ⟨_, toAnalyzed_eq.2 ⟨hfits, rfl⟩, hsame, ?_⟩
  intro b texts u c r htexts hfile hcline hcomment
  have hanalyzed : (Sources.ofScan path code (found.getD [])).map.analyzed = path.analyzedName := by
    unfold Sources.ofScan
    cases attachedSite? path code (found.getD []) <;> rfl
  dsimp only at hfile hcline
  have htext : texts.text? c.location.file =
      some (Sources.ofScan path code (found.getD [])).main.code := by
    rw [hfile, hanalyzed, SourceTexts.text?, htexts, Sources.codeOf?_ofScan hkind]
    rfl
  rw [← hsame, ← hcline] at hcomment ⊢
  refine yields_documentationOf (not_or.2 ⟨?_, ?_⟩) htext hcomment
  · rw [Location.isUnknown, hfile, hanalyzed, FilePath.isEmpty_analyzedName (by simp [hkind])]
    exact Bool.false_ne_true
  · rw [hcline]
    omega

/-- The comment of a function with a blank line above it is kept. -/
theorem keeps_comment_below_blank_line :
    ∃ made t s' q, Yields (({} : Transformer).sources modelEngine ⟨"/s/Blink.ino"⟩
        "int a;\n\n// doc\nvoid f() \x7b\x7d\n" []) {} (made, t) s' ∧
      made.map.toAnalyzed 4 1 = .ok q ∧ commentAbove made.main.code q.line = "doc" := by
  have hscan := yields_definitions? (s := {}) ⟨"/s/Blink.ino"⟩
    "int a;\n\n// doc\nvoid f() \x7b\x7d\n" [] (by cbv) rfl
  have hfound : definedIn? "int a;\n\n// doc\nvoid f() \x7b\x7d\n" = some [⟨"f", 4, "void f()"⟩] := by
    cbv
  have hcomment : commentAbove "int a;\n\n// doc\nvoid f() \x7b\x7d\n" 4 = "doc" := by decide +kernel
  obtain ⟨made, t, hmade, hkept⟩ := Transformer.keeps_comment_of_spares (by decide) hscan
  obtain ⟨_, hofScan⟩ := Transformer.yields_sources_ofScan (by decide) hscan
  obtain ⟨rfl, -⟩ := Prod.mk.inj (hmade.unique hofScan).1
  rw [hfound] at hmade hkept
  obtain ⟨q, hq, hsame, -⟩ := hkept ⟨"f", 4, "void f()"⟩ List.mem_cons_self (by decide) (by
    intro i hi
    cases hi
    decide)
  exact ⟨_, t, _, q, hmade, hq, hsame.trans hcomment⟩

/-- Without a blank line above it the comment is cut off: the include stands below it. -/
theorem detaches_comment_of_first_function :
    ∃ made t s' q, Yields (({} : Transformer).sources modelEngine ⟨"/s/Blink.ino"⟩
        "// doc\nvoid f() \x7b\x7d\n" []) {} (made, t) s' ∧
      (⟨"f", 2, "void f()"⟩ : Definition) ∈ (definedIn? "// doc\nvoid f() \x7b\x7d\n").getD [] ∧
      commentAbove "// doc\nvoid f() \x7b\x7d\n" 2 = "doc" ∧
      made.map.toAnalyzed 2 1 = .ok q ∧ commentAbove made.main.code q.line = "" := by
  have hscan := yields_definitions? (s := {}) ⟨"/s/Blink.ino"⟩
    "// doc\nvoid f() \x7b\x7d\n" [] (by cbv) rfl
  have hfound : definedIn? "// doc\nvoid f() \x7b\x7d\n" = some [⟨"f", 2, "void f()"⟩] := by cbv
  rw [hfound] at hscan ⊢
  obtain ⟨t, hmade⟩ := Transformer.yields_sources_ofScan (by decide) hscan
  exact ⟨_, t, _, _, hmade, List.mem_cons_self, by decide +kernel, rfl, by decide +kernel⟩

end SketchSense
