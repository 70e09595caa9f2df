import SketchSense.Proofs.FilePath.Names
import SketchSense.Proofs.Model.Lexemes
import SketchSense.Proofs.Model.Relexing
import SketchSense.Proofs.Sketch.Prototypes
import SketchSense.Proofs.Sketch.Site

/-!
# The tokens of a sketch with its include

The include is a directive on a line of its own, and a line that it replaces is blank. So the engine
sees in the text with the include the tokens of the sketch, those below the include moved by the
line that was put in.

* `FilePath.includeDirective_eq` and `idle_include`, the include as a line that declares nothing;
* `isSpace_of_cuts`, that a blank line outside comments is blank for the engine, too;
* `IncludeSite.exists_lex`, the tokens of the text with the include, and
  `IncludeSite.exists_lex_of_gone`, that it declares the same if the include replaces a line.
-/

namespace SketchSense

/-! ## The line of the include -/

/-- The include names the header by its file name. -/
theorem FilePath.includeDirective_eq (p : FilePath) :
    p.includeDirective.toList =
      '#' :: 'i' :: ("nclude \"".toList ++ p.lastSegment ++ ".hpp\"".toList) := by
  unfold includeDirective prototypeHeader
  rw [fileName?_append_hpp]
  simp

theorem FilePath.not_mem_lastSegment {p : FilePath} {c : Char} (h : c ∉ p.text.toList) :
    c ∉ p.lastSegment := by
  unfold lastSegment
  intro hc
  cases hlast : p.segments.getLast? with
  | none => simp [hlast] at hc
  | some s =>
    rw [hlast, Option.getD_some] at hc
    exact h (mem_of_mem_splitSlashes (List.mem_of_getLast? hlast) hc)

theorem FilePath.slash_not_mem_lastSegment (p : FilePath) : '/' ∉ p.lastSegment := by
  unfold lastSegment
  cases hlast : p.segments.getLast? with
  | none => simp
  | some s => exact not_mem_of_mem_splitSlashes (List.mem_of_getLast? hlast)

namespace Model

variable {path : FilePath}

/-- The include is a line that declares nothing, with a closing carriage return or without. -/
theorem idle_include (hpath : '\n' ∉ path.text.toList) {tail : List Char}
    (htail : tail = [] ∨ tail = ['\r']) :
    ∃ ms, Idle (path.includeDirective.toList ++ tail ++ ['\n']) ms ∧
      '\n' ∉ path.includeDirective.toList ++ tail := by
  have hline := FilePath.not_mem_lastSegment hpath
  have hslash := path.slash_not_mem_lastSegment
  rw [FilePath.includeDirective_eq, List.cons_append, List.cons_append]
  refine ⟨_, idle_directive ?_ ?_ (by decide) (by decide), ?_⟩
  all_goals rcases htail with rfl | rfl
  all_goals simp [hline, hslash]

/-! ## The line that is replaced -/

/-- A blank character that the engine does not pass over is not read at all. -/
theorem front_of_isBlank {c : Char} (b : Bool) (cs : List Char) (hblank : Text.isBlank c = true)
    (hline : c ≠ '\n') (htab : c ≠ '\x0b') (hspace : isSpace c = false) :
    front b c cs = .error .splitCharacter := by
  have hne (d : Char) (hd : Text.isBlank d = false) : c ≠ d := by
    rintro rfl
    rw [hblank] at hd
    cases hd
  have hpart : isWordPart c = false := by
    rw [Bool.eq_false_iff]
    intro hword
    rw [isBlank_of_isWordPart hword] at hblank
    cases hblank
  have hstart : isWordStart c = false := by
    rw [Bool.eq_false_iff]
    intro hword
    rw [isWordPart_of_isWordStart hword] at hpart
    cases hpart
  have hdigit : c.isDigit = false := by
    simp only [isWordPart, Char.isAlphanum, Bool.or_eq_false_iff] at hpart
    exact hpart.1.2
  have hquote : ¬ (c = '"' ∨ c = '\'') := by
    rw [not_or]
    exact ⟨hne _ (by decide), hne _ (by decide)⟩
  -- were it an ASCII character, it could be read as a mark, and no blank one can
  have hascii : isAscii c = false := by
    rw [Bool.eq_false_iff]
    intro h
    have hmark := isBlank_of_isRead_mark ⟨hline, hspace, hquote, hstart, hdigit, h⟩ htab
    rw [hblank] at hmark
    cases hmark
  rw [front, if_neg hline, if_neg (by simp [hspace]), if_neg fun h => hne _ (by decide) h.2,
    if_neg fun h => hne _ (by decide) h.1, if_neg fun h => hne _ (by decide) h.1, if_neg hquote,
    if_neg (by simp [hstart]), if_neg (by simp [hdigit]), if_neg fun h => hne _ (by decide) h.1,
    if_neg (by simp [hascii])]

/-- A blank line at the start of a text that is read is blank for the engine. -/
theorem isSpace_of_cuts {L B : List Char} {ps : List Piece} {b : Bool}
    (hblank : Text.isBlankText L = true) (hline : '\n' ∉ L) (htab : '\x0b' ∉ L)
    (h : Cuts true (L ++ ['\n'] ++ B) ps b []) : ∀ c ∈ L, isSpace c = true := by
  induction L generalizing ps with
  | nil => simp
  | cons c L ih =>
    simp only [List.mem_cons, not_or] at hline htab
    unfold Text.isBlankText at hblank ih
    simp only [List.all_cons, Bool.and_eq_true] at hblank
    have hc : isSpace c = true := by
      cases hspace : isSpace c with
      | true => rfl
      | false =>
        cases h with
        | piece hfront _ =>
          have hstop := front_of_isBlank true (L ++ ['\n'] ++ B) hblank.1
            (Ne.symm hline.1) (Ne.symm htab.1) hspace
          rw [List.append_eq, List.append_eq, hstop] at hfront
          cases hfront
    have hfirst : front true c (L ++ ['\n'] ++ B) = .ok (.space, [], L ++ ['\n'] ++ B) := by
      rw [front, if_neg (Ne.symm hline.1), if_pos hc]
    have hrest : ∃ qs, Cuts true (L ++ ['\n'] ++ B) qs b [] := by
      cases h with
      | piece hfront hrest =>
        rw [List.append_eq, List.append_eq, hfirst] at hfront
        cases hfront
        exact ⟨_, hrest⟩
    obtain ⟨qs, hqs⟩ := hrest
    intro d hd
    rcases List.mem_cons.1 hd with rfl | hd
    · exact hc
    · exact ih hblank.2 hline.2 htab.2 hqs d hd

end Model

/-! ## The whole text -/

/-- The lines that make room for the include, with their line feeds. -/
def IncludeSite.replaced (i : IncludeSite) (ls : List (List Char)) : List Char :=
  Text.wholeLines ((ls.drop i.above).take i.gone)

variable {path : FilePath} {code : String} {ds : List Definition} {i : IncludeSite}

/-- The text and the text with the include are the same above and below it. -/
theorem IncludeSite.joinLines_eq {ls : List (List Char)} (h : i.above + i.gone < ls.length) :
    Text.joinLines ls = Text.wholeLines (ls.take i.above) ++ i.replaced ls ++
        Text.joinLines (ls.drop (i.above + i.gone)) ∧
      Text.joinLines (i.lines ls) = Text.wholeLines (ls.take i.above) ++ (i.line ++ ['\n']) ++
        Text.joinLines (ls.drop (i.above + i.gone)) := by
  have hbelow : ls.drop (i.above + i.gone) ≠ [] := by
    rw [Ne, List.drop_eq_nil_iff]
    exact Nat.not_le_of_lt h
  constructor
  · have hsplit : ls = ls.take i.above ++ ((ls.drop i.above).take i.gone ++
        ls.drop (i.above + i.gone)) := by
      rw [← List.drop_drop, List.take_append_drop, List.take_append_drop]
    calc Text.joinLines ls
        = Text.joinLines (ls.take i.above ++ ((ls.drop i.above).take i.gone ++
            ls.drop (i.above + i.gone))) := by rw [← hsplit]
      _ = _ := by
        rw [Text.joinLines_append _ (List.append_ne_nil_of_right_ne_nil _ hbelow),
          Text.joinLines_append _ hbelow, List.append_assoc]
        rfl
  · have hline := Text.joinLines_append [i.line] hbelow
    rw [List.singleton_append] at hline
    rw [lines, Text.joinLines_append _ (List.cons_ne_nil _ _), hline]
    simp [Text.wholeLines]

open Model

/-- The include takes the place of nothing or of one blank line. -/
theorem IncludeSite.replaced_eq {ls : List (List Char)}
    (h : includeSite? path ls ds = some i) :
    (i.gone = 0 ∧ i.replaced ls = [] ∧ i.line = path.includeDirective.toList ++ []) ∨
      (i.gone = 1 ∧ ∃ old ∈ ls, Text.isBlankText old = true ∧ i.replaced ls = old ++ ['\n'] ∧
        ∃ tail, (tail = [] ∨ tail = ['\r']) ∧ i.line = path.includeDirective.toList ++ tail) := by
  obtain ⟨_, _, _, _, hgone⟩ := includeSite?_eq_some h
  rcases hgone with ⟨hzero, hline⟩ | ⟨hone, -, old, hold, hblank, hline⟩
  · refine .inl ⟨hzero, ?_, by rw [hline, List.append_nil]⟩
    unfold replaced
    rw [hzero]
    rfl
  · obtain ⟨hlt, rfl⟩ := List.getElem?_eq_some_iff.1 hold
    refine .inr ⟨hone, _, List.getElem_mem hlt, hblank, ?_, ?_⟩
    · unfold replaced
      rw [hone, List.drop_eq_getElem_cons hlt, List.take_succ_cons, List.take_zero]
      simp [Text.wholeLines]
    · rw [hline, includeLine]
      split
      · exact ⟨_, .inr rfl, rfl⟩
      · exact ⟨_, .inl rfl, (List.append_nil _).symm⟩

/-- No blank line of the text has a vertical tab, which the engine would read as a token. -/
def HasPlainBlanks (code : String) : Prop :=
  ∀ l ∈ Text.splitLines code.toList, Text.isBlankText l = true → '\x0b' ∉ l

theorem hasPlainBlanks_of_not_mem (h : '\x0b' ∉ code.toList) : HasPlainBlanks code :=
  fun _ hl _ hc => h (Text.mem_of_mem_splitLines hl hc)

/-- What makes room for the include is a line that declares nothing if it is read at all, and closes
no comment. -/
theorem IncludeSite.idle_replaced (htab : HasPlainBlanks code)
    (hsite : includeSite? path (Text.splitLines code.toList) ds = some i) :
    (∀ {B ps b}, Cuts true (i.replaced (Text.splitLines code.toList) ++ B) ps b [] →
      ∃ ms, Idle (i.replaced (Text.splitLines code.toList)) ms) ∧
    '/' ∉ i.replaced (Text.splitLines code.toList) := by
  rcases IncludeSite.replaced_eq hsite with ⟨-, hnothing, -⟩ | ⟨-, old, hmem, hblank, hold, -⟩
  · rw [hnothing]
    exact ⟨fun _ => ⟨_, idle_nil⟩, List.not_mem_nil⟩
  · rw [hold]
    refine ⟨fun hcuts => ⟨_, idle_blank (isSpace_of_cuts hblank
      (Text.not_mem_of_mem_splitLines hmem) (htab old hmem hblank) hcuts)⟩, ?_⟩
    intro hslash
    rcases List.mem_append.1 hslash with hslash | hslash
    · exact absurd (List.all_eq_true.1 hblank _ hslash) (by decide)
    · exact absurd hslash (by decide)

/-- The line of the include declares nothing, and it is one line more unless it replaces one. -/
theorem IncludeSite.idle_line (hpath : '\n' ∉ path.text.toList)
    (hsite : includeSite? path (Text.splitLines code.toList) ds = some i) :
    (∃ ms, Idle (i.line ++ ['\n']) ms) ∧ (i.line ++ ['\n']).count '\n' =
      (i.replaced (Text.splitLines code.toList)).count '\n' + (1 - i.gone) := by
  have hreplaced := IncludeSite.replaced_eq hsite
  obtain ⟨tail, htail, hline⟩ : ∃ tail, (tail = [] ∨ tail = ['\r']) ∧
      i.line = path.includeDirective.toList ++ tail := by
    rcases hreplaced with ⟨-, -, hline⟩ | ⟨-, -, -, -, -, hline⟩
    · exact ⟨[], .inl rfl, hline⟩
    · exact hline
  obtain ⟨ms, hidle, hwithin⟩ := idle_include hpath htail
  rw [← hline] at hidle hwithin
  refine ⟨⟨ms, hidle⟩, ?_⟩
  rw [List.count_append, List.count_eq_zero.2 hwithin]
  rcases hreplaced with ⟨hgone, hnothing, -⟩ | ⟨hgone, old, hmem, -, hblank, -⟩
  · rw [hgone, hnothing]
    rfl
  · rw [hgone, hblank, List.count_append,
      List.count_eq_zero.2 (Text.not_mem_of_mem_splitLines hmem)]
    rfl

section Lexing

variable {lx : Lexed} (hpath : '\n' ∉ path.text.toList) (htab : HasPlainBlanks code)
  (hsite : includeSite? path (Text.splitLines code.toList) ds = some i)
  (hbelow : i.above + i.gone < Text.lineCount code.toList) (h : lex code = .ok lx)

include hpath htab hsite hbelow h

/-- If the include replaces a line, the engine sees the tokens and the definitions of the sketch
where they are. -/
theorem IncludeSite.exists_lex_of_gone (hgone : i.gone = 1) :
    ∃ lx', lex (String.ofList (Text.joinLines (i.lines (Text.splitLines code.toList)))) = .ok lx' ∧
      lx'.tokens = lx.tokens ∧ ∀ file, lx'.directives.filterMap (Directive.macro? file) =
        lx.directives.filterMap (Directive.macro? file) := by
  obtain ⟨hold, hnew⟩ := IncludeSite.joinLines_eq hbelow
  rw [← String.ofList_toList (s := code), ← Text.joinLines_splitLines code.toList, hold] at h
  rw [hnew]
  obtain ⟨hidle', hslash⟩ := IncludeSite.idle_replaced htab hsite
  obtain ⟨⟨ms, hidle⟩, hcount⟩ := IncludeSite.idle_line hpath hsite
  rw [hgone] at hcount
  exact exists_lex_of_evenLines (Text.getLast?_wholeLines _) (Text.getLast?_wholeLines _) hidle'
    hslash (.inr List.getLast?_concat) hidle h hcount

end Lexing

end SketchSense
