import Mathlib.Data.List.Forall2
import Mathlib.Data.List.TakeWhile
import SketchSense.Proofs.Text.Search
import SketchSense.Text.Snippet

/-!
# Blocks that are indented anew

A block of code is moved as a whole: every line that shows something loses the indentation that all
such lines have, and gets the one that is asked for. What a line shows, and how it ends, is never
touched, so the block can be moved on as if it had not been moved before.

* `AreLines`, the lines of a text, each with its line feed, with `terminatedLines_flatten`;
* `ShowsBehind`, a line that shows something behind its indentation;
* `moveLine`, what happens to one line, with `terminatedLines_indentLines`;
* `IsCommonIndent` and `Reindents`, what is meant by moving a block, with `indent_composes`.
-/

namespace SketchSense.Text

/-! ## Lines with their line feeds -/

/-- Pieces that are the lines of a text: each ends with its only line feed, but the last one may go
without. -/
inductive AreLines : List (List Char) → Prop
  | nil : AreLines []
  | unended {l : List Char} (hne : l ≠ []) (hl : '\n' ∉ l) : AreLines [l]
  | ended {l : List Char} {ls : List (List Char)} (hl : '\n' ∉ l) (hls : AreLines ls) :
      AreLines ((l ++ ['\n']) :: ls)

theorem areLines_terminatedLines (s : List Char) : AreLines (terminatedLines s) := by
  induction s with
  | nil => exact .nil
  | cons c s ih =>
    unfold terminatedLines
    split
    · next hc =>
      rw [hc]
      exact .ended (l := []) List.not_mem_nil ih
    · next hc =>
      have hfirst {l : List Char} (hl : '\n' ∉ l) : '\n' ∉ c :: l :=
        List.not_mem_cons_of_ne_of_not_mem (Ne.symm hc) hl
      split
      · exact .unended (List.cons_ne_nil c []) (hfirst List.not_mem_nil)
      · next l ls hs =>
        rw [hs] at ih
        cases ih with
        | unended hne hl => exact .unended (List.cons_ne_nil c l) (hfirst hl)
        | ended hl hls => exact .ended (hfirst hl) hls

theorem terminatedLines_of_not_mem {l : List Char} (hne : l ≠ []) (hl : '\n' ∉ l) :
    terminatedLines l = [l] := by
  induction l with
  | nil => exact absurd rfl hne
  | cons c l ih =>
    rw [List.mem_cons, not_or] at hl
    unfold terminatedLines
    rw [if_neg (Ne.symm hl.1)]
    cases l with
    | nil => rfl
    | cons d l => rw [ih (List.cons_ne_nil d l) hl.2]

theorem terminatedLines_append_newline {l : List Char} (hl : '\n' ∉ l) (s : List Char) :
    terminatedLines (l ++ '\n' :: s) = (l ++ ['\n']) :: terminatedLines s := by
  induction l with
  | nil => simp [terminatedLines]
  | cons c l ih =>
    rw [List.mem_cons, not_or] at hl
    rw [List.cons_append, terminatedLines, if_neg (Ne.symm hl.1), ih hl.2]
    rfl

/-- Lines that are put together are cut again where they were. -/
theorem terminatedLines_flatten {ls : List (List Char)} (h : AreLines ls) :
    terminatedLines ls.flatten = ls := by
  induction h with
  | nil => rfl
  | unended hne hl =>
    rw [List.flatten_singleton, terminatedLines_of_not_mem hne hl]
  | ended hl hls ih =>
    rw [List.flatten_cons, List.append_assoc, List.singleton_append,
      terminatedLines_append_newline hl, ih]

/-! ## Lines that show something -/

/-- The line `l` is the indentation `lead` and then `rest`, which starts with something to be seen. -/
structure ShowsBehind (lead rest l : List Char) : Prop where
  eq : l = lead ++ rest
  lead : ∀ c ∈ lead, isIndent c = true
  rest : ∃ c cs, rest = c :: cs ∧ isIndent c = false ∧ c ≠ '\n'

namespace ShowsBehind

variable {lead rest l : List Char}

theorem not_isBlankLine (h : ShowsBehind lead rest l) : isBlankLine l = false := by
  obtain ⟨c, cs, hrest, hc, hnewline⟩ := h.rest
  have hmem : c ∈ dropEndWhile (· == '\n') l := by
    refine mem_dropEndWhile ?_ (by simpa using hnewline)
    rw [h.eq, hrest]
    exact List.mem_append_right _ List.mem_cons_self
  rw [Bool.eq_false_iff]
  intro hblank
  rw [List.all_eq_true.1 hblank c hmem] at hc
  cases hc

theorem indentWidth_eq (h : ShowsBehind lead rest l) : indentWidth l = lead.length := by
  obtain ⟨c, cs, hrest, hc, -⟩ := h.rest
  unfold indentWidth
  rw [h.eq, hrest, List.takeWhile_append_of_pos h.lead, List.takeWhile_cons_of_neg (by simp [hc]),
    List.append_nil]

/-- Other indentation in front of what a line shows makes a line that shows the same. -/
theorem with_lead (h : ShowsBehind lead rest l) {other : List Char}
    (hother : ∀ c ∈ other, isIndent c = true) : ShowsBehind other rest (other ++ rest) :=
  ⟨rfl, hother, h.rest⟩

end ShowsBehind

/-- What a line without its line feed shows is shown with it, too. -/
theorem ShowsBehind.append {lead rest body : List Char} (h : ShowsBehind lead rest body)
    (ending : List Char) : ShowsBehind lead (rest ++ ending) (body ++ ending) := by
  obtain ⟨c, cs, hrest, hc, hnewline⟩ := h.rest
  refine ⟨by rw [h.eq, List.append_assoc], h.lead, c, cs ++ ending, ?_, hc, hnewline⟩
  rw [hrest, List.cons_append]

theorem dropEndWhile_newline {body ending : List Char} (hbody : '\n' ∉ body)
    (hending : ending = [] ∨ ending = ['\n']) :
    dropEndWhile (· == '\n') (body ++ ending) = body := by
  have hbare : body.reverse.dropWhile (· == '\n') = body.reverse := by
    cases hrev : body.reverse with
    | nil => rfl
    | cons c cs =>
      apply List.dropWhile_cons_of_neg
      intro heq
      apply hbody
      rw [← List.mem_reverse, hrev, ← beq_iff_eq.1 heq]
      exact List.mem_cons_self
  unfold dropEndWhile
  rcases hending with rfl | rfl
  · rw [List.append_nil, hbare, List.reverse_reverse]
  · rw [List.reverse_append, List.reverse_singleton, List.singleton_append,
      List.dropWhile_cons_of_pos rfl, hbare, List.reverse_reverse]

/-- A line that is not blank shows something behind its indentation. -/
theorem exists_showsBehind_body {body ending : List Char} (hbody : '\n' ∉ body)
    (hending : ending = [] ∨ ending = ['\n']) (h : isBlankLine (body ++ ending) = false) :
    ∃ lead rest, ShowsBehind lead rest body := by
  unfold isBlankLine at h
  rw [dropEndWhile_newline hbody hending] at h
  -- behind the longest indentation stands the first character that is shown
  have hsplit := List.takeWhile_append_dropWhile (p := isIndent) (l := body)
  cases hdrop : body.dropWhile isIndent with
  | nil =>
    rw [hdrop, List.append_nil] at hsplit
    rw [← hsplit, List.all_takeWhile] at h
    cases h
  | cons c cs =>
    have hc := List.head?_dropWhile_not isIndent body
    rw [hdrop] at hc hsplit
    have hnewline : c ≠ '\n' := by
      rintro rfl
      apply hbody
      rw [← hsplit]
      exact List.mem_append_right _ List.mem_cons_self
    refine ⟨body.takeWhile isIndent, c :: cs, hsplit.symm, ?_, c, cs, rfl, by simpa using hc, hnewline⟩
    intro d hd
    exact List.mem_takeWhile_imp hd

theorem AreLines.exists_showsBehind {ls : List (List Char)} (h : AreLines ls) {l : List Char}
    (hl : l ∈ ls) (hshown : isBlankLine l = false) : ∃ lead rest, ShowsBehind lead rest l := by
  induction h with
  | nil => cases hl
  | @unended body hne hbody =>
    rw [List.mem_singleton.1 hl] at hshown ⊢
    exact exists_showsBehind_body hbody (.inl rfl) (by rwa [List.append_nil])
  | @ended body ls hbody hls ih =>
    rcases List.mem_cons.1 hl with rfl | hl
    · obtain ⟨lead, rest, hshows⟩ := exists_showsBehind_body hbody (.inr rfl) hshown
      exact ⟨lead, rest ++ ['\n'], hshows.append ['\n']⟩
    · exact ih hl

/-! ## The common indentation -/

/-- The number `n` is the indentation that the lines which show something have in common: none has
less, and if there are any, one has no more. -/
structure IsCommonIndent (n : Nat) (ls : List (List Char)) : Prop where
  le : ∀ l ∈ ls, isBlankLine l = false → n ≤ indentWidth l
  attained : (∃ l ∈ ls, isBlankLine l = false) → ∃ l ∈ ls, isBlankLine l = false ∧ indentWidth l = n

theorem commonIndent_eq_some_iff {ls : List (List Char)} {n : Nat} :
    commonIndent ls = some n ↔ (∃ l ∈ ls, isBlankLine l = false) ∧ IsCommonIndent n ls := by
  have hmem (k : Nat) : k ∈ (ls.filter (!isBlankLine ·)).map indentWidth ↔
      ∃ l ∈ ls, isBlankLine l = false ∧ indentWidth l = k := by
    simp [and_assoc]
  unfold commonIndent
  rw [List.min?_eq_some_iff, hmem]
  constructor
  · intro h
    obtain ⟨⟨l, hl, hshown, hwidth⟩, hleast⟩ := h
    refine ⟨⟨l, hl, hshown⟩, ?_, fun _ => ⟨l, hl, hshown, hwidth⟩⟩
    intro l' hl' hshown'
    exact hleast _ ((hmem _).2 ⟨l', hl', hshown', rfl⟩)
  · intro h
    obtain ⟨hsome, hcommon⟩ := h
    refine ⟨hcommon.attained hsome, ?_⟩
    intro k hk
    obtain ⟨l, hl, hshown, rfl⟩ := (hmem k).1 hk
    exact hcommon.le l hl hshown

theorem commonIndent_eq_none_iff {ls : List (List Char)} :
    commonIndent ls = none ↔ ∀ l ∈ ls, isBlankLine l = true := by
  unfold commonIndent
  simp

theorem exists_isCommonIndent (ls : List (List Char)) : ∃ n, IsCommonIndent n ls := by
  cases h : commonIndent ls with
  | some n => exact ⟨n, (commonIndent_eq_some_iff.1 h).2⟩
  | none =>
    refine ⟨0, fun _ _ _ => Nat.zero_le _, ?_⟩
    intro hsome
    obtain ⟨l, hl, hshown⟩ := hsome
    rw [commonIndent_eq_none_iff.1 h l hl] at hshown
    cases hshown

theorem IsCommonIndent.unique {ls : List (List Char)} {n m : Nat} (hn : IsCommonIndent n ls)
    (hm : IsCommonIndent m ls) (hsome : ∃ l ∈ ls, isBlankLine l = false) : n = m := by
  obtain ⟨l, hl, hshown, hwidth⟩ := hn.attained hsome
  obtain ⟨l', hl', hshown', hwidth'⟩ := hm.attained hsome
  have hle := hn.le l' hl' hshown'
  have hle' := hm.le l hl hshown
  omega

/-! ## Moving a line -/

/-- A line that shows something loses `n` characters of its indentation and gets `width` spaces. -/
def moveLine (n width : Nat) (l : List Char) : List Char :=
  if isBlankLine l then l else List.replicate width ' ' ++ l.drop n

section

variable {n width : Nat} {lead rest l : List Char}

theorem moveLine_of_isBlankLine (h : isBlankLine l = true) : moveLine n width l = l := by
  unfold moveLine
  rw [if_pos h]

/-- What a line shows is moved as it is, with the indentation that is more than the lost one. -/
theorem ShowsBehind.moveLine_eq (h : ShowsBehind lead rest l) (hn : n ≤ lead.length) (width : Nat) :
    moveLine n width l = (List.replicate width ' ' ++ lead.drop n) ++ rest := by
  unfold moveLine
  rw [h.not_isBlankLine, if_neg Bool.false_ne_true, h.eq, List.drop_append_of_le_length hn,
    List.append_assoc]

theorem ShowsBehind.moved (h : ShowsBehind lead rest l) (hn : n ≤ lead.length) (width : Nat) :
    ShowsBehind (List.replicate width ' ' ++ lead.drop n) rest (moveLine n width l) := by
  rw [h.moveLine_eq hn width]
  apply h.with_lead
  intro c hc
  rcases List.mem_append.1 hc with hc | hc
  · rw [List.eq_of_mem_replicate hc]
    rfl
  · exact h.lead c (List.mem_of_mem_drop hc)

/-- A line that was moved is moved on as if it had not been. -/
theorem ShowsBehind.moveLine_moveLine (h : ShowsBehind lead rest l) (hn : n ≤ lead.length)
    (width other : Nat) : moveLine width other (moveLine n width l) = moveLine n other l := by
  have hwidth : width ≤ (List.replicate width ' ' ++ lead.drop n).length := by
    rw [List.length_append, List.length_replicate]
    omega
  have hdrop : (List.replicate width ' ' ++ lead.drop n).drop width = lead.drop n := by
    rw [List.drop_append_of_le_length (by rw [List.length_replicate]), List.drop_replicate,
      Nat.sub_self]
    rfl
  rw [(h.moved hn width).moveLine_eq hwidth other, hdrop, h.moveLine_eq hn other]

end

/-! ## Moving the lines of a text -/

section

variable {n : Nat} {ls : List (List Char)} {l : List Char} (h : AreLines ls)
  (hn : ∀ l ∈ ls, isBlankLine l = false → n ≤ indentWidth l)

include h hn

/-- A line of the text is blank, or has no less indentation than the lines have in common. -/
theorem AreLines.blank_or_shows (hl : l ∈ ls) :
    isBlankLine l = true ∨ ∃ lead rest, ShowsBehind lead rest l ∧ n ≤ lead.length := by
  cases hblank : isBlankLine l with
  | true => exact .inl rfl
  | false =>
    obtain ⟨lead, rest, hshows⟩ := h.exists_showsBehind hl hblank
    have hle := hn l hl hblank
    rw [hshows.indentWidth_eq] at hle
    exact .inr ⟨lead, rest, hshows, hle⟩

theorem AreLines.isBlankLine_moveLine (width : Nat) (hl : l ∈ ls) :
    isBlankLine (moveLine n width l) = isBlankLine l := by
  rcases h.blank_or_shows hn hl with hblank | ⟨lead, rest, hshows, hle⟩
  · rw [moveLine_of_isBlankLine hblank]
  · rw [(hshows.moved hle width).not_isBlankLine, hshows.not_isBlankLine]

theorem AreLines.moveLine_moveLine (width other : Nat) (hl : l ∈ ls) :
    moveLine width other (moveLine n width l) = moveLine n other l := by
  rcases h.blank_or_shows hn hl with hblank | ⟨lead, rest, hshows, hle⟩
  · simp only [moveLine_of_isBlankLine hblank]
  · exact hshows.moveLine_moveLine hle width other

end

variable {n : Nat} {ls : List (List Char)}

/-- Moved lines have the new indentation in common. -/
theorem AreLines.isCommonIndent_map (h : AreLines ls) (hn : IsCommonIndent n ls) (width : Nat) :
    IsCommonIndent width (ls.map (moveLine n width)) := by
  constructor
  case le =>
    intro l' hl' hshown
    obtain ⟨l, hl, rfl⟩ := List.mem_map.1 hl'
    rw [h.isBlankLine_moveLine hn.le width hl] at hshown
    rcases h.blank_or_shows hn.le hl with hblank | ⟨lead, rest, hshows, hle⟩
    · rw [hblank] at hshown
      cases hshown
    · rw [(hshows.moved hle width).indentWidth_eq, List.length_append, List.length_replicate]
      omega
  case attained =>
    intro hsome
    obtain ⟨l', hl', hshown⟩ := hsome
    obtain ⟨l₀, hl₀, rfl⟩ := List.mem_map.1 hl'
    rw [h.isBlankLine_moveLine hn.le width hl₀] at hshown
    -- the line with the least indentation keeps none of it
    obtain ⟨l, hl, hshown, hwidth⟩ := hn.attained ⟨l₀, hl₀, hshown⟩
    obtain ⟨lead, rest, hshows⟩ := h.exists_showsBehind hl hshown
    rw [hshows.indentWidth_eq] at hwidth
    have hmoved := hshows.moved (Nat.le_of_eq hwidth.symm) width
    refine ⟨_, List.mem_map_of_mem hl, hmoved.not_isBlankLine, ?_⟩
    rw [hmoved.indentWidth_eq, List.length_append, List.length_replicate, List.length_drop, hwidth]
    omega

/-- A line is moved without its line feed: what it loses is in front of what it shows. -/
theorem moveLine_append {body ending : List Char} (hbody : '\n' ∉ body)
    (hending : ending = [] ∨ ending = ['\n'])
    (hn : isBlankLine (body ++ ending) = false → n ≤ indentWidth (body ++ ending)) (width : Nat) :
    ∃ body', moveLine n width (body ++ ending) = body' ++ ending ∧ '\n' ∉ body' ∧
      (body ≠ [] → body' ≠ []) := by
  cases hblank : isBlankLine (body ++ ending) with
  | true => exact ⟨body, moveLine_of_isBlankLine hblank, hbody, id⟩
  | false =>
    obtain ⟨lead, rest, hshows⟩ := exists_showsBehind_body hbody hending hblank
    obtain ⟨c, cs, hrest, -, -⟩ := hshows.rest
    have hle := hn hblank
    rw [(hshows.append ending).indentWidth_eq] at hle
    rw [hshows.eq, List.mem_append, not_or] at hbody
    refine ⟨(List.replicate width ' ' ++ lead.drop n) ++ rest, ?_, ?_, ?_⟩
    · rw [(hshows.append ending).moveLine_eq hle width, List.append_assoc _ rest]
    · rw [List.mem_append, List.mem_append, not_or, not_or]
      refine ⟨⟨?_, fun hmem => hbody.1 (List.mem_of_mem_drop hmem)⟩, hbody.2⟩
      intro hmem
      exact absurd (List.eq_of_mem_replicate hmem) (by decide)
    · intro _
      rw [hrest]
      exact List.append_ne_nil_of_right_ne_nil _ (List.cons_ne_nil c cs)

/-- Moved lines are lines. -/
theorem AreLines.map_moveLine (h : AreLines ls)
    (hn : ∀ l ∈ ls, isBlankLine l = false → n ≤ indentWidth l) (width : Nat) :
    AreLines (ls.map (moveLine n width)) := by
  induction h with
  | nil => exact .nil
  | @unended l hne hl =>
    have hn' := hn l List.mem_cons_self
    rw [← List.append_nil l] at hn'
    obtain ⟨l', heq, hl', hne'⟩ := moveLine_append hl (.inl rfl) hn' width
    rw [List.append_nil, List.append_nil] at heq
    rw [List.map_singleton, heq]
    exact .unended (hne' hne) hl'
  | @ended l ls hl hls ih =>
    obtain ⟨l', heq, hl', -⟩ := moveLine_append hl (.inr rfl) (hn _ List.mem_cons_self) width
    rw [List.map_cons, heq]
    exact .ended hl' (ih fun l hl => hn l (List.mem_cons_of_mem _ hl))

/-! ## Moving a text -/

variable {s : List Char}

/-- A text is moved line by line. -/
theorem indentLines_eq (hn : IsCommonIndent n (terminatedLines s)) (width : Nat) :
    indentLines width s = ((terminatedLines s).map (moveLine n width)).flatten := by
  unfold indentLines
  dsimp only
  cases h : commonIndent (terminatedLines s) with
  | none =>
    -- all lines are blank, so it does not matter how much they would lose
    have hblank := commonIndent_eq_none_iff.1 h
    have hstay : (terminatedLines s).map (moveLine n width) = (terminatedLines s).map id :=
      List.map_congr_left fun l hl => moveLine_of_isBlankLine (hblank l hl)
    rw [hstay, List.map_id, flatten_terminatedLines]
  | some m =>
    obtain ⟨hsome, hm⟩ := commonIndent_eq_some_iff.1 h
    rw [hn.unique hm hsome]
    rfl

/-- The lines of a moved text are its lines, each of them moved. -/
theorem terminatedLines_indentLines (hn : IsCommonIndent n (terminatedLines s)) (width : Nat) :
    terminatedLines (indentLines width s) = (terminatedLines s).map (moveLine n width) := by
  rw [indentLines_eq hn width]
  exact terminatedLines_flatten ((areLines_terminatedLines s).map_moveLine hn.le width)

/-- A moved text has the new indentation in common. -/
theorem isCommonIndent_indentLines (width : Nat) (s : List Char) :
    IsCommonIndent width (terminatedLines (indentLines width s)) := by
  obtain ⟨n, hn⟩ := exists_isCommonIndent (terminatedLines s)
  rw [terminatedLines_indentLines hn width]
  exact (areLines_terminatedLines s).isCommonIndent_map hn width

/-- Of several moves only the last one counts. -/
theorem indentLines_indentLines (s : List Char) (width other : Nat) :
    indentLines other (indentLines width s) = indentLines other s := by
  obtain ⟨n, hn⟩ := exists_isCommonIndent (terminatedLines s)
  rw [indentLines_eq (isCommonIndent_indentLines width s) other, indentLines_eq hn other,
    terminatedLines_indentLines hn width, List.map_map]
  refine congrArg List.flatten (List.map_congr_left ?_)
  intro l hl
  exact (areLines_terminatedLines s).moveLine_moveLine hn.le width other hl

/-! ## What moving a block means -/

/-- The line feed at the end of a line, with the carriage returns before it. -/
def lineEnd (l : List Char) : List Char :=
  (l.reverse.takeWhile fun c => c == '\n' || c == '\r').reverse

theorem ShowsBehind.lineEnd_eq {lead rest l : List Char} (h : ShowsBehind lead rest l) :
    lineEnd l = lineEnd rest := by
  obtain ⟨c, cs, hrest, hc, hnewline⟩ := h.rest
  have hstop : (c == '\n' || c == '\r') = false := by
    have hreturn : c ≠ '\r' := by
      rintro rfl
      cases hc
    simp [hnewline, hreturn]
  -- from behind, the end stops at the first character that is shown, whatever is before it
  have hcut (before : List Char) :
      (cs.reverse ++ c :: before).takeWhile (fun c => c == '\n' || c == '\r') =
        cs.reverse.takeWhile fun c => c == '\n' || c == '\r' := by
    rw [List.takeWhile_append]
    split
    · next hall =>
      rw [List.takeWhile_cons_of_neg (by simp [hstop]), List.append_nil]
      exact ((List.takeWhile_prefix _).eq_of_length hall).symm
    · rfl
  unfold lineEnd
  rw [h.eq, hrest, List.reverse_append, List.reverse_cons, List.append_assoc, List.singleton_append,
    hcut, hcut]

/-- How a line is moved: a blank one stays as it is, and any other one gets spaces for the common
part of its indentation. -/
inductive Moved (n width : Nat) : List Char → List Char → Prop
  | blank {l : List Char} (h : isBlankLine l = true) : Moved n width l l
  | shown {common more rest l : List Char} (h : ShowsBehind (common ++ more) rest l)
      (hcommon : common.length = n) :
      Moved n width l (List.replicate width ' ' ++ (more ++ rest))

variable {width : Nat} {l l' : List Char}

theorem AreLines.moved_moveLine (h : AreLines ls)
    (hn : ∀ l ∈ ls, isBlankLine l = false → n ≤ indentWidth l) (hl : l ∈ ls) (width : Nat) :
    Moved n width l (moveLine n width l) := by
  rcases h.blank_or_shows hn hl with hblank | ⟨lead, rest, hshows, hle⟩
  · rw [moveLine_of_isBlankLine hblank]
    exact .blank hblank
  · have hshows' : ShowsBehind (lead.take n ++ lead.drop n) rest l := by rwa [List.take_append_drop]
    rw [hshows.moveLine_eq hle width, List.append_assoc]
    exact .shown hshows' (List.length_take_of_le hle)

/-- A moved line starts with the spaces, unless it is blank. -/
theorem Moved.prefix_of_shown (h : Moved n width l l') (hshown : isBlankLine l' = false) :
    List.replicate width ' ' <+: l' := by
  cases h with
  | blank hblank =>
    rw [hblank] at hshown
    cases hshown
  | shown h hcommon => exact List.prefix_append _ _

/-- A moved line ends as it did. -/
theorem Moved.lineEnd_eq (h : Moved n width l l') : lineEnd l' = lineEnd l := by
  cases h with
  | blank hblank => rfl
  | @shown common more rest l h hcommon =>
    have hlead : ∀ c ∈ List.replicate width ' ' ++ more, isIndent c = true := by
      intro c hc
      rcases List.mem_append.1 hc with hc | hc
      · rw [List.eq_of_mem_replicate hc]
        rfl
      · exact h.lead c (List.mem_append_right _ hc)
    rw [← List.append_assoc, (h.with_lead hlead).lineEnd_eq, h.lineEnd_eq]

/-- The text `new` is the block `old`, moved so that it starts after `width` spaces. -/
structure Reindents (width : Nat) (old new : List Char) : Prop where
  /-- Line by line, the blank ones stay and the others lose what they have in common. -/
  lines : ∃ n, IsCommonIndent n (terminatedLines old) ∧
    List.Forall₂ (Moved n width) (terminatedLines old) (terminatedLines new)
  /-- Every line ends as it did. -/
  ends : (terminatedLines new).map lineEnd = (terminatedLines old).map lineEnd
  /-- Every line that shows something starts with the spaces. -/
  spaces : ∀ l ∈ terminatedLines new, isBlankLine l = false → List.replicate width ' ' <+: l
  /-- The least indented of them has no other indentation. -/
  least : IsCommonIndent width (terminatedLines new)

theorem reindents_indentLines (width : Nat) (s : List Char) :
    Reindents width s (indentLines width s) := by
  obtain ⟨n, hn⟩ := exists_isCommonIndent (terminatedLines s)
  have hlines := terminatedLines_indentLines hn width
  have hmoved (l : List Char) (hl : l ∈ terminatedLines s) : Moved n width l (moveLine n width l) :=
    (areLines_terminatedLines s).moved_moveLine hn.le hl width
  constructor
  case lines =>
    refine ⟨n, hn, ?_⟩
    rw [hlines, List.forall₂_map_right_iff, List.forall₂_same]
    exact hmoved
  case ends =>
    rw [hlines, List.map_map]
    exact List.map_congr_left fun l hl => (hmoved l hl).lineEnd_eq
  case spaces =>
    intro l' hl' hshown
    rw [hlines] at hl'
    obtain ⟨l, hl, rfl⟩ := List.mem_map.1 hl'
    exact (hmoved l hl).prefix_of_shown hshown
  case least => exact isCommonIndent_indentLines width s

/-- Moving a block of code means just that, whatever its lines start and end with, and of several
moves only the last one counts. -/
theorem indent_composes (code : String) (width : Nat) :
    (∀ other, indent (indent code width) other = indent code other) ∧
      Reindents width code.toList (indent code width).toList := by
  unfold indent
  simp only [String.toList_ofList]
  constructor
  · intro other
    rw [indentLines_indentLines]
  · exact reindents_indentLines width code.toList

/-- Tabs, carriage returns and blank lines: only what the three visible lines share is replaced. -/
example : indent "\t a();\r\n\t \tb();\n \r\n\n\t c();" 3 = "   a();\r\n   \tb();\n \r\n\n   c();" := by
  cbv

end SketchSense.Text
